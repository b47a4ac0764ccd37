import EmbeddedKv.Net.Commands
import EmbeddedKv.Net.Grammar
import EmbeddedKv.Tiers.EvictAll

/-!
# The commands over the memory tier

What the commands do to the store in the mode with an LRU cache in memory: an instance of
`Storage`, over the server with its flush worker.

## The model

How much memory is in use is not modelled: `memUsedCheck` may find too much of it in use
whenever it looks, or never (`evicts`). While it waits, the flush worker takes steps. What
`flashCacheDestroy` leaves of the flash cache may be anything.
-/

namespace EmbeddedKv.Net

open EmbeddedKv.Library EmbeddedKv.Flash EmbeddedKv.Store EmbeddedKv.Tiers Relation

/-- The `len` bytes of a message. -/
def Msg.bytes (m : Msg) : Bytes := m.buf.take m.len.toNat

theorem Msg.bytes_ofBytes {b : Bytes} (h : b.length < 2 ^ 32) : (ofBytes b).bytes = b := by
  rw [bytes, ofBytes, UInt32.toNat_ofNat_of_lt' h, List.take_left]

/-- `memUsedCheck(c)`. -/
def MemUsedCheck (crc : Bytes → UInt32) (mode : FlashcacheMode) (d : DeadNode) (evicts : Prop) (s t : Server) : Prop :=
  ∃ s₁, (s₁ = s ∨ evicts ∧ ServerStep crc mode d s .evict s₁) ∧
    ReflTransGen (fun s t => ∃ a, BworkerStep crc mode s a t) s₁ t

/-- **The store** with an LRU cache in memory. -/
def memLru (crc : Bytes → UInt32) (mode : FlashcacheMode) (d : DeadNode) (evicts : Prop) : Storage Server where
  setCommand s key val t :=
    ∃ s₁, MemUsedCheck crc mode d evicts s s₁ ∧ ServerStep crc mode d s₁ (.set key.bytes val.bytes) t
  getCommand s key found t :=
    s.bworker.holdsMutex = false ∧ s.blocked = false ∧
    ∃ env r db, (s.db.touch d key.bytes).getCommand crc mode env key.bytes = .ok (r, db) ∧ t = { s with db } ∧
      match r with
      | none => found = .absent
      | some val =>
        if s.db.memLRU.find (cString key.bytes) = none then ∃ beyond, found = .flash val beyond
        else found = .memory val
  flashCacheDestroy s t := ∃ flashCache, t = { s with db := { s.db with flashCache } }
  evictAllCommand s t := ∃ acts, EvictAllRun crc mode (.call s) acts ⟨t, .returned⟩

end EmbeddedKv.Net
