import EmbeddedKv.Library.Rounding
import EmbeddedKv.Store.Mutex

/-!
# The test of the capacity

`Evict` compares two numbers of the type `float`, the sizes and the capacity, each rounded to 24
bits (`toFloat`). Here its loop is compared with the same loop and the test in exact arithmetic
(`EvictExactly`).

## What is proved

`evict_rounded`: all that `Evict` removes, round by round, the exact loop removes first; where it
stops earlier, there are at most two parts in `2 ^ 24` too much; and for a capacity of less than
`2 ^ 24` bytes the two do the same.
-/

namespace EmbeddedKv.Store

open EmbeddedKv.Library EmbeddedKv.Flash Relation

namespace FlashCache

variable {mode : FlashcacheMode} {size : UInt64} {c c' d : FlashCache}

/-- The body of the loop of `Evict`: the least recently used file is taken out of the indices and
deleted. -/
inductive Removes (mode : FlashcacheMode) : FlashCache → FlashCache → Prop where
  /-- One file. -/
  | file {c : FlashCache} {p : ℕ} {f g : WriteableCacheFile} {metadata : Metadata} (unlinked : Bool)
      (hlock : c.fcacheMutex = false)
      (hevict : c.metadata.evict (fun p => (c.deref p).map WriteableCacheFile.cacheId) = .ok (p, metadata))
      (hf : c.deref p = some f) (hclose : Close mode c f g) :
      Removes mode c
        { c with
          metadata := g.keyLists.foldl Metadata.erase metadata
          size := if unlinked then c.size - g.filesize.toInt32.toInt64.toUInt64 else c.size
          heap := c.heap.set p none
          dir := if unlinked then c.dir.erase g.cacheId else c.dir }

/-- A round is the test and the body. -/
theorem evictRound_iff : EvictRound mode size c c' ↔ c.overfull size = true ∧ Removes mode c c' := by
  constructor
  · rintro ⟨unlinked, hover, hlock, hevict, hf, hclose⟩
    exact ⟨hover, .file unlinked hlock hevict hf hclose⟩
  · rintro ⟨hover, ⟨unlinked, hlock, hevict, hf, hclose⟩⟩
    exact .round unlinked hover hlock hevict hf hclose

/-- The options stay. -/
theorem Removes.opt (h : Removes mode c c') : c'.opt = c.opt := by
  cases h
  rfl

/-- `size + size_ > opt_.cache_size`, for the numbers themselves. -/
def Overfull (size : UInt64) (c : FlashCache) : Prop := c.opt.cacheSize.toNat < (size + c.size).toNat

instance (size : UInt64) (c : FlashCache) : Decidable (Overfull size c) := inferInstanceAs (Decidable (_ < _))

/-- A round with this test. -/
def ExactRoundOf (mode : FlashcacheMode) (size : UInt64) (c c' : FlashCache) : Prop := Overfull size c ∧ Removes mode c c'

/-- **`Evict(size)` with this test**, when it returns. -/
def EvictExactly (mode : FlashcacheMode) (size : UInt64) (c c' : FlashCache) : Prop :=
  ReflTransGen (ExactRoundOf mode size) c c' ∧ ¬ Overfull size c'

/-- The test never finds too much where there is none. -/
theorem overfull_of_float (h : c.overfull size = true) : Overfull size c :=
  lt_of_roundBits_lt (of_decide_eq_true h)

/-- Where it finds room, there is room but for two parts. -/
theorem close_of_not_overfull (h : c.overfull size = false) :
    2 ^ 24 * (size + c.size).toNat ≤ 2 ^ 24 * c.opt.cacheSize.toNat + (c.opt.cacheSize.toNat + (size + c.size).toNat) :=
  close_of_roundBits_le (Nat.not_lt.mp (of_decide_eq_false h))

/-- With a small capacity it is exact. -/
theorem overfull_iff (h : c.opt.cacheSize.toNat < 2 ^ 24) : c.overfull size = true ↔ Overfull size c := by
  rw [overfull, decide_eq_true_iff]
  exact roundBits_lt_iff h

/-- The rounds of `Evict` are rounds of the exact loop. -/
theorem exact_of_evictRounds (h : ReflTransGen (EvictRound mode size) c c') :
    ReflTransGen (ExactRoundOf mode size) c c' ∧ c'.opt = c.opt := by
  induction h with
  | refl => exact ⟨.refl, rfl⟩
  | tail _ hround ih =>
    obtain ⟨hover, hremoves⟩ := evictRound_iff.mp hround
    exact ⟨ih.1.tail ⟨overfull_of_float hover, hremoves⟩, hremoves.opt.trans ih.2⟩

/-- With a small capacity they are all of them. -/
theorem evictRounds_of_exact (hcap : c.opt.cacheSize.toNat < 2 ^ 24) (h : ReflTransGen (ExactRoundOf mode size) c c') :
    ReflTransGen (EvictRound mode size) c c' ∧ c'.opt = c.opt := by
  induction h with
  | refl => exact ⟨.refl, rfl⟩
  | tail _ hround ih =>
    obtain ⟨hrounds, hopt⟩ := ih
    obtain ⟨hover, hremoves⟩ := hround
    have hfloat := (overfull_iff (by rw [hopt]; exact hcap)).mpr hover
    exact ⟨hrounds.tail (evictRound_iff.mpr ⟨hfloat, hremoves⟩), hremoves.opt.trans hopt⟩

/-- **`Evict` and the exact loop**: what `Evict` has removed after any number of rounds, the
exact loop removes first; what it leaves when it returns is more than the capacity by two parts
in `2 ^ 24` at most; and for a capacity of less than `2 ^ 24` bytes the two do the same. -/
theorem evict_rounded (mode : FlashcacheMode) (size : UInt64) (c c' : FlashCache) :
    (ReflTransGen (EvictRound mode size) c c' → ReflTransGen (ExactRoundOf mode size) c c') ∧
    (Evict mode size c c' → 2 ^ 24 * (size + c'.size).toNat ≤
      2 ^ 24 * c.opt.cacheSize.toNat + (c.opt.cacheSize.toNat + (size + c'.size).toNat)) ∧
    (c.opt.cacheSize.toNat < 2 ^ 24 → (Evict mode size c c' ↔ EvictExactly mode size c c')) := by
  refine ⟨fun h => (exact_of_evictRounds h).1, fun h => ?_, fun hcap => ⟨fun h => ?_, fun h => ?_⟩⟩
  · obtain ⟨-, hopt⟩ := exact_of_evictRounds h.1
    have hclose := close_of_not_overfull h.2
    rwa [hopt] at hclose
  · obtain ⟨hexact, hopt⟩ := exact_of_evictRounds h.1
    refine ⟨hexact, fun hover => ?_⟩
    have hfloat := (overfull_iff (by rw [hopt]; exact hcap)).mpr hover
    exact Bool.false_ne_true (h.2.symm.trans hfloat)
  · obtain ⟨hrounds, hopt⟩ := evictRounds_of_exact hcap h.1
    refine ⟨hrounds, Bool.eq_false_iff.mpr fun hfloat => h.2 ?_⟩
    exact (overfull_iff (by rw [hopt]; exact hcap)).mp hfloat

/-- A cache with room for `2 ^ 24` bytes, of two files: `Evict` removes the one of 30 bytes and
stops with one byte too much, which the exact loop does not accept. -/
theorem evict_rounded_stops : ∃ c c' : FlashCache, c.dir = [0, 1] ∧ c'.dir = [1] ∧ Evict .direct 1 c c' ∧
    ReflTransGen (ExactRoundOf .direct 1) c c' ∧ Overfull 1 c' ∧
    2 ^ 24 * (1 + c'.size).toNat ≤
      2 ^ 24 * c.opt.cacheSize.toNat + (c.opt.cacheSize.toNat + (1 + c'.size).toNat) := by
  have hround : EvictRound .direct 1
      { size := 2 ^ 24 + 30, opt := ⟨20, 0, 2 ^ 24⟩, dir := [0, 1], metadata := ⟨.insert (.insert {} 0 0) 1 1, ∅⟩,
        heap := [some { WriteableCacheFile.fresh 0 20 0 with filesize := 30, eof := true },
          some (WriteableCacheFile.fresh 1 20 0)] } _ :=
    .round true (by decide) rfl rfl rfl (close_direct rfl (Nat.lt_irrefl 0) rfl)
  have hevict : Evict .direct 1 _ _ := ⟨.single hround, by decide⟩
  obtain ⟨hrounds, hleft, -⟩ := evict_rounded .direct 1 _ _
  exact ⟨_, _, rfl, rfl, hevict, hrounds hevict.1, by decide, hleft hevict⟩

end FlashCache

end EmbeddedKv.Store
