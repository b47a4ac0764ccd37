import EmbeddedKv.Flash.Burst
import EmbeddedKv.Store.Paths

/-!
# Scratched records

The files of the flash cache in direct mode have been damaged behind its back. `Lookup` does not tell
a record that is refused from an empty value, but it does not return what was never inserted.

`scratch_noticed`: after every run, and whatever has happened to the files, the record of a key that
is scratched gives the value that was inserted or the empty one, if the check detects bursts of
four bytes. Other records may be damaged in any way.
-/

namespace EmbeddedKv.Store

open EmbeddedKv.Library EmbeddedKv.Flash

variable {crc : Bytes → UInt32} {c : FlashCache} {key : Bytes} {lba : LBA} {opt : FlashCacheConfig} {size : UInt64}

/-- A file with other contents. -/
def damagedFile (d : Bytes → Bytes) (f : WriteableCacheFile) : WriteableCacheFile := { f with fd := f.fd.map d }

/-- **The cache with other contents in its files.** -/
def FlashCache.damaged (c : FlashCache) (d : ℕ → Bytes → Bytes) : FlashCache :=
  { c with heap := c.heap.mapIdx fun p f => f.map (damagedFile (d p)) }

theorem FlashCache.deref_damaged (c : FlashCache) (d : ℕ → Bytes → Bytes) (p : ℕ) :
    (c.damaged d).deref p = (c.deref p).map (damagedFile (d p)) := by
  rw [FlashCache.deref, FlashCache.deref, FlashCache.damaged, List.getElem?_mapIdx]
  cases c.heap[p]? with
  | none => rfl
  | some f => rfl

/-- **Scratched records are noticed**: after every run in direct mode, if the check detects bursts of four
bytes, `Lookup` of a key whose record is scratched returns the value that was inserted, if nothing of
the record has changed, and the empty value otherwise. The mutex is given back. -/
theorem scratch_noticed {acts : List CacheAct} (hcrc : DetectsBursts 4 crc) (hc : ModeRun crc .direct opt size acts c)
    (hl : c.metadata.lookup key = some lba) (hfree : c.fcacheMutex = false) :
    ∃ p f file val, c.metadata.cacheFileIndex.find lba.cacheId = some p ∧ c.deref p = some f ∧ f.fd = some file ∧
      kept (acts.filterMap CacheAct.event) key = some val ∧
      ∀ d env, Scratched file (d p file) lba → Enough env.preads lba.size.toNat →
        ∃ c', (c.damaged d).lookup crc .direct env key =
            .ok (some (if slice (d p file) lba = slice file lba then val else []), c') ∧ c'.fcacheMutex = false := by
  obtain ⟨-, logs, hs, hm⟩ := run_refines hc
  obtain ⟨val, hval, ⟨p, hp, hat⟩, hk, hv, hsize⟩ := hm.stores hl
  obtain ⟨-, f, hf, -⟩ := hs.indexed _ p hp
  have hfd : f.fd = some (logs p) := ((hs.files p f hf).direct rfl).1
  refine ⟨p, f, logs p, val, hp, hf, hfd, hval, fun d env hd hio => ?_⟩
  have hread : (damagedFile (d p) f).read crc .direct env lba =
      .ok (if slice (d p (logs p)) lba = slice (logs p) lba then some (key, val) else none) :=
    read_scratched hcrc hat hk hv hsize hd rfl (by rw [damagedFile, hfd, Option.map_some]) hio
  obtain ⟨index, hget, -, -⟩ := hs.linked.get lba.cacheId
  rw [hp] at hget
  have hderef : (c.damaged d).deref p = some (damagedFile (d p) f) := by
    rw [FlashCache.deref_damaged, hf, Option.map_some]
  have hlook := FlashCache.lookup_iff.mpr ⟨show (c.damaged d).fcacheMutex = false from hfree,
    FlashCache.Looked.read (c := c.damaged d) hl hget hderef hread⟩
  have hout : ((if slice (d p (logs p)) lba = slice (logs p) lba then some (key, val) else none).map Prod.snd).getD [] =
      if slice (d p (logs p)) lba = slice (logs p) lba then val else [] := by
    split_ifs <;> rfl
  rw [hout] at hlook
  exact ⟨_, hlook, rfl⟩

/-- A run with two records, of which the first one ends with 1. -/
theorem modeRun_two (crc : Bytes → UInt32) : ∃ c acts, ModeRun crc .direct ⟨100, 10, 1000⟩ 0 acts c ∧
    c.metadata.lookup [97] = some ⟨0, 0, 18⟩ ∧ c.fcacheMutex = false ∧
    ∀ p f file, c.metadata.cacheFileIndex.find 0 = some p → c.deref p = some f → f.fd = some file → file[17]? = some 1 := by
  have hin : ∀ a b : UInt8, a ≠ 0 → b ≠ 0 → (CacheAct.insert [a] [b]).InBounds ⟨100, 10, 1000⟩ := fun a b ha hb =>
    ⟨by simpa [NulFree] using ha, by simpa [NulFree] using hb, by simp [recordSize]; decide⟩
  have h0 : ModeRun crc .direct ⟨100, 10, 1000⟩ 0 [] _ := .nil _
  have h1 := h0.snoc (a := .insert [97] [1]) (hin 97 1 (by decide) (by decide)) (.insert
    (show FlashCache.insert crc .direct [.moved 99] _ [97] [1] = .ok (0, _) from rfl))
  have h2 := h1.snoc (a := .insert [98] [2]) (hin 98 2 (by decide) (by decide)) (.insert
    (show FlashCache.insert crc .direct [.moved 99] _ [98] [2] = .ok (0, _) from rfl))
  refine ⟨_, _, h2, rfl, rfl, fun p f file hp hf hfile => ?_⟩
  cases hp
  cases hf
  cases hfile
  rfl

/-- Two records, of which the last byte of the first is damaged. -/
theorem scratch_noticed_two : ∃ (c c' : FlashCache) (d : ℕ → Bytes → Bytes), (c.damaged d).lookup crc32 .direct
    ⟨[], List.replicate 18 (.moved 0), false, []⟩ [97] = .ok (some [], c') ∧ c'.fcacheMutex = false := by
  obtain ⟨c, acts, hc, hl, hfree, hlast⟩ := modeRun_two crc32
  obtain ⟨p, f, file, val, hp, hf, hfile, -, hlook⟩ := scratch_noticed crc32_detectsBursts hc hl hfree
  have hio : Enough (List.replicate 18 (IoResult.moved 0)) 18 := ⟨by simp, by decide⟩
  obtain ⟨c', hr, hfree'⟩ := hlook (fun _ file => file.set 17 9) ⟨[], List.replicate 18 (.moved 0), false, []⟩
    (scratched_set file _ 17 (by decide)) hio
  have hne : slice (file.set 17 9) ⟨0, 0, 18⟩ ≠ slice file ⟨0, 0, 18⟩ := by
    intro hsame
    have hold := hlast p f file hp hf hfile
    have hbyte : (slice (file.set 17 9) ⟨0, 0, 18⟩)[17]? = (slice file ⟨0, 0, 18⟩)[17]? := by rw [hsame]
    rw [getElem?_slice, getElem?_slice, if_pos (by decide), if_pos (by decide)] at hbyte
    replace hbyte : (file.set 17 9)[17]? = file[17]? := hbyte
    rw [List.getElem?_set_self', hold] at hbyte
    exact absurd (Option.some.inj hbyte) (by decide)
  rw [if_neg hne] at hr
  exact ⟨c, c', _, hr, hfree'⟩

end EmbeddedKv.Store
