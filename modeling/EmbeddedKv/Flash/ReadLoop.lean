import EmbeddedKv.Flash.Reading
import Mathlib.Data.Stream.Init

/-!
# The loop around `pread`

`WriteableCacheFile::Read` calls `pread` until it has all bytes of the record. A call that
returns 0 or less ends the loop, unless `errno` is `EINTR`: but `pread` leaves `errno` alone
when it returns 0 at the end of the file, and then `errno` is what an earlier call left.

## The model

How `pread` answers is a `Stream'` of results, without an end: how many of them the loop
takes is not known beforehand. The loop ends if it does so on a finite part of the stream.

## What is proved

`readsOnSchedule_iff`: the loop ends, reads what is there and has `Read` fail on a file that
is too short, exactly for the schedules that are `Harmless`. A file that holds all the bytes
is never in danger. Where it is too short, a stale `EINTR` at its end makes the loop go on
for ever if no call fails later, and without one `Read` may take the bytes up to the end
of the file for a shorter record.
-/

namespace EmbeddedKv.Flash

open EmbeddedKv.Library

/-! ### Schedules -/

/-- The number of bytes a call may move at most. -/
def IoResult.count : IoResult → ℕ
  | .moved n => n + 1
  | _ => 0

/-- The number of bytes some calls may move at most. -/
def counted (rs : List IoResult) : ℕ := (rs.map IoResult.count).sum

/-- **The end of a file is met with a clean `errno`**: `errno` is not `EINTR` at the start,
and neither an interruption nor an error comes before the calls have moved `n` bytes and one
more call has returned 0. -/
def MeetsEndClean (errnoEintr : Bool) (s : Stream' IoResult) (n : ℕ) : Prop :=
  errnoEintr = false ∧ ∃ k, (∀ r ∈ s.take (k + 1), r.isMoved = true) ∧ n ≤ counted (s.take k)

variable {s : Stream' IoResult} {e : Bool} {rest acc out : Bytes} {left n : ℕ} {neg neg' : Bool}

@[simp] theorem counted_nil : counted [] = 0 := rfl

@[simp] theorem counted_cons (r : IoResult) (rs : List IoResult) : counted (r :: rs) = r.count + counted rs := by
  simp [counted]

theorem take_succ_of_head {r : IoResult} (h : s.head = r) (n : ℕ) : s.take (n + 1) = r :: s.tail.take n := by
  rw [Stream'.take_succ, h]

/-- The end is met at once, if there is nothing in front of it. -/
theorem meetsEndClean_zero {m : ℕ} (h : s.head = .moved m) : MeetsEndClean false s 0 := by
  refine ⟨rfl, 0, fun r hr => ?_, Nat.zero_le _⟩
  rw [take_succ_of_head h, Stream'.take_zero, List.mem_singleton] at hr
  rw [hr]
  rfl

/-- A call that moves bytes brings the end nearer. -/
theorem meetsEndClean_moved {m : ℕ} (h : s.head = .moved m) (hn : 0 < n) :
    MeetsEndClean e s n ↔ MeetsEndClean e s.tail (n - (m + 1)) := by
  refine and_congr Iff.rfl ⟨fun ⟨k, hk, hc⟩ => ?_, fun ⟨k, hk, hc⟩ => ?_⟩
  · cases k with
    | zero => simp at hc; omega
    | succ k =>
      rw [take_succ_of_head h] at hk hc
      rw [counted_cons, IoResult.count] at hc
      exact ⟨k, fun r hr => hk r (List.mem_cons_of_mem _ hr), by omega⟩
  · refine ⟨k + 1, ?_, ?_⟩
    · rw [take_succ_of_head h]
      intro r hr
      obtain rfl | hr := List.mem_cons.mp hr
      · rfl
      · exact hk r hr
    · rw [take_succ_of_head h, counted_cons, IoResult.count]
      omega

/-- An interruption or an error in front makes it impossible. -/
theorem not_meetsEndClean (h : s.head.isMoved = false) : ¬ MeetsEndClean e s n := by
  rintro ⟨-, k, hk, -⟩
  have := hk s.head (by rw [Stream'.take_succ]; exact List.mem_cons_self)
  rw [h] at this
  cases this

/-- The first call moves something, where the end is met with a clean `errno`. -/
theorem MeetsEndClean.head (h : MeetsEndClean e s n) : ∃ m, s.head = .moved m := by
  cases hr : s.head with
  | moved m => exact ⟨m, rfl⟩
  | eintr => exact absurd h (not_meetsEndClean (by rw [hr]; rfl))
  | failed => exact absurd h (not_meetsEndClean (by rw [hr]; rfl))

namespace WriteableCacheFile

/-! ### One call after the other -/

/-- A call in front of the end of the file. -/
theorem preadLoop_moved {m : ℕ} (rs : List IoResult) (hleft : 0 < left) (hrest : rest ≠ []) :
    preadLoop (.moved m :: rs) e rest left acc neg =
      preadLoop rs e (rest.drop (min (m + 1) left)) (left - (rest.take (min (m + 1) left)).length)
        (acc ++ rest.take (min (m + 1) left)) false := by
  cases left with
  | zero => cases hleft
  | succ left =>
    rw [preadLoop, if_neg hrest]
    · have hdrop : rest.drop (rest.take (min (m + 1) (left + 1))).length = rest.drop (min (m + 1) (left + 1)) := by
        rw [List.length_take, List.drop_eq_drop_iff]
        omega
      simp only [hdrop]
    · simp

/-- A call at the end of the file: `errno` decides. -/
theorem preadLoop_end {m : ℕ} (rs : List IoResult) (hleft : 0 < left) :
    preadLoop (.moved m :: rs) e [] left acc neg =
      if e then preadLoop rs e [] left acc false else .ok (acc, false) := by
  cases left with
  | zero => cases hleft
  | succ left =>
    rw [preadLoop, if_pos rfl]
    simp

/-- A call that is interrupted. -/
theorem preadLoop_eintr (rs : List IoResult) (hleft : 0 < left) :
    preadLoop (.eintr :: rs) e rest left acc neg = preadLoop rs true rest left acc true := by
  cases left with
  | zero => cases hleft
  | succ left => rw [preadLoop]; simp

/-- A call that fails. -/
theorem preadLoop_failed (rs : List IoResult) (hleft : 0 < left) :
    preadLoop (.failed :: rs) e rest left acc neg = .ok (acc, true) := by
  cases left with
  | zero => cases hleft
  | succ left => rw [preadLoop]; simp

@[simp] theorem preadLoop_zero (rs : List IoResult) : preadLoop rs e rest 0 acc neg = .ok (acc, neg) := by
  cases rs <;> rw [preadLoop]

/-! ### Where the loop ends -/

/-- The loop ends on a finite part of the schedule. -/
def LoopEnds (s : Stream' IoResult) (e : Bool) (rest : Bytes) (left : ℕ) (acc : Bytes) (neg : Bool) : Prop :=
  ∃ n r, preadLoop (s.take n) e rest left acc neg = .ok r

theorem loopEnds_zero : LoopEnds s e rest 0 acc neg := ⟨0, _, preadLoop_zero _⟩

theorem loopEnds_moved {m : ℕ} (hr : s.head = .moved m) (hleft : 0 < left) (hrest : rest ≠ [])
    (h : LoopEnds s.tail e (rest.drop (min (m + 1) left)) (left - (rest.take (min (m + 1) left)).length)
      (acc ++ rest.take (min (m + 1) left)) false) : LoopEnds s e rest left acc neg := by
  obtain ⟨n, r, h⟩ := h
  exact ⟨n + 1, r, by rw [take_succ_of_head hr, preadLoop_moved _ hleft hrest, h]⟩

theorem loopEnds_eintr (hr : s.head = .eintr) (hleft : 0 < left) (h : LoopEnds s.tail true rest left acc true) :
    LoopEnds s e rest left acc neg := by
  obtain ⟨n, r, h⟩ := h
  exact ⟨n + 1, r, by rw [take_succ_of_head hr, preadLoop_eintr _ hleft, h]⟩

theorem loopEnds_failed (hr : s.head = .failed) (hleft : 0 < left) : LoopEnds s e rest left acc neg :=
  ⟨1, _, by rw [take_succ_of_head hr, preadLoop_failed _ hleft]⟩

/-- At the end of the file a clean `errno` ends the loop. -/
theorem loopEnds_clean {m : ℕ} (hr : s.head = .moved m) (hleft : 0 < left) : LoopEnds s false [] left acc neg :=
  ⟨1, _, by rw [take_succ_of_head hr, preadLoop_end _ hleft, if_neg Bool.false_ne_true]⟩

/-- At the end of the file a stale `EINTR` leads to one more call. -/
theorem loopEnds_stale {m : ℕ} (hr : s.head = .moved m) (hleft : 0 < left)
    (h : LoopEnds s.tail true [] left acc false) : LoopEnds s true [] left acc neg := by
  obtain ⟨n, r, h⟩ := h
  exact ⟨n + 1, r, by rw [take_succ_of_head hr, preadLoop_end _ hleft, if_pos rfl, h]⟩

/-- The loop ends if the file holds the bytes and interruptions cease. The number of bytes
left and the position after the last interruption go down together. -/
theorem loopEnds_of_le {N : ℕ} (hs : ∀ k, N ≤ k → s.get k ≠ .eintr) (hle : left ≤ rest.length) :
    LoopEnds s e rest left acc neg := by
  obtain ⟨m, hm⟩ : ∃ m, left + N ≤ m := ⟨_, le_rfl⟩
  induction m generalizing s e rest left acc neg N with
  | zero =>
    obtain rfl : left = 0 := by omega
    exact loopEnds_zero
  | succ m ih =>
    obtain rfl | hleft := Nat.eq_zero_or_pos left
    · exact loopEnds_zero
    have htail : ∀ k, N - 1 ≤ k → s.tail.get k ≠ .eintr := fun k hk => hs (k + 1) (by omega)
    cases hr : s.head with
    | moved i =>
      have hne : rest ≠ [] := by rintro rfl; simp at hle; omega
      have hlen : (rest.take (min (i + 1) left)).length = min (i + 1) left := by rw [List.length_take]; omega
      refine loopEnds_moved hr hleft hne (ih htail ?_ ?_)
      · rw [hlen, List.length_drop]; omega
      · rw [hlen]; omega
    | eintr =>
      have hN : 0 < N := Nat.pos_of_ne_zero fun h0 => hs 0 (Nat.le_of_eq h0) hr
      exact loopEnds_eintr hr hleft (ih htail hle (by omega))
    | failed => exact loopEnds_failed hr hleft

/-- The loop ends at a call that fails, if not before. -/
theorem loopEnds_of_failed {k : ℕ} (hk : s.get k = .failed) : LoopEnds s e rest left acc neg := by
  induction k generalizing s e rest left acc neg with
  | zero =>
    obtain rfl | hleft := Nat.eq_zero_or_pos left
    · exact loopEnds_zero
    · exact loopEnds_failed hk hleft
  | succ k ih =>
    obtain rfl | hleft := Nat.eq_zero_or_pos left
    · exact loopEnds_zero
    cases hr : s.head with
    | moved i =>
      by_cases hrest : rest = []
      · subst hrest
        cases e with
        | true => exact loopEnds_stale hr hleft (ih hk)
        | false => exact loopEnds_clean hr hleft
      · exact loopEnds_moved hr hleft hrest (ih hk)
    | eintr => exact loopEnds_eintr hr hleft (ih hk)
    | failed => exact loopEnds_failed hr hleft

/-- The loop ends at the end of the file, if that is met with a clean `errno`. -/
theorem loopEnds_of_meetsEndClean (h : MeetsEndClean e s rest.length) (hlt : rest.length < left) :
    LoopEnds s e rest left acc neg := by
  induction hlen : rest.length using Nat.strong_induction_on generalizing s rest left acc neg with
  | h i ih =>
  obtain ⟨m, hr⟩ := h.head
  have hleft : 0 < left := by omega
  by_cases hrest : rest = []
  · subst hrest
    obtain rfl := h.1
    exact loopEnds_clean hr hleft
  · have hpos : 0 < rest.length := List.length_pos_of_ne_nil hrest
    have hdrop : (rest.drop (min (m + 1) left)).length = rest.length - (m + 1) := by
      rw [List.length_drop]; omega
    have hclean : MeetsEndClean e s.tail (rest.drop (min (m + 1) left)).length := by
      rw [hdrop]
      exact (meetsEndClean_moved hr hpos).mp h
    refine loopEnds_moved hr hleft hrest (ih _ ?_ hclean ?_ rfl)
    · omega
    · rw [hdrop, List.length_take]; omega

/-- **How the loop ends on a file that is too short**: with all that is there, if its end is
met with a clean `errno`, and otherwise with a call that fails. -/
theorem preadLoop_short (h : preadLoop (s.take n) e rest left acc neg = .ok (out, neg')) (hlt : rest.length < left) :
    (neg' = false ∧ out = acc ++ rest ∧ MeetsEndClean e s rest.length) ∨
      (neg' = true ∧ (∃ k, s.get k = .failed) ∧ ¬ MeetsEndClean e s rest.length) := by
  have hleft : 0 < left := by omega
  induction n generalizing s e rest left acc neg with
  | zero =>
    obtain ⟨left, rfl⟩ := Nat.exists_eq_succ_of_ne_zero (Nat.ne_of_gt hleft)
    rw [Stream'.take_zero, preadLoop] at h
    · cases h
    · simp
  | succ n ih =>
    cases hr : s.head with
    | moved m =>
      rw [take_succ_of_head hr] at h
      by_cases hrest : rest = []
      · subst hrest
        rw [preadLoop_end _ hleft] at h
        cases e with
        | true =>
          rw [if_pos rfl] at h
          obtain ⟨-, -, hclean, -⟩ | ⟨rfl, ⟨k, hk⟩, -⟩ := ih h hlt hleft
          · cases hclean
          · exact .inr ⟨rfl, ⟨k + 1, hk⟩, fun hc => by cases hc.1⟩
        | false =>
          rw [if_neg Bool.false_ne_true] at h
          cases h
          exact .inl ⟨rfl, (List.append_nil _).symm, meetsEndClean_zero hr⟩
      · rw [preadLoop_moved _ hleft hrest] at h
        have hpos : 0 < rest.length := List.length_pos_of_ne_nil hrest
        have hdrop : (rest.drop (min (m + 1) left)).length = rest.length - (m + 1) := by
          rw [List.length_drop]; omega
        have htake : (rest.take (min (m + 1) left)).length = min (m + 1) rest.length := by
          rw [List.length_take]; omega
        rw [meetsEndClean_moved hr hpos, ← hdrop]
        obtain ⟨hneg, hout, hclean⟩ | ⟨hneg, ⟨k, hk⟩, hclean⟩ := ih h (by omega) (by omega)
        · refine .inl ⟨hneg, ?_, hclean⟩
          rw [hout, List.append_assoc, List.take_append_drop]
        · exact .inr ⟨hneg, ⟨k + 1, hk⟩, hclean⟩
    | eintr =>
      rw [take_succ_of_head hr, preadLoop_eintr _ hleft] at h
      obtain ⟨-, -, hclean, -⟩ | ⟨hneg, ⟨k, hk⟩, -⟩ := ih h hlt hleft
      · cases hclean
      · exact .inr ⟨hneg, ⟨k + 1, hk⟩, not_meetsEndClean (by rw [hr]; rfl)⟩
    | failed =>
      rw [take_succ_of_head hr, preadLoop_failed _ hleft] at h
      cases h
      exact .inr ⟨rfl, ⟨0, hr⟩, not_meetsEndClean (by rw [hr]; rfl)⟩

/-! ### `Read` -/

/-- What the first `n` results of a schedule and `errno` on entry are to a call of `Read`. -/
def onSchedule (s : Stream' IoResult) (e : Bool) (scratch : Bytes) (n : ℕ) : Environment :=
  { writes := [], preads := s.take n, errnoEintr := e, scratch }

/-- **`Read` on a schedule does what it is there for**: it returns; if the file has all the
bytes from the address on and no call fails, `scratch` gets exactly these; and if the file
does not have them, `Read` returns `false`. -/
structure ReadsOnSchedule (crc : Bytes → UInt32) (mode : FlashcacheMode) (f : WriteableCacheFile) (file : Bytes)
    (lba : LBA) (e : Bool) (scratch : Bytes) (s : Stream' IoResult) : Prop where
  /-- The loop ends, and with it the call. -/
  ends : ∃ n r, f.read crc mode (onSchedule s e scratch n) lba = .ok r
  /-- However the reads are split, they give the bytes at the address. -/
  copies : lba.size.toNat ≤ (file.drop lba.off.toNat).length → (∀ k, s.get k ≠ .failed) → ∀ n out neg,
    preadLoop (s.take n) e (file.drop lba.off.toNat) lba.size.toNat [] true = .ok (out, neg) →
      out = (file.drop lba.off.toNat).take lba.size.toNat
  /-- Too short a file is noticed. -/
  refuses : ¬ lba.size.toNat ≤ (file.drop lba.off.toNat).length → ∀ n r,
    f.read crc mode (onSchedule s e scratch n) lba = .ok r → r = none

/-- **No harm is done**: the file holds the bytes; or its end is met with a clean `errno`,
and what is there up to the end is not accepted as a record; or its end is not met so, and a
call fails. -/
def Harmless (crc : Bytes → UInt32) (rest : Bytes) (size : ℕ) (e : Bool) (scratch : Bytes) (s : Stream' IoResult) :
    Prop :=
  size ≤ rest.length ∨
    (MeetsEndClean e s rest.length ∧
      CacheRecord.deserialize crc (rest ++ scratch.drop rest.length) rest.length = none) ∨
    (¬ MeetsEndClean e s rest.length ∧ ∃ k, s.get k = .failed)

variable {crc : Bytes → UInt32} {mode : FlashcacheMode} {f : WriteableCacheFile} {file scratch : Bytes} {lba : LBA}

/-- `Read` of a file on disk is the loop, and `Deserialize` on what it gives. -/
theorem read_ok_iff (hcl : f.closed mode = true) (hfd : f.fd = some file) {r : Option (Bytes × Bytes)} :
    f.read crc mode (onSchedule s e scratch n) lba = .ok r ↔
      ∃ out neg, preadLoop (s.take n) e (file.drop lba.off.toNat) lba.size.toNat [] true = .ok (out, neg) ∧
        (CacheRecord.deserialize crc (out ++ scratch.drop out.length) (if neg then 0 else out.length)).map
          (fun rec => (rec.key, rec.val)) = r := by
  rw [read, if_pos hcl, hfd]
  dsimp only [onSchedule]
  cases preadLoop (s.take n) e (file.drop lba.off.toNat) lba.size.toNat [] true with
  | error e => simp
  | ok p =>
    obtain ⟨out, neg⟩ := p
    refine ⟨fun h => ⟨out, neg, rfl, Except.ok.inj h⟩, fun ⟨_, _, h, hd⟩ => ?_⟩
    cases h
    rw [← hd]

/-- The call returns exactly if the loop ends. -/
theorem read_ends_iff (hcl : f.closed mode = true) (hfd : f.fd = some file) :
    (∃ n r, f.read crc mode (onSchedule s e scratch n) lba = .ok r) ↔
      LoopEnds s e (file.drop lba.off.toNat) lba.size.toNat [] true := by
  refine exists_congr fun n => ⟨fun ⟨r, hr⟩ => ?_, fun ⟨r, hr⟩ => ?_⟩
  · obtain ⟨out, neg, hl, -⟩ := (read_ok_iff hcl hfd).mp hr
    exact ⟨_, hl⟩
  · exact ⟨_, (read_ok_iff hcl hfd).mpr ⟨r.1, r.2, hr, rfl⟩⟩

/-- Nothing is read after a call that failed. -/
theorem deserialize_zero (crc : Bytes → UInt32) (data : Bytes) : CacheRecord.deserialize crc data 0 = none :=
  if_pos (Nat.succ_pos 15)

/-- If the file holds the bytes and no call fails, the loop gives them. -/
theorem preadLoop_copies (hle : left ≤ rest.length) (hs : ∀ k, s.get k ≠ .failed)
    (h : preadLoop (s.take n) e rest left acc neg = .ok (out, neg')) : out = acc ++ rest.take left := by
  induction n generalizing s e rest left acc neg with
  | zero =>
    cases left with
    | zero =>
      rw [preadLoop_zero] at h
      cases h
      simp
    | succ left =>
      rw [Stream'.take_zero, preadLoop] at h
      · cases h
      · simp
  | succ n ih =>
    obtain rfl | hleft := Nat.eq_zero_or_pos left
    · rw [preadLoop_zero] at h
      cases h
      simp
    have htail : ∀ k, s.tail.get k ≠ .failed := fun k => hs (k + 1)
    cases hr : s.head with
    | moved m =>
      have hne : rest ≠ [] := by rintro rfl; simp at hle; omega
      have hlen : (rest.take (min (m + 1) left)).length = min (m + 1) left := by rw [List.length_take]; omega
      rw [take_succ_of_head hr, preadLoop_moved _ hleft hne, hlen] at h
      have hsum : min (m + 1) left + (left - min (m + 1) left) = left := by omega
      rw [ih (by rw [List.length_drop]; omega) htail h, List.append_assoc, ← List.take_add, hsum]
    | eintr =>
      rw [take_succ_of_head hr, preadLoop_eintr _ hleft] at h
      exact ih hle htail h
    | failed => exact absurd hr (hs 0)

/-- **`Read` ends, reads what is there and notices what is not** exactly on the schedules
that do no harm. -/
theorem readsOnSchedule_iff (hcl : f.closed mode = true) (hfd : f.fd = some file)
    (hs : ∃ N, ∀ k, N ≤ k → s.get k ≠ .eintr) :
    ReadsOnSchedule crc mode f file lba e scratch s ↔
      Harmless crc (file.drop lba.off.toNat) lba.size.toNat e scratch s := by
  constructor
  · intro h
    by_cases hle : lba.size.toNat ≤ (file.drop lba.off.toNat).length
    · exact .inl hle
    obtain ⟨n, r, hr⟩ := h.ends
    obtain rfl := h.refuses hle n r hr
    obtain ⟨out, neg, hl, hd⟩ := (read_ok_iff hcl hfd).mp hr
    obtain ⟨rfl, rfl, hclean⟩ | ⟨-, hfail, hclean⟩ := preadLoop_short hl (Nat.lt_of_not_le hle)
    · exact .inr (.inl ⟨hclean, Option.map_eq_none_iff.mp hd⟩)
    · exact .inr (.inr ⟨hclean, hfail⟩)
  · intro h
    refine ⟨(read_ends_iff hcl hfd).mpr ?_, fun hle hf n out neg hl => ?_, fun hle n r hr => ?_⟩
    · by_cases hle : lba.size.toNat ≤ (file.drop lba.off.toNat).length
      · obtain ⟨N, hN⟩ := hs
        exact loopEnds_of_le hN hle
      · obtain h | ⟨hclean, -⟩ | ⟨-, k, hk⟩ := h
        · exact absurd h hle
        · exact loopEnds_of_meetsEndClean hclean (Nat.lt_of_not_le hle)
        · exact loopEnds_of_failed hk
    · simpa using preadLoop_copies hle hf hl
    · obtain ⟨out, neg, hl, rfl⟩ := (read_ok_iff hcl hfd).mp hr
      rw [Option.map_eq_none_iff]
      obtain ⟨rfl, rfl, hclean⟩ | ⟨rfl, -, hclean⟩ := preadLoop_short hl (Nat.lt_of_not_le hle)
      · obtain h | ⟨-, h⟩ | ⟨h, -⟩ := h
        · exact absurd h hle
        · exact h
        · exact absurd hclean h
      · exact deserialize_zero crc _

/-- Two bytes in the middle of a file, with a stale `EINTR` and a byte a call. -/
theorem readsOnSchedule_two : ReadsOnSchedule (fun _ => 0) .direct { fresh 0 8 8 with fd := some [1, 2, 3] } [1, 2, 3]
    ⟨0, 1, 2⟩ true [] (Stream'.const (.moved 0)) :=
  (readsOnSchedule_iff rfl rfl ⟨0, fun k _ => by rw [Stream'.get_const]; simp⟩).mpr (.inl (Nat.le_refl 2))

/-- With `EINTR` left in `errno` by an earlier call, the loop never ends at the end of an
empty file. -/
theorem not_readsOnSchedule_stale : ¬ ReadsOnSchedule (fun _ => 0) .direct (fresh 0 8 8) [] ⟨0, 0, 17⟩ true []
    (Stream'.const (.moved 0)) := by
  intro h
  obtain ⟨n, r, hr⟩ := h.ends
  obtain ⟨out, neg, hl, -⟩ := (read_ok_iff rfl (rfl : (fresh 0 8 8).fd = some [])).mp hr
  obtain ⟨-, -, hclean, -⟩ | ⟨-, ⟨k, hk⟩, -⟩ := preadLoop_short hl (Nat.succ_pos 16)
  · cases hclean
  · rw [Stream'.get_const] at hk
    cases hk

end WriteableCacheFile

end EmbeddedKv.Flash
