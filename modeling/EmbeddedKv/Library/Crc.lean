import EmbeddedKv.Library.Bytes
import Mathlib.Logic.Function.Iterate

/-!
# Cyclic redundancy checks

A reflected cyclic redundancy check of any width: a register that is shifted towards its lowest
bit, and to which the polynomial is added whenever a bit falls out. A byte is added to the
register, which is then shifted eight times.

Shifts add up (`steps_xor`), and lose nothing if the polynomial has its highest bit
(`steps_injective`). So the bytes of a word are added as if they were added at once
(`register_eq`), and strings that differ in a window of the width of the register have
different checks (`register_burst`). `crc32_detectsBursts` is that for the 32-bit check.
-/

namespace EmbeddedKv.Library

namespace Crc

variable {w : ℕ} {poly : BitVec w}

/-! ### Shifts -/

/-- One shift of the register. -/
def step (poly c : BitVec w) : BitVec w := (c >>> 1) ^^^ bif c.getLsbD 0 then poly else 0#w

/-- Several shifts. -/
def steps (poly : BitVec w) (n : ℕ) : BitVec w → BitVec w := (step poly)^[n]

theorem step_xor (a b : BitVec w) : step poly (a ^^^ b) = step poly a ^^^ step poly b := by
  apply BitVec.eq_of_getLsbD_eq
  intro i _
  simp only [step, BitVec.getLsbD_xor, BitVec.getLsbD_ushiftRight]
  cases a.getLsbD 0 <;> cases b.getLsbD 0 <;> cases a.getLsbD (1 + i) <;> cases b.getLsbD (1 + i) <;> simp

/-- **Shifts add up.** -/
theorem steps_xor (n : ℕ) (a b : BitVec w) : steps poly n (a ^^^ b) = steps poly n a ^^^ steps poly n b := by
  induction n generalizing a b with
  | zero => rfl
  | succ n ih =>
    rw [steps, Function.iterate_succ_apply, Function.iterate_succ_apply, Function.iterate_succ_apply, step_xor]
    exact ih _ _

/-- The highest bit after a shift is the one that fell out. -/
theorem getLsbD_step_last (hpoly : poly.getLsbD (w - 1) = true) (c : BitVec w) :
    (step poly c).getLsbD (w - 1) = c.getLsbD 0 := by
  have hout : c.getLsbD (1 + (w - 1)) = false := BitVec.getLsbD_of_ge c _ (by omega)
  rw [step, BitVec.getLsbD_xor, BitVec.getLsbD_ushiftRight, hout, Bool.false_xor]
  cases c.getLsbD 0 <;> simp [hpoly]

theorem step_injective (hpoly : poly.getLsbD (w - 1) = true) : Function.Injective (step poly) := by
  intro a b hab
  have hlow : a.getLsbD 0 = b.getLsbD 0 := by
    rw [← getLsbD_step_last hpoly a, ← getLsbD_step_last hpoly b, hab]
  have hhigh : a >>> 1 = b >>> 1 := by
    unfold step at hab
    rw [hlow] at hab
    exact (BitVec.xor_left_inj _).mp hab
  apply BitVec.eq_of_getLsbD_eq
  intro i _
  cases i with
  | zero => exact hlow
  | succ i =>
    have hbit : (a >>> 1).getLsbD i = (b >>> 1).getLsbD i := by rw [hhigh]
    rwa [BitVec.getLsbD_ushiftRight, BitVec.getLsbD_ushiftRight, Nat.add_comm] at hbit

/-- **Shifts lose nothing**, if the polynomial has its highest bit. -/
theorem steps_injective (hpoly : poly.getLsbD (w - 1) = true) (n : ℕ) : Function.Injective (steps poly n) :=
  (step_injective hpoly).iterate n

/-- A shift undoes one the other way. -/
theorem step_shiftLeft {x : BitVec w} (hx : x.getLsbD (w - 1) = false) : step poly (x <<< 1) = x := by
  apply BitVec.eq_of_getLsbD_eq
  intro i hi
  have hlow : (x <<< 1).getLsbD 0 = false := by simp
  rw [step, hlow, BitVec.getLsbD_xor, BitVec.getLsbD_ushiftRight, BitVec.getLsbD_shiftLeft]
  by_cases hlast : i = w - 1
  · simp [hlast, hx]
  · have hin : 1 + i < w := by omega
    simp [hin]

/-- Several shifts undo as many the other way. -/
theorem steps_shiftLeft (n : ℕ) {x : BitVec w} (hx : ∀ i, w - n ≤ i → x.getLsbD i = false) :
    steps poly n (x <<< n) = x := by
  induction n generalizing x with
  | zero => simp [steps]
  | succ n ih =>
    have hback : step poly ((x <<< n) <<< 1) = x <<< n := by
      apply step_shiftLeft
      rw [BitVec.getLsbD_shiftLeft, hx (w - 1 - n) (by omega)]
      simp
    rw [steps, Function.iterate_succ_apply, BitVec.shiftLeft_add, hback]
    exact ih fun i hi => hx i (by omega)

/-! ### Bytes -/

/-- A byte as a word. -/
def ofByte (w : ℕ) (b : UInt8) : BitVec w := b.toBitVec.setWidth w

/-- A byte is added. -/
def addByte (poly c : BitVec w) (b : UInt8) : BitVec w := steps poly 8 (c ^^^ ofByte w b)

/-- **The register** after some bytes. -/
def register (poly : BitVec w) (c : BitVec w) (bs : Bytes) : BitVec w := bs.foldl (addByte poly) c

/-- Bytes as a word, the first one lowest. -/
def word (w : ℕ) : Bytes → BitVec w
  | [] => 0#w
  | b :: bs => ofByte w b ^^^ (word w bs <<< 8)

theorem register_append (c : BitVec w) (bs cs : Bytes) :
    register poly c (bs ++ cs) = register poly (register poly c bs) cs := List.foldl_append

/-- A word has as many bits as its bytes. -/
theorem getLsbD_word (bs : Bytes) {i : ℕ} (hi : 8 * bs.length ≤ i) : (word w bs).getLsbD i = false := by
  induction bs generalizing i with
  | nil => simp [word]
  | cons b bs ih =>
    rw [List.length_cons] at hi
    have hbyte : (ofByte w b).getLsbD i = false := by
      rw [ofByte, BitVec.getLsbD_setWidth, BitVec.getLsbD_of_ge b.toBitVec i (by omega), Bool.and_false]
    rw [word, BitVec.getLsbD_xor, hbyte, BitVec.getLsbD_shiftLeft, ih (by omega)]
    simp

/-- **Bytes are added as if at once**, as many as the register holds. -/
theorem register_eq (c : BitVec w) (bs : Bytes) (hw : 8 * bs.length ≤ w) :
    register poly c bs = steps poly (8 * bs.length) (c ^^^ word w bs) := by
  induction bs generalizing c with
  | nil => simp [register, steps, word]
  | cons b bs ih =>
    rw [List.length_cons] at hw
    have hshift : steps poly 8 (word w bs <<< 8) = word w bs := by
      apply steps_shiftLeft
      intro i hi
      exact getLsbD_word bs (by omega)
    calc register poly c (b :: bs)
        = register poly (addByte poly c b) bs := rfl
      _ = steps poly (8 * bs.length) (steps poly 8 (c ^^^ ofByte w b) ^^^ steps poly 8 (word w bs <<< 8)) := by
          rw [ih _ (by omega), hshift, addByte]
      _ = steps poly (8 * bs.length) (steps poly 8 (c ^^^ word w (b :: bs))) := by
          rw [← steps_xor, BitVec.xor_assoc, word]
      _ = steps poly (8 * (b :: bs).length) (c ^^^ word w (b :: bs)) := by
          rw [List.length_cons, Nat.mul_succ, steps, steps, steps, Function.iterate_add_apply]

/-- Words of different bytes are different. -/
theorem word_injective {bs cs : Bytes} (hlen : bs.length = cs.length) (hw : 8 * bs.length ≤ w)
    (h : word w bs = word w cs) : bs = cs := by
  induction bs generalizing cs with
  | nil => exact (List.length_eq_zero_iff.mp hlen.symm).symm
  | cons b bs ih =>
    cases cs with
    | nil => simp at hlen
    | cons c cs =>
      rw [List.length_cons] at hw
      have hbits : ∀ i, ((ofByte w b).getLsbD i ^^ (word w bs <<< 8).getLsbD i) =
          ((ofByte w c).getLsbD i ^^ (word w cs <<< 8).getLsbD i) := by
        intro i
        rw [← BitVec.getLsbD_xor, ← BitVec.getLsbD_xor]
        exact congrArg (fun x => x.getLsbD i) h
      have hbyte : b = c := by
        apply UInt8.toBitVec_inj.mp
        apply BitVec.eq_of_getLsbD_eq
        intro i hi
        have hbit := hbits i
        have hin : i < w := by omega
        simpa [ofByte, hi, hin] using hbit
      have hrest : word w bs = word w cs := by
        apply BitVec.eq_of_getLsbD_eq
        intro i hi
        by_cases hin : i + 8 < w
        · have hbit := hbits (i + 8)
          simpa only [ofByte, BitVec.getLsbD_setWidth, BitVec.getLsbD_of_ge _ (i + 8) (Nat.le_add_left 8 i), Bool.and_false,
            Bool.false_xor, BitVec.getLsbD_shiftLeft, hin, decide_true, Bool.true_and, Nat.not_lt.mpr (Nat.le_add_left 8 i),
            decide_false, Bool.not_false, Nat.add_sub_cancel] using hbit
        · rw [getLsbD_word bs (by omega), getLsbD_word cs (by simp at hlen; omega)]
      rw [hbyte, ih (by simpa using hlen) (by omega) hrest]

theorem addByte_injective (hpoly : poly.getLsbD (w - 1) = true) (b : UInt8) :
    Function.Injective fun c => addByte poly c b := fun _ _ h =>
  (BitVec.xor_left_inj _).mp (steps_injective hpoly 8 h)

/-- What comes behind does not make up for a difference. -/
theorem register_injective (hpoly : poly.getLsbD (w - 1) = true) (bs : Bytes) :
    Function.Injective fun c => register poly c bs := by
  induction bs with
  | nil => exact fun _ _ h => h
  | cons b bs ih => exact fun _ _ h => addByte_injective hpoly b (ih h)

/-- **Strings that differ in a window** of the width of the register have different checks. -/
theorem register_burst (hpoly : poly.getLsbD (w - 1) = true) {x y : Bytes} (hlen : x.length = y.length)
    (hw : 8 * x.length ≤ w) (c : BitVec w) (before after : Bytes)
    (h : register poly c (before ++ x ++ after) = register poly c (before ++ y ++ after)) : x = y := by
  rw [register_append, register_append, register_append, register_append] at h
  have hmid := register_injective hpoly after h
  rw [register_eq _ x hw, register_eq _ y (hlen ▸ hw), ← hlen] at hmid
  exact word_injective hlen hw ((BitVec.xor_right_inj _).mp (steps_injective hpoly _ hmid))

end Crc

/-! ### Bursts -/

/-- **A burst**: two strings of one length that differ in a window of `n` bytes only. -/
def Burst (n : ℕ) (bs cs : Bytes) : Prop :=
  bs.length = cs.length ∧ ∃ i, ∀ j, j < i ∨ i + n ≤ j → bs[j]? = cs[j]?

theorem Burst.drop {n : ℕ} {bs cs : Bytes} (h : Burst n bs cs) (k : ℕ) : Burst n (bs.drop k) (cs.drop k) := by
  obtain ⟨hlen, i, hi⟩ := h
  refine ⟨by rw [List.length_drop, List.length_drop, hlen], i - k, fun j hj => ?_⟩
  rw [List.getElem?_drop, List.getElem?_drop]
  exact hi _ (by omega)

theorem Burst.take {n : ℕ} {bs cs : Bytes} (h : Burst n bs cs) (k : ℕ) : Burst n (bs.take k) (cs.take k) := by
  obtain ⟨hlen, i, hi⟩ := h
  refine ⟨by rw [List.length_take, List.length_take, hlen], i, fun j hj => ?_⟩
  rw [List.getElem?_take, List.getElem?_take, hi j hj]

theorem Burst.append_left {n : ℕ} {bs cs : Bytes} (h : Burst n bs cs) (before : Bytes) :
    Burst n (before ++ bs) (before ++ cs) := by
  obtain ⟨hlen, i, hi⟩ := h
  refine ⟨by rw [List.length_append, List.length_append, hlen], before.length + i, fun j hj => ?_⟩
  rcases Nat.lt_or_ge j before.length with hlt | hge
  · rw [List.getElem?_append_left hlt, List.getElem?_append_left hlt]
  · rw [List.getElem?_append_right hge, List.getElem?_append_right hge]
    exact hi _ (by omega)

/-- A difference at the beginning leaves what is further back alone. -/
theorem Burst.take_or_drop {n : ℕ} {bs cs : Bytes} (h : Burst n bs cs) (k : ℕ) :
    bs.take k = cs.take k ∨ bs.drop (k + n) = cs.drop (k + n) := by
  obtain ⟨-, i, hi⟩ := h
  rcases Nat.le_total k i with hk | hk
  · refine .inl (List.ext_getElem? fun j => ?_)
    rw [List.getElem?_take, List.getElem?_take]
    split_ifs with hj
    · exact hi j (.inl (Nat.lt_of_lt_of_le hj hk))
    · rfl
  · refine .inr (List.ext_getElem? fun j => ?_)
    rw [List.getElem?_drop, List.getElem?_drop]
    exact hi _ (.inr (by omega))

/-- What is the same before and behind the window. -/
theorem Burst.split {n : ℕ} {bs cs : Bytes} (h : Burst n bs cs) : ∃ before x y after, bs = before ++ x ++ after ∧
    cs = before ++ y ++ after ∧ x.length = y.length ∧ x.length ≤ n := by
  obtain ⟨hlen, i, hi⟩ := h
  have hbefore : bs.take i = cs.take i := by
    apply List.ext_getElem?
    intro j
    rw [List.getElem?_take, List.getElem?_take]
    split_ifs with hj
    · exact hi j (.inl hj)
    · rfl
  have hafter : bs.drop (i + n) = cs.drop (i + n) := by
    apply List.ext_getElem?
    intro j
    rw [List.getElem?_drop, List.getElem?_drop]
    exact hi _ (.inr (Nat.le_add_right _ _))
  have whole : ∀ ds : Bytes, ds = ds.take i ++ (ds.drop i).take n ++ ds.drop (i + n) := by
    intro ds
    rw [← List.drop_drop, List.append_assoc, List.take_append_drop, List.take_append_drop]
  refine ⟨bs.take i, (bs.drop i).take n, (cs.drop i).take n, bs.drop (i + n), whole bs, ?_, ?_, List.length_take_le _ _⟩
  · rw [hbefore, hafter]
    exact whole cs
  · rw [List.length_take, List.length_take, List.length_drop, List.length_drop, hlen]

/-- The check detects bursts of `n` bytes. -/
def DetectsBursts (n : ℕ) (check : Bytes → UInt32) : Prop := ∀ bs cs, Burst n bs cs → check bs = check cs → bs = cs

/-- **The 32-bit check** with the polynomial `0x04C11DB7`, reflected, whose register is all ones at
the beginning and is inverted at the end. -/
def crc32 (bs : Bytes) : UInt32 := .ofBitVec (Crc.register 0xEDB88320#32 0xFFFFFFFF#32 bs ^^^ 0xFFFFFFFF#32)

theorem crc32_detectsBursts : DetectsBursts 4 crc32 := by
  intro bs cs hburst h
  obtain ⟨before, x, y, after, rfl, rfl, hlen, hn⟩ := hburst.split
  have hreg := (BitVec.xor_left_inj _).mp (UInt32.ofBitVec.inj h)
  rw [Crc.register_burst (by decide) hlen (by omega) _ before after hreg]

/-- The check value of the standard. -/
example : crc32 [49, 50, 51, 52, 53, 54, 55, 56, 57] = 0xCBF43926 := by decide +kernel

end EmbeddedKv.Library
