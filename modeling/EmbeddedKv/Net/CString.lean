import EmbeddedKv.Flash.Record
import EmbeddedKv.Library.Decimal

/-!
# Reading text in memory

`strchr` of the C library and `string2ll` of `util.c`, on the memory from a pointer on.
Reading behind the end of the memory is undefined.

`string2ll` reads the digits a text starts with (`string2ll_eq`); it stays within the
memory if a byte that is no digit, or `slen`, stops it there. The number is tested for
`ULLONG_MAX` only, so one above `LLONG_MAX` is returned as a negative number
(`string2ll_never_wrong_iff`).
-/

namespace EmbeddedKv.Net

open EmbeddedKv.Library EmbeddedKv.Flash

/-- `'\r'`. -/
abbrev cr : UInt8 := 13

/-- `'\n'`. -/
abbrev lf : UInt8 := 10

/-! ### `strchr` -/

/-- `strchr(s, ch)`: how far the first `ch` is, or `none` for `NULL`. -/
def strchr (ch : UInt8) : Bytes → Except Stop (Option ℕ)
  | [] => .error .undefined
  | b :: s =>
    if b = ch then .ok (some 0)
    else if b = 0 then .ok none
    else
      match strchr ch s with
      | .error e => .error e
      | .ok found => .ok (found.map (· + 1))

/-- `strchr` passes these bytes. -/
def Passed (ch : UInt8) (s : Bytes) : Prop := ∀ b ∈ s, b ≠ ch ∧ b ≠ 0

instance (ch : UInt8) (s : Bytes) : Decidable (Passed ch s) := List.decidableBAll (fun b => b ≠ ch ∧ b ≠ 0) s

variable {ch : UInt8} {line s : Bytes}

/-- The bytes before the one that is looked for. -/
theorem strchr_append (h : Passed ch line) (s : Bytes) : strchr ch (line ++ ch :: s) = .ok (some line.length) := by
  induction line with
  | nil => simp [strchr]
  | cons b line ih =>
    obtain ⟨⟨hne, h0⟩, hline⟩ := List.forall_mem_cons.mp h
    rw [List.cons_append, strchr, if_neg hne, if_neg h0, ih hline]
    rfl

/-- The bytes before the end of the string. -/
theorem strchr_append_zero (h : Passed ch line) (hch : ch ≠ 0) (s : Bytes) :
    strchr ch (line ++ 0 :: s) = .ok none := by
  induction line with
  | nil => simp [strchr, Ne.symm hch]
  | cons b line ih =>
    obtain ⟨⟨hne, h0⟩, hline⟩ := List.forall_mem_cons.mp h
    rw [List.cons_append, strchr, if_neg hne, if_neg h0, ih hline]
    rfl

/-- The line before the end that is found. -/
theorem eq_of_append_cons {line' rest rest' : Bytes} (h : Passed ch line) (h' : Passed ch line')
    (heq : line ++ ch :: rest = line' ++ ch :: rest') : line = line' ∧ rest = rest' := by
  have hfound := (strchr_append h rest).symm.trans ((congrArg (strchr ch) heq).trans (strchr_append h' rest'))
  obtain ⟨hline, hrest⟩ := List.append_inj heq (Option.some.inj (Except.ok.inj hfound))
  exact ⟨hline, (List.cons.inj hrest).2⟩

/-- **What `strchr` does**: it finds the byte, or a zero byte before it, or neither. -/
theorem strchr_cases (ch : UInt8) (s : Bytes) :
    (∃ line rest, s = line ++ ch :: rest ∧ Passed ch line ∧ strchr ch s = .ok (some line.length)) ∨
    (∃ line rest, s = line ++ 0 :: rest ∧ Passed ch line ∧ strchr ch s = .ok none) ∨
    (Passed ch s ∧ strchr ch s = .error .undefined) := by
  induction s with
  | nil => exact .inr (.inr ⟨fun b hb => (by cases hb), rfl⟩)
  | cons b s ih =>
    rw [strchr]
    by_cases hb : b = ch
    · exact .inl ⟨[], s, by rw [hb]; rfl, fun b hb => (by cases hb), if_pos hb⟩
    · by_cases h0 : b = 0
      · exact .inr (.inl ⟨[], s, by rw [h0]; rfl, fun b hb => (by cases hb), by rw [if_neg hb, if_pos h0]⟩)
      · have hpass : ∀ {line}, Passed ch line → Passed ch (b :: line) := fun h =>
          List.forall_mem_cons.mpr ⟨⟨hb, h0⟩, h⟩
        rw [if_neg hb, if_neg h0]
        obtain ⟨line, rest, rfl, hline, hr⟩ | ⟨line, rest, rfl, hline, hr⟩ | ⟨hs, hr⟩ := ih
        · exact .inl ⟨b :: line, rest, rfl, hpass hline, by rw [hr]; rfl⟩
        · exact .inr (.inl ⟨b :: line, rest, rfl, hpass hline, by rw [hr]; rfl⟩)
        · exact .inr (.inr ⟨hpass hs, by rw [hr]⟩)

/-! ### `string2ll` -/

/-- `ULLONG_MAX`. -/
def ullongMax : UInt64 := 18446744073709551615

/-- The loop of `string2ll`, with `n` bytes left: the number, or `none` for an overflow. -/
def string2llLoop : ℕ → Bytes → UInt64 → Except Stop (Option UInt64)
  | 0, _, v => .ok (some v)
  | _ + 1, [], _ => .error .undefined
  | n + 1, b :: p, v =>
    if IsDigit b then
      if ullongMax / 10 < v then .ok none
      else if ullongMax - (b - 48).toUInt64 < v * 10 then .ok none
      else string2llLoop n p (v * 10 + (b - 48).toUInt64)
    else .ok (some v)

/-- `string2ll(s, slen, value)`: `*value`, or `none` if it returns 0. -/
def string2ll (s : Bytes) (slen : ℕ) : Except Stop (Option Int64) :=
  match slen, s with
  | 0, _ => .ok none
  | _ + 1, [] => .error .undefined
  | n + 1, b :: p =>
    if 49 ≤ b ∧ b ≤ 57 then
      match string2llLoop n p (b - 48).toUInt64 with
      | .error e => .error e
      | .ok v => .ok (v.map UInt64.toInt64)
    else if b = 48 ∧ n = 0 then .ok (some 0)
    else .ok none

/-- The number that digits denote: they do not start with `0`, and it fits. -/
def numeral (ds : Bytes) : Option UInt64 :=
  match ds with
  | [] => none
  | b :: _ => if b ≠ 48 ∧ decimalFrom 0 ds < 2 ^ 64 then some (UInt64.ofNat (decimalFrom 0 ds)) else none

/-- One more digit that fits. -/
theorem digit_fits {v d : UInt64} (hd : d.toNat ≤ 9) (h : 10 * v.toNat + d.toNat < 2 ^ 64) :
    ¬ ullongMax / 10 < v ∧ ¬ ullongMax - d < v * 10 ∧ (v * 10 + d).toNat = 10 * v.toNat + d.toNat := by
  have hmax : ullongMax.toNat = 2 ^ 64 - 1 := rfl
  have h10 : (10 : UInt64).toNat = 10 := rfl
  have hmul : (v * 10).toNat = 10 * v.toNat := by rw [UInt64.toNat_mul, h10, Nat.mod_eq_of_lt] <;> omega
  have hsub : (ullongMax - d).toNat = 2 ^ 64 - 1 - d.toNat := by
    rw [UInt64.toNat_sub_of_le _ _ (UInt64.le_iff_toNat_le.mpr (by omega)), hmax]
  refine ⟨?_, ?_, ?_⟩
  · rw [UInt64.lt_iff_toNat_lt, UInt64.toNat_div, hmax, h10]
    omega
  · rw [UInt64.lt_iff_toNat_lt, hsub, hmul]
    omega
  · rw [UInt64.toNat_add, hmul, Nat.mod_eq_of_lt (by omega)]

/-- One more digit that does not fit is noticed. -/
theorem digit_overflows {v d : UInt64} (hd : d.toNat ≤ 9) (h : ¬ 10 * v.toNat + d.toNat < 2 ^ 64) :
    ullongMax / 10 < v ∨ ullongMax - d < v * 10 := by
  have hmax : ullongMax.toNat = 2 ^ 64 - 1 := rfl
  have h10 : (10 : UInt64).toNat = 10 := rfl
  rw [UInt64.lt_iff_toNat_lt, UInt64.lt_iff_toNat_lt, UInt64.toNat_div, hmax, h10,
    UInt64.toNat_sub_of_le _ _ (UInt64.le_iff_toNat_le.mpr (by omega)), hmax, UInt64.toNat_mul, h10]
  by_cases hdiv : (2 ^ 64 - 1) / 10 < v.toNat
  · exact .inl hdiv
  · right
    rw [Nat.mod_eq_of_lt] <;> omega

/-- **The loop** reads the digits the text starts with. -/
theorem string2llLoop_eq (n : ℕ) (p : Bytes) (v : UInt64)
    (h : (leadingDigits (p.take n)).length = n ∨ (leadingDigits (p.take n)).length < p.length) :
    string2llLoop n p v = .ok (if decimalFrom v.toNat (leadingDigits (p.take n)) < 2 ^ 64 then
      some (UInt64.ofNat (decimalFrom v.toNat (leadingDigits (p.take n)))) else none) := by
  have hend : ∀ v : UInt64, (if decimalFrom v.toNat [] < 2 ^ 64 then
      some (UInt64.ofNat (decimalFrom v.toNat [])) else none) = some v := fun v => by
    rw [decimalFrom, if_pos v.toNat_lt, UInt64.ofNat_toNat]
  induction n generalizing p v with
  | zero => exact congrArg Except.ok (hend v).symm
  | succ n ih =>
    cases p with
    | nil =>
      exfalso
      rcases h with h | h <;> simp [leadingDigits] at h
    | cons b p =>
      rw [string2llLoop, List.take_succ_cons]
      rw [List.take_succ_cons] at h
      by_cases hb : IsDigit b
      · obtain ⟨h48, h57⟩ := hb.toNat_le
        have hd : (b - 48).toUInt64.toNat = (b - 48).toNat := UInt8.toNat_toUInt64 _
        have hd9 : (b - 48).toUInt64.toNat ≤ 9 := by rw [hd, hb.toNat_sub]; omega
        rw [leadingDigits_cons_of_isDigit hb, List.length_cons, List.length_cons] at h
        rw [leadingDigits_cons_of_isDigit hb, if_pos hb, decimalFrom, ← hd]
        by_cases hfit : 10 * v.toNat + (b - 48).toUInt64.toNat < 2 ^ 64
        · obtain ⟨h₁, h₂, hnext⟩ := digit_fits hd9 hfit
          rw [if_neg h₁, if_neg h₂, ih p _ (by omega), hnext]
        · have hle := le_decimalFrom (10 * v.toNat + (b - 48).toUInt64.toNat) (leadingDigits (p.take n))
          rw [if_neg (fun hlt => hfit (Nat.lt_of_le_of_lt hle hlt) :
            ¬ decimalFrom (10 * v.toNat + (b - 48).toUInt64.toNat) (leadingDigits (p.take n)) < 2 ^ 64)]
          rcases digit_overflows hd9 hfit with h₁ | h₂
          · rw [if_pos h₁]
          · rw [if_pos h₂, ite_self]
      · rw [leadingDigits_cons_of_not hb, if_neg hb, hend]

/-- **`string2ll`** reads the digits the text starts with. -/
theorem string2ll_eq {s : Bytes} {slen : ℕ}
    (h : (leadingDigits (s.take slen)).length = slen ∨ (leadingDigits (s.take slen)).length < s.length) :
    string2ll s slen = .ok (if slen = 1 ∧ s.head? = some 48 then some 0
      else (numeral (leadingDigits (s.take slen))).map UInt64.toInt64) := by
  cases slen with
  | zero => rfl
  | succ n =>
    cases s with
    | nil =>
      exfalso
      rcases h with h | h <;> simp [leadingDigits] at h
    | cons b p =>
      rw [string2ll, List.take_succ_cons, List.head?_cons]
      rw [List.take_succ_cons] at h
      by_cases h19 : 49 ≤ b ∧ b ≤ 57
      · have hb : IsDigit b := ⟨UInt8.le_trans (by decide) h19.1, h19.2⟩
        have h48 : b ≠ 48 := by
          rintro rfl
          exact absurd h19.1 (by decide)
        have hd : (b - 48).toUInt64.toNat = (b - 48).toNat := UInt8.toNat_toUInt64 _
        rw [leadingDigits_cons_of_isDigit hb, List.length_cons, List.length_cons] at h
        have hne : ¬ (n + 1 = 1 ∧ some b = some 48) := fun hz => h48 (Option.some.inj hz.2)
        rw [if_pos h19, if_neg hne, string2llLoop_eq n p _ (by omega), leadingDigits_cons_of_isDigit hb, hd]
        simp [numeral, h48, decimalFrom]
      · rw [if_neg h19]
        by_cases hz : b = 48
        · subst hz
          rw [leadingDigits_cons_of_isDigit (by decide)]
          by_cases hn : n = 0 <;> simp [hn, numeral]
        · have hb : ¬ IsDigit b := by
            rintro ⟨hlo, hhi⟩
            refine h19 ⟨?_, hhi⟩
            have hlt := UInt8.lt_of_le_of_ne hlo (Ne.symm hz)
            rw [UInt8.lt_iff_toNat_lt] at hlt
            rw [UInt8.le_iff_toNat_le]
            exact hlt
          rw [leadingDigits_cons_of_not hb]
          simp [hz, numeral]

/-- A number is read back. -/
theorem numeral_decimal {n : ℕ} (h0 : 0 < n) (hn : n < 2 ^ 64) : numeral (decimal n) = some (UInt64.ofNat n) := by
  have hhead := head_decimal h0
  cases hd : decimal n with
  | nil => exact absurd hd (decimal_ne_nil n)
  | cons b ds =>
    rw [hd, List.head?_cons, ne_eq, Option.some.injEq] at hhead
    rw [numeral, ← hd, decimalFrom_decimal, if_pos ⟨hhead, hn⟩]

/-! ### The range of `long long` -/

/-- **`string2ll(s, slen, value)`** for `*value` before the call: whether it returns 1, and
`*value` after the call. -/
def string2llAt (s : Bytes) (slen : ℕ) (value : Int64) : Except Stop (Bool × Int64) :=
  match string2ll s slen with
  | .error e => .error e
  | .ok none => .ok (false, value)
  | .ok (some v) => .ok (true, v)

/-- The number denoted by the digits that the first `slen` bytes start with. -/
def denoted (s : Bytes) (slen : ℕ) : ℕ := decimalFrom 0 (leadingDigits (s.take slen))

/-- **No wrong number is returned**: the call returns, 1 only with the number denoted, which
is in the range of `long long`, and 0 with `*value` as it was if the number is not. -/
def NeverWrong (s : Bytes) (slen : ℕ) (value : Int64) : Prop :=
  ∃ ok v, string2llAt s slen value = .ok (ok, v) ∧ (ok = true → v.toInt = denoted s slen ∧ denoted s slen < 2 ^ 63) ∧
    (2 ^ 63 ≤ denoted s slen → ok = false ∧ v = value)

/-- The digits within `slen` bytes are read. -/
theorem string2llAt_eq {s : Bytes} {slen : ℕ} (h : slen ≤ s.length) (value : Int64) :
    string2llAt s slen value = .ok (if slen = 1 ∧ s.head? = some 48 then (true, 0)
      else match numeral (leadingDigits (s.take slen)) with
        | none => (false, value)
        | some v => (true, v.toInt64)) := by
  have hlen := length_leadingDigits_le (s.take slen)
  rw [List.length_take, Nat.min_eq_left h] at hlen
  rw [string2llAt, string2ll_eq (by omega)]
  split_ifs with hz
  · rfl
  · cases numeral (leadingDigits (s.take slen)) <;> rfl

/-- A number above `LLONG_MAX` comes out negative. -/
theorem toInt_toInt64_ofNat {n : ℕ} (hn : n < 2 ^ 64) :
    (UInt64.ofNat n).toInt64.toInt = if n < 2 ^ 63 then (n : ℤ) else (n : ℤ) - 2 ^ 64 := by
  have hsize : (Int64.size : ℤ) = 2 ^ 64 := rfl
  rw [UInt64.toInt64_ofNat', Int64.toInt_ofNat', Int.bmod, hsize]
  split_ifs <;> omega

/-- Which numbers are read. -/
theorem numeral_leadingDigits (s : Bytes) (slen : ℕ) : numeral (leadingDigits (s.take slen)) =
    if leadingDigits (s.take slen) ≠ [] ∧ s.head? ≠ some 48 ∧ denoted s slen < 2 ^ 64 then
      some (UInt64.ofNat (denoted s slen)) else none := by
  unfold denoted
  cases hds : leadingDigits (s.take slen) with
  | nil => rfl
  | cons b ds =>
    obtain ⟨t, ht⟩ : b :: ds <+: s := hds ▸ (List.takeWhile_prefix _).trans (List.take_prefix slen s)
    have hb : s.head? = some b := by
      rw [← ht]
      rfl
    rw [numeral, hb]
    simp only [ne_eq, Option.some.injEq, reduceCtorEq, not_false_eq_true, true_and]

/-- **`string2ll` never returns a wrong number** exactly if the text starts with `0`, which is
no first digit of a longer number, or its number is not one of those above `LLONG_MAX` up to
`ULLONG_MAX`: these are not noticed. -/
theorem string2ll_never_wrong_iff {s : Bytes} {slen : ℕ} (h : slen ≤ s.length) (value : Int64) :
    NeverWrong s slen value ↔ s.head? = some 48 ∨ denoted s slen < 2 ^ 63 ∨ 2 ^ 64 ≤ denoted s slen := by
  rw [NeverWrong, string2llAt_eq h, numeral_leadingDigits]
  split_ifs with hzero hread
  · -- the text is "0"
    obtain ⟨rfl, hhead⟩ := hzero
    obtain ⟨t, rfl⟩ := List.head?_eq_some_iff.mp hhead
    have hdenoted : denoted (48 :: t) 1 = 0 := rfl
    refine iff_of_true ⟨true, 0, rfl, fun _ => ?_, fun hbig => ?_⟩ (.inl hhead)
    · rw [hdenoted]
      exact ⟨rfl, by omega⟩
    · omega
  · -- the number is read
    obtain ⟨-, hhead, hlt⟩ := hread
    have hvalue := toInt_toInt64_ofNat hlt
    constructor
    · rintro ⟨ok, v, hr, hok, -⟩
      cases hr
      exact .inr (.inl (hok rfl).2)
    · rintro (h48 | hsmall | hlarge)
      · exact absurd h48 hhead
      · rw [if_pos hsmall] at hvalue
        exact ⟨true, _, rfl, fun _ => ⟨hvalue, hsmall⟩, fun hbig => by omega⟩
      · omega
  · -- the call returns 0
    refine iff_of_true ⟨false, value, rfl, fun hok => Bool.noConfusion hok, fun _ => ⟨rfl, rfl⟩⟩ ?_
    by_contra hout
    rw [not_or, not_or, Nat.not_lt, Nat.not_le] at hout
    obtain ⟨hhead, hbig, hlt⟩ := hout
    refine hread ⟨fun hnil => ?_, hhead, hlt⟩
    rw [denoted, hnil, decimalFrom] at hbig
    omega

/-- `12` in front of a line end. -/
theorem string2ll_twelve : NeverWrong [49, 50, 13, 10] 4 7 :=
  (string2ll_never_wrong_iff (by decide) 7).mpr (.inr (.inl (by decide)))

/-- `9223372036854775808`, which is 2⁶³, is returned as -2⁶³. -/
theorem string2ll_wrong :
    string2llAt [57, 50, 50, 51, 51, 55, 50, 48, 51, 54, 56, 53, 52, 55, 55, 53, 56, 48, 56] 19 0 =
      .ok (true, -9223372036854775808) ∧
    ¬ NeverWrong [57, 50, 50, 51, 51, 55, 50, 48, 51, 54, 56, 53, 52, 55, 55, 53, 56, 48, 56] 19 0 := by
  have hrun : string2llAt [57, 50, 50, 51, 51, 55, 50, 48, 51, 54, 56, 53, 52, 55, 55, 53, 56, 48, 56] 19 0 =
    .ok (true, -9223372036854775808) := rfl
  refine ⟨hrun, ?_⟩
  rintro ⟨ok, v, hr, hok, -⟩
  rw [hrun] at hr
  cases hr
  exact absurd (hok rfl).2 (by decide)

end EmbeddedKv.Net
