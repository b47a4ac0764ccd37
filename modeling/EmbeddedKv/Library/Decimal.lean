import EmbeddedKv.Library.Bytes
import Mathlib.Data.List.TakeWhile
import Mathlib.Data.Int.Init
import Mathlib.Data.Nat.Digits.Defs

/-!
# Decimal numbers

Numbers written with the digits `0` to `9` in byte strings, as `%d` prints them
(`decimal`, `signedDecimal`) and as they are read, up to the first byte that is no digit
(`leadingDigits`, `decimalFrom`, `atoi`).

What is printed is read back (`decimalFrom_decimal`, `atoi_signedDecimal`), whatever follows
it (`leadingDigits_append`), and a number that is not zero is printed without a leading zero
(`head_decimal`).
-/

namespace EmbeddedKv.Library

/-! ### Digits -/

/-- The bytes `0` to `9`. -/
def IsDigit (b : UInt8) : Prop := 48 ≤ b ∧ b ≤ 57

instance (b : UInt8) : Decidable (IsDigit b) := inferInstanceAs (Decidable (_ ∧ _))

/-- The digits that a string starts with. -/
def leadingDigits (s : Bytes) : Bytes := s.takeWhile (IsDigit ·)

theorem leadingDigits_cons_of_isDigit {b : UInt8} (h : IsDigit b) (s : Bytes) :
    leadingDigits (b :: s) = b :: leadingDigits s := List.takeWhile_cons_of_pos (by simpa using h)

theorem leadingDigits_cons_of_not {b : UInt8} (h : ¬ IsDigit b) (s : Bytes) : leadingDigits (b :: s) = [] :=
  List.takeWhile_cons_of_neg (by simpa using h)

theorem leadingDigits_eq_self {ds : Bytes} (h : ∀ b ∈ ds, IsDigit b) : leadingDigits ds = ds :=
  List.takeWhile_eq_self_iff.mpr fun d hd => by simpa using h d hd

theorem length_leadingDigits_le (s : Bytes) : (leadingDigits s).length ≤ s.length :=
  (List.takeWhile_sublist _).length_le

/-- A byte that is no digit ends them. -/
theorem leadingDigits_append (s : Bytes) {b : UInt8} (hb : ¬ IsDigit b) (t : Bytes) :
    leadingDigits (s ++ b :: t) = leadingDigits s := by
  induction s with
  | nil => exact leadingDigits_cons_of_not hb t
  | cons d s ih =>
    rw [List.cons_append]
    by_cases hd : IsDigit d
    · rw [leadingDigits_cons_of_isDigit hd, leadingDigits_cons_of_isDigit hd, ih]
    · rw [leadingDigits_cons_of_not hd, leadingDigits_cons_of_not hd]

/-! ### Values -/

theorem IsDigit.toNat_sub {b : UInt8} (h : IsDigit b) : (b - 48).toNat = b.toNat - 48 :=
  UInt8.toNat_sub_of_le _ _ h.1

theorem IsDigit.toNat_le {b : UInt8} (h : IsDigit b) : 48 ≤ b.toNat ∧ b.toNat ≤ 57 :=
  ⟨UInt8.le_iff_toNat_le.mp h.1, UInt8.le_iff_toNat_le.mp h.2⟩

/-- The number that digits continue `v` to. -/
def decimalFrom (v : ℕ) : Bytes → ℕ
  | [] => v
  | b :: ds => decimalFrom (10 * v + (b - 48).toNat) ds

/-- More digits do not make it smaller. -/
theorem le_decimalFrom (v : ℕ) (ds : Bytes) : v ≤ decimalFrom v ds := by
  induction ds generalizing v with
  | nil => rw [decimalFrom]
  | cons b ds ih =>
    rw [decimalFrom]
    exact Nat.le_trans (by omega) (ih (10 * v + (b - 48).toNat))

/-! ### Printing -/

/-- The byte of a character. -/
def charByte (ch : Char) : UInt8 := UInt8.ofNat ch.toNat

/-- **`%d`** of a number that is not negative. -/
def decimal (n : ℕ) : Bytes := (Nat.toDigits 10 n).map charByte

/-- The bytes of digits are digits. -/
theorem isDigit_charByte {ch : Char} (h : ch.isDigit) :
    IsDigit (charByte ch) ∧ (charByte ch - 48).toNat = ch.toNat - 48 := by
  simp only [Char.isDigit, Bool.and_eq_true, decide_eq_true_eq] at h
  have h₁ : 48 ≤ ch.toNat := UInt32.le_iff_toNat_le.mp h.1
  have h₂ : ch.toNat ≤ 57 := UInt32.le_iff_toNat_le.mp h.2
  have hbyte : (charByte ch).toNat = ch.toNat := by
    rw [charByte, UInt8.toNat_ofNat', Nat.mod_eq_of_lt (by omega)]
  have hdigit : IsDigit (charByte ch) :=
    ⟨UInt8.le_iff_toNat_le.mpr (by rw [hbyte]; exact h₁), UInt8.le_iff_toNat_le.mpr (by rw [hbyte]; exact h₂)⟩
  exact ⟨hdigit, by rw [hdigit.toNat_sub, hbyte]⟩

theorem isDigit_of_mem_decimal {n : ℕ} {b : UInt8} (h : b ∈ decimal n) : IsDigit b := by
  obtain ⟨ch, hch, rfl⟩ := List.mem_map.mp h
  exact (isDigit_charByte (Nat.isDigit_of_mem_toDigits (by decide) (by decide) hch)).1

@[simp] theorem decimal_ne_nil (n : ℕ) : decimal n ≠ [] := by simp [decimal]

/-- A number below a power of ten has no more digits than its exponent. -/
theorem length_decimal_le {n e : ℕ} (he : 0 < e) (hn : n < 10 ^ e) : (decimal n).length ≤ e := by
  rw [decimal, List.length_map]
  exact Nat.toDigits_length 10 n e he hn

/-- **What is printed is read back.** -/
theorem decimalFrom_decimal (n : ℕ) : decimalFrom 0 (decimal n) = n := by
  have hfold : ∀ (l : List Char) (v : ℕ), (∀ ch ∈ l, ch.isDigit) →
      decimalFrom v (l.map charByte) = Nat.ofDigitChars 10 l v := by
    intro l
    induction l with
    | nil =>
      intro v _
      rw [Nat.ofDigitChars_nil, List.map_nil, decimalFrom]
    | cons ch l ih =>
      intro v hl
      obtain ⟨hch, hl⟩ := List.forall_mem_cons.mp hl
      rw [List.map_cons, decimalFrom, Nat.ofDigitChars_cons, (isDigit_charByte hch).2]
      exact ih _ hl
  rw [decimal, hfold _ _ fun ch hch => Nat.isDigit_of_mem_toDigits (by decide) (by decide) hch,
    Nat.ofDigitChars_ten_toDigits]

/-- A number that is not zero is printed without a leading zero. -/
theorem head_decimal {n : ℕ} (hn : 0 < n) : (decimal n).head? ≠ some 48 := by
  induction n using Nat.strong_induction_on with
  | _ n ih =>
    rw [decimal, Nat.toDigits_eq_if (by decide)]
    split_ifs with hlt
    · rw [List.map_cons, List.head?_cons, ne_eq, Option.some.injEq, ← UInt8.toNat_inj,
        charByte, UInt8.toNat_ofNat', Nat.toNat_digitChar_of_lt_ten hlt, Nat.mod_eq_of_lt (by omega)]
      show ¬ 48 + n = 48
      omega
    · have hq : 0 < n / 10 := Nat.div_pos (by omega) (by decide)
      have hrec := ih (n / 10) (Nat.div_lt_self hn (by decide)) hq
      rw [List.map_append, List.head?_append]
      cases hd : (decimal (n / 10)).head? with
      | none => exact absurd (List.head?_eq_none_iff.mp hd) (decimal_ne_nil _)
      | some d =>
        rw [hd] at hrec
        rw [decimal] at hd
        rw [hd, Option.some_or]
        exact hrec

theorem leadingDigits_decimal (n : ℕ) : leadingDigits (decimal n) = decimal n :=
  leadingDigits_eq_self fun _ hd => isDigit_of_mem_decimal hd

/-- Different numbers are printed differently. -/
theorem decimal_injective : Function.Injective decimal := by
  intro n m h
  rw [← decimalFrom_decimal n, h, decimalFrom_decimal]

/-! ### Numbers with a sign -/

/-- `isspace`. -/
def IsSpace (b : UInt8) : Prop := b = 32 ∨ 9 ≤ b ∧ b ≤ 13

instance (b : UInt8) : Decidable (IsSpace b) := inferInstanceAs (Decidable (_ ∨ _))

/-- The number that a string starts with, after white space and a sign. -/
def signedValue (s : Bytes) : ℤ :=
  match s.dropWhile (IsSpace ·) with
  | [] => 0
  | b :: ds =>
    if b = 45 then -(decimalFrom 0 (leadingDigits ds) : ℤ)
    else if b = 43 then decimalFrom 0 (leadingDigits ds)
    else decimalFrom 0 (leadingDigits (b :: ds))

/-- **`strtol`** in base 10: the nearest `long`. -/
def strtol (s : Bytes) : ℤ := max (-2 ^ 63) (min (signedValue s) (2 ^ 63 - 1))

/-- **`atoi`** is `(int) strtol`. -/
def atoi (s : Bytes) : ℤ := (strtol s).bmod (2 ^ 32)

/-- **`%d`**. -/
def signedDecimal (n : ℤ) : Bytes := if n < 0 then 45 :: decimal n.natAbs else decimal n.natAbs

theorem signedDecimal_natCast (n : ℕ) : signedDecimal n = decimal n := by
  rw [signedDecimal, if_neg (Int.not_lt.mpr (Int.natCast_nonneg n)), Int.natAbs_natCast]

/-- Neither white space nor a sign is a digit. -/
theorem IsDigit.not_special {b : UInt8} (h : IsDigit b) : ¬ IsSpace b ∧ b ≠ 45 ∧ b ≠ 43 := by
  obtain ⟨hlow, -⟩ := h.toNat_le
  refine ⟨?_, ?_, ?_⟩
  · rintro (rfl | ⟨-, hle⟩)
    · simp at hlow
    · have := UInt8.le_iff_toNat_le.mp hle
      simp at this
      omega
  · rintro rfl
    simp at hlow
  · rintro rfl
    simp at hlow

/-- A sign, if there is one, and digits are printed. -/
theorem eq_or_isDigit_of_mem_signedDecimal {n : ℤ} {b : UInt8} (h : b ∈ signedDecimal n) : b = 45 ∨ IsDigit b := by
  rw [signedDecimal] at h
  split_ifs at h
  · exact (List.mem_cons.mp h).imp_right isDigit_of_mem_decimal
  · exact .inr (isDigit_of_mem_decimal h)

theorem signedDecimal_ne_nil (n : ℤ) : signedDecimal n ≠ [] := by
  rw [signedDecimal]
  split_ifs
  · exact List.cons_ne_nil _ _
  · exact decimal_ne_nil _

theorem length_signedDecimal_le {n : ℤ} {e : ℕ} (he : 0 < e) (hn : n.natAbs < 10 ^ e) :
    (signedDecimal n).length ≤ e + 1 := by
  have hlen := length_decimal_le he hn
  rw [signedDecimal]
  split_ifs
  · rw [List.length_cons]
    omega
  · omega

/-- What is printed ends where no digit follows. -/
theorem leadingDigits_decimal_append (n : ℕ) {t : Bytes} (ht : ∀ b ∈ t.head?, ¬ IsDigit b) :
    leadingDigits (decimal n ++ t) = decimal n := by
  cases t with
  | nil => rw [List.append_nil, leadingDigits_decimal]
  | cons b t => rw [leadingDigits_append _ (ht b rfl), leadingDigits_decimal]

theorem signedValue_signedDecimal (n : ℤ) {t : Bytes} (ht : ∀ b ∈ t.head?, ¬ IsDigit b) :
    signedValue (signedDecimal n ++ t) = n := by
  have hvalue : decimalFrom 0 (leadingDigits (decimal n.natAbs ++ t)) = n.natAbs := by
    rw [leadingDigits_decimal_append _ ht, decimalFrom_decimal]
  rw [signedDecimal]
  split_ifs with hneg
  · rw [List.cons_append, signedValue, List.dropWhile_cons_of_neg (by decide)]
    simp only [if_pos, hvalue]
    omega
  · obtain ⟨b, ds, hds⟩ := List.exists_cons_of_ne_nil (decimal_ne_nil n.natAbs)
    obtain ⟨hspace, hminus, hplus⟩ := (isDigit_of_mem_decimal (hds ▸ List.mem_cons_self : b ∈ _)).not_special
    rw [hds, List.cons_append] at hvalue
    rw [hds, List.cons_append, signedValue, List.dropWhile_cons_of_neg (by simpa using hspace)]
    simp only [if_neg hminus, if_neg hplus, hvalue]
    omega

/-- **What is printed is read back**, if it is an `int`. -/
theorem atoi_signedDecimal {n : ℤ} (hlow : -2 ^ 31 ≤ n) (hhigh : n < 2 ^ 31) {t : Bytes}
    (ht : ∀ b ∈ t.head?, ¬ IsDigit b) : atoi (signedDecimal n ++ t) = n := by
  rw [atoi, strtol, signedValue_signedDecimal n ht, Int.min_eq_left (by omega), Int.max_eq_right (by omega)]
  exact Int.bmod_eq_of_le (by simpa using hlow) (by simpa using hhigh)

/-- White space behind a number does not matter. -/
theorem signedValue_append_space (s : Bytes) {b : UInt8} (hb : IsSpace b) : signedValue (s ++ [b]) = signedValue s := by
  have hdigit : ¬ IsDigit b := fun h => h.not_special.1 hb
  have hlead : ∀ ds, leadingDigits (ds ++ [b]) = leadingDigits ds := fun ds => leadingDigits_append ds hdigit []
  induction s with
  | nil =>
    rw [List.nil_append, signedValue, signedValue, List.dropWhile_cons_of_pos (by simpa using hb)]
  | cons d s ih =>
    by_cases hd : IsSpace d
    · have hskip : ∀ t, signedValue (d :: t) = signedValue t := by
        intro t
        rw [signedValue, signedValue, List.dropWhile_cons_of_pos (by simpa using hd)]
      rw [List.cons_append, hskip, hskip, ih]
    · rw [List.cons_append, signedValue, signedValue, List.dropWhile_cons_of_neg (by simpa using hd),
        List.dropWhile_cons_of_neg (by simpa using hd)]
      simp only [hlead, ← List.cons_append]

theorem atoi_append_space (s : Bytes) {b : UInt8} (hb : IsSpace b) : atoi (s ++ [b]) = atoi s := by
  rw [atoi, strtol, signedValue_append_space s hb, atoi, strtol]

theorem atoi_decimal {n : ℕ} (hn : n < 2 ^ 31) : atoi (decimal n) = n := by
  have hread := atoi_signedDecimal (n := n) (by omega) (by omega) (t := []) (by simp)
  rw [signedDecimal_natCast, List.append_nil] at hread
  exact hread

end EmbeddedKv.Library
