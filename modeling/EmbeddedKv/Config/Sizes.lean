import EmbeddedKv.Config.Load
import Mathlib.Algebra.Order.BigOperators.GroupWithZero.List
import Mathlib.Data.Int.ModEq

/-!
# Configured sizes

The number of a size is multiplied by its unit, in `long` or in `int`, the product is stored
in a field that is unsigned, and the field is tested for being less than or equal to zero.

## What is proved

`sizes_taken_exactly_iff`: the server takes a size exactly, or exits, exactly for numbers
that are not negative and whose product fits the type in which it is formed. A negative
number comes out as a huge size; only zero is found by the test.
-/

namespace EmbeddedKv.Config

open EmbeddedKv.Library EmbeddedKv.Flash

variable {env : Files} {o : Overflow} {s : KvServer} {k : SizeKey} {n m p : ℤ} {ms : List ℤ} {w : ℕ}

/-! ### Products -/

/-- A signed integer of the given width. -/
def InSigned (w : ℕ) (n : ℤ) : Prop := -2 ^ (w - 1) ≤ n ∧ n < 2 ^ (w - 1)

instance (w : ℕ) (n : ℤ) : Decidable (InSigned w n) := inferInstanceAs (Decidable (_ ∧ _))

theorem signedMul_of_inSigned (h : InSigned w (n * m)) (o : Overflow) : signedMul o w n m = .ok (n * m) := if_pos h

theorem signedMul_of_not (h : ¬ InSigned w (n * m)) : signedMul .undefined w n m = .error .undefined := if_neg h

/-- A part of a product of numbers that are not zero is no larger. -/
theorem InSigned.of_mul (h : InSigned w (n * m)) (hm : 0 < m) : InSigned w n := by
  obtain ⟨hlow, hhigh⟩ := h
  have hpow : (0 : ℤ) < 2 ^ (w - 1) := by positivity
  constructor
  · by_contra hn
    have : n * m ≤ n * 1 := Int.mul_le_mul_of_nonpos_left (by omega) (by omega)
    omega
  · by_contra hn
    have : n * 1 ≤ n * m := Int.mul_le_mul_of_nonneg_left (by omega) (by omega)
    omega

/-- **Products within the range** are exact. -/
theorem signedProduct_of_inSigned (hms : ∀ m ∈ ms, 0 < m) (h : InSigned w (n * ms.prod)) (o : Overflow) :
    signedProduct o w n ms = .ok (n * ms.prod) := by
  induction ms generalizing n with
  | nil => rw [signedProduct, List.prod_nil, Int.mul_one]
  | cons m ms ih =>
    obtain ⟨-, hms⟩ := List.forall_mem_cons.mp hms
    have hpos : 0 < ms.prod := List.prod_pos hms
    rw [List.prod_cons, ← Int.mul_assoc] at h
    rw [signedProduct, signedMul_of_inSigned (h.of_mul hpos), List.prod_cons, ← Int.mul_assoc]
    exact ih hms h

/-- Outside nothing is said about them. -/
theorem signedProduct_undefined (hn : InSigned w n) (h : ¬ InSigned w (n * ms.prod)) :
    signedProduct .undefined w n ms = .error .undefined := by
  induction ms generalizing n with
  | nil =>
    rw [List.prod_nil, Int.mul_one] at h
    exact absurd hn h
  | cons m ms ih =>
    rw [List.prod_cons, ← Int.mul_assoc] at h
    rw [signedProduct]
    by_cases hm : InSigned w (n * m)
    · rw [signedMul_of_inSigned hm]
      exact ih hm h
    · rw [signedMul_of_not hm]

/-- Where they wrap around they are right modulo the width. -/
theorem signedProduct_wraps (w : ℕ) (n : ℤ) (ms : List ℤ) :
    ∃ p, signedProduct .wraps w n ms = .ok p ∧ p ≡ n * ms.prod [ZMOD 2 ^ w] := by
  induction ms generalizing n with
  | nil => exact ⟨n, rfl, by rw [List.prod_nil, Int.mul_one]⟩
  | cons m ms ih =>
    obtain ⟨q, hq, hqm⟩ : ∃ q, signedMul .wraps w n m = .ok q ∧ q ≡ n * m [ZMOD 2 ^ w] := by
      by_cases h : InSigned w (n * m)
      · exact ⟨_, signedMul_of_inSigned h _, rfl⟩
      · refine ⟨_, if_neg h, ?_⟩
        have hmod : (n * m).bmod (2 ^ w) % ((2 ^ w : ℕ) : ℤ) = n * m % ((2 ^ w : ℕ) : ℤ) := Int.bmod_emod
        push_cast at hmod
        exact hmod
    obtain ⟨p, hp, hpm⟩ := ih q
    refine ⟨p, by rw [signedProduct, hq]; exact hp, hpm.trans ?_⟩
    rw [List.prod_cons, ← Int.mul_assoc]
    exact hqm.mul_right _

/-! ### Fields -/

/-- The width of the field of a size. -/
def SizeKey.bits : SizeKey → ℕ
  | .flashcacheFileSizeKb | .flashcacheFileSizeMb => 32
  | _ => 64

/-- The unit of a size. -/
def SizeKey.unit (k : SizeKey) : ℤ := k.factors.prod

/-- What is stored is right modulo the width of the field. -/
theorem SizeKey.field_store (k : SizeKey) (p : ℤ) (s : KvServer) : (k.field (k.store p s) : ℤ) = p % 2 ^ k.bits := by
  have h64 : ((UInt64.ofInt p).toNat : ℤ) = p % 2 ^ 64 := by
    rw [UInt64.ofInt, UInt64.toNat_ofNat']
    omega
  have h32 : ((UInt32.ofInt p).toNat : ℤ) = p % 2 ^ 32 := by
    rw [UInt32.ofInt, UInt32.toNat_ofNat']
    omega
  cases k
  all_goals first | exact h64 | exact h32

/-- A size whose product is known modulo the width of the field. -/
theorem SizeKey.set_eq {arg : Bytes} (hp : signedProduct o k.width (atoi arg) k.factors = .ok p) :
    k.set o arg s = if p % 2 ^ k.bits = 0 then .error .exit else .ok (k.store p s) := by
  have hfield := k.field_store p s
  rw [set, hp]
  simp only
  split_ifs with hle hzero hzero
  · rfl
  · omega
  · omega
  · rfl

/-! ### Sizes -/

/-- **A size is taken exactly or refused**: the server exits if the number is not positive
or its product does not fit the field, and otherwise the field is the product. -/
def SizeKey.TakenExactly (k : SizeKey) (n : ℤ) (r : Except Stop KvServer) : Prop :=
  if n ≤ 0 ∨ 2 ^ k.bits ≤ n * k.unit then r = .error .exit else ∃ s', r = .ok s' ∧ (k.field s' : ℤ) = n * k.unit

/-- **The number is not negative and its product fits** the type in which it is formed.
Where that wraps around, the product may also fit the field, or be zero in it. -/
def SizeKey.Sane (o : Overflow) (k : SizeKey) (n : ℤ) : Prop :=
  (0 ≤ n ∧ n * k.unit < 2 ^ (k.width - 1)) ∨
    o = .wraps ∧ ((0 ≤ n ∧ n * k.unit < 2 ^ k.bits) ∨ 2 ^ k.bits ∣ n * k.unit)

theorem SizeKey.unit_pos (k : SizeKey) : 0 < k.unit := by cases k <;> decide

theorem SizeKey.factors_pos (k : SizeKey) : ∀ m ∈ k.factors, 0 < m := by cases k <;> decide

/-- What comes of a product that is right modulo the width of the field. -/
theorem SizeKey.takenExactly_mod {arg : Bytes} (hp : signedProduct o k.width (atoi arg) k.factors = .ok p)
    (hmod : p ≡ n * k.unit [ZMOD 2 ^ k.bits]) :
    k.TakenExactly n (k.set o arg s) ↔ (0 < n ∧ n * k.unit < 2 ^ k.bits) ∨ 2 ^ k.bits ∣ n * k.unit := by
  rw [TakenExactly, SizeKey.set_eq hp, hmod]
  split_ifs with hout hzero hzero
  · exact iff_of_true rfl (.inr (Int.dvd_of_emod_eq_zero hzero))
  · refine iff_of_false not_false ?_
    rintro (⟨hpos, hfit⟩ | hdvd)
    · rcases hout with hneg | hbig
      · omega
      · omega
    · exact hzero (Int.emod_eq_zero_of_dvd hdvd)
  · rw [not_or, Int.not_le, Int.not_le] at hout
    have hX : 0 < n * k.unit := Int.mul_pos hout.1 k.unit_pos
    rw [Int.emod_eq_of_lt (Int.le_of_lt hX) hout.2] at hzero
    omega
  · rw [not_or, Int.not_le, Int.not_le] at hout
    have hX : 0 < n * k.unit := Int.mul_pos hout.1 k.unit_pos
    refine iff_of_true ⟨_, rfl, ?_⟩ (.inl hout)
    rw [k.field_store, hmod, Int.emod_eq_of_lt (Int.le_of_lt hX) hout.2]

/-- **The value of a size** is taken exactly or refused exactly if it is sane. -/
theorem SizeKey.takenExactly_iff (hlow : -2 ^ 31 ≤ n) (hhigh : n < 2 ^ 31) {arg : Bytes} (harg : atoi arg = n) :
    k.TakenExactly n (k.set o arg s) ↔ k.Sane o n := by
  by_cases hin : InSigned k.width (n * k.unit)
  · have hp : signedProduct o k.width (atoi arg) k.factors = .ok (n * k.unit) := by
      rw [harg]
      exact signedProduct_of_inSigned k.factors_pos hin o
    rw [SizeKey.takenExactly_mod hp rfl, Sane]
    cases k
    all_goals
      simp only [InSigned, unit, factors, width, bits, List.prod_cons, List.prod_nil] at hin ⊢
      omega
  · have hn : InSigned k.width n := by
      cases k
      all_goals
        simp only [InSigned, width]
        omega
    cases o with
    | undefined =>
      rw [SizeKey.set, harg, signedProduct_undefined hn hin, TakenExactly, Sane]
      cases k
      all_goals
        simp only [InSigned, unit, factors, width, bits, List.prod_cons, List.prod_nil] at hin ⊢
        simp
        omega
    | wraps =>
      obtain ⟨p, hp, hmod⟩ := signedProduct_wraps k.width n k.factors
      have hbits : k.bits = k.width := by
        cases k
        all_goals
          simp only [InSigned, unit, factors, width, List.prod_cons, List.prod_nil] at hin
          first | rfl | omega
      rw [← hbits] at hmod
      rw [← harg] at hp
      rw [SizeKey.takenExactly_mod hp hmod, Sane, eq_self, true_and]
      clear hp hmod hbits
      cases k
      all_goals
        simp only [InSigned, unit, factors, width, bits, List.prod_cons, List.prod_nil] at hin ⊢
        omega

/-! ### The file -/

/-- A size and its number, as they are written. -/
def SizeKey.line (k : SizeKey) (n : ℤ) : Bytes := k.name ++ space :: signedDecimal n

/-- A number is written without white space and without a zero byte. -/
theorem nulFree_signedDecimal (n : ℤ) : NulFree (signedDecimal n) ∧ ∀ b ∈ signedDecimal n, ¬ IsSpace b := by
  constructor
  all_goals
    intro b hb
    rcases eq_or_isDigit_of_mem_signedDecimal hb with rfl | hdigit
  · decide
  · have := hdigit.toNat_le
    rintro rfl
    simp at this
  · decide
  · exact hdigit.not_special.1

theorem SizeKey.name_plain (k : SizeKey) : (newline ∉ k.name ∧ space ∉ k.name ∧ NulFree k.name) ∧
    (∀ b ∈ k.name.head?, b ≠ hash ∧ b ≠ newline) ∧ k.name.length ≤ 29 ∧ k.name ≠ [] := by
  refine ⟨by cases k <;> decide, fun b hb => ?_, by cases k <;> decide, (name_word (.size k)).2⟩
  cases k
  all_goals
    cases hb
    decide

/-- The line has room in the buffer. -/
theorem SizeKey.line_fits (hlow : -2 ^ 31 ≤ n) (hhigh : n < 2 ^ 31) :
    newline ∉ k.line n ∧ (k.line n).length < 1023 := by
  obtain ⟨⟨hnewline, -, -⟩, -, hname, -⟩ := k.name_plain
  have hdigits : (signedDecimal n).length ≤ 11 := length_signedDecimal_le (by omega) (by omega)
  constructor
  · rw [line, List.mem_append, List.mem_cons, not_or, not_or]
    exact ⟨hnewline, newline_plain.2.1, fun h => (nulFree_signedDecimal n).2 _ h newline_plain.1⟩
  · rw [line, List.length_append, List.length_cons]
    omega

/-- The newline is read with the number. -/
theorem SizeKey.configLine_line {nl : Bytes} (hnl : nl = [] ∨ nl = [newline]) :
    configLine env o (k.line n ++ nl) s = k.set o (signedDecimal n ++ nl) s := by
  obtain ⟨⟨-, hspace, hnul⟩, hfirst, -, hname⟩ := k.name_plain
  obtain ⟨hnum, hnumspace⟩ := nulFree_signedDecimal n
  have hend : space ∉ nl ∧ NulFree nl := by
    rcases hnl with rfl | rfl
    · exact ⟨List.not_mem_nil, List.forall_mem_nil _⟩
    · exact ⟨fun h => newline_plain.2.1 (List.mem_singleton.mp h).symm, newline_plain.2.2⟩
  have harg : space ∉ signedDecimal n ++ nl ∧ NulFree (signedDecimal n ++ nl) := by
    refine ⟨?_, hnum.append hend.2⟩
    rw [List.mem_append, not_or]
    exact ⟨fun h => hnumspace _ h (.inl rfl), hend.1⟩
  rw [line, List.append_assoc, List.cons_append]
  exact configLine_pair (ofWord_name (.size k)) ⟨hspace, hnul⟩ hfirst hname harg
    (List.append_ne_nil_of_left_ne_nil (signedDecimal_ne_nil n) nl) s

/-- **A configured size is taken exactly or refused** exactly if its number is not negative
and fits: behind whatever lines the server has taken, with or without a newline. -/
theorem sizes_taken_exactly_iff {before : List Bytes} {s₀ : KvServer}
    (hbefore : ∀ l ∈ before, newline ∉ l ∧ l.length < 1023)
    (hrun : loadServerConfig env o (some (before.flatMap (· ++ [newline]))) s₀ = .ok s)
    (hlow : -2 ^ 31 ≤ n) (hhigh : n < 2 ^ 31) {nl : Bytes} (hnl : nl = [] ∨ nl = [newline]) :
    k.TakenExactly n (loadServerConfig env o (some (before.flatMap (· ++ [newline]) ++ (k.line n ++ nl))) s₀) ↔
      k.Sane o n := by
  obtain ⟨hline, hlen⟩ := k.line_fits hlow hhigh
  have hload : loadServerConfig env o (some (k.line n ++ nl)) s = configLine env o (k.line n ++ nl) s := by
    rcases hnl with rfl | rfl
    · rw [List.append_nil]
      exact (loadServerConfig_line hline hlen s).1
    · exact (loadServerConfig_line hline hlen s).2
  have hnum : atoi (signedDecimal n ++ nl) = n := by
    refine atoi_signedDecimal hlow hhigh fun b hb => ?_
    rcases hnl with rfl | rfl
    · cases hb
    · cases hb
      decide
  rw [loadServerConfig_append hbefore, hrun]
  simp only
  rw [hload, SizeKey.configLine_line hnl]
  exact SizeKey.takenExactly_iff hlow hhigh hnum

/-- Behind a comment, 64 megabytes are 2²⁶ bytes. -/
theorem memcacheSizeMb_taken : SizeKey.memcacheSizeMb.TakenExactly 64 (loadServerConfig ⟨fun _ _ => true, fun _ p => some p⟩
    .undefined (some ([ascii "# sizes"].flatMap (· ++ [newline]) ++ (SizeKey.memcacheSizeMb.line 64 ++ [newline]))) {}) :=
  (sizes_taken_exactly_iff (by decide) rfl (by decide) (by decide) (.inr rfl)).mpr (.inl (by decide))

/-- `memcache-size-mb -1` is taken for 2⁶⁴ – 2²⁰ bytes, and the server does not exit. -/
theorem negative_size_taken : ∃ s, loadServerConfig ⟨fun _ _ => true, fun _ p => some p⟩ .undefined
    (some (ascii "memcache-size-mb -1\n")) {} = .ok s ∧ s.maxmemory.toNat = 2 ^ 64 - 2 ^ 20 ∧
    ¬ SizeKey.memcacheSizeMb.TakenExactly (-1) (.ok s) := by
  refine ⟨{ maxmemory := 18446744073708503040 }, rfl, rfl, fun h => ?_⟩
  rw [SizeKey.TakenExactly, if_pos (.inl (by decide))] at h
  cases h

end EmbeddedKv.Config
