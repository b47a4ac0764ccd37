import Mathlib.Data.List.Basic
import Mathlib.Data.List.TakeWhile
import Mathlib.Algebra.Order.Ring.Nat
import Mathlib.Tactic.Ring

/-!
# Byte strings

Little-endian words and NUL-terminated strings over lists of bytes.

A number is laid out in `k` bytes, least significant first (`toLittle`), and read
back from any number of bytes (`ofLittle`). A NUL-terminated string is what stands
before the first zero byte of a memory region (`cstr`); a string without a zero
byte (`NulFree`) is read back whole, whatever follows it, which is what makes the
two conventions agree. Of bytes that are written over in part (`splice`) the number is
at most the sum of the two.
-/

namespace EmbeddedKv.Library

/-- A string of bytes. -/
abbrev Bytes := List UInt8

/-! ### Little-endian words -/

/-- The `k` low bytes of `n`, least significant first. -/
def toLittle : ℕ → ℕ → Bytes
  | 0, _ => []
  | k + 1, n => UInt8.ofNat n :: toLittle k (n / 256)

/-- The number whose bytes, least significant first, are given. -/
def ofLittle : Bytes → ℕ
  | [] => 0
  | b :: bs => b.toNat + 256 * ofLittle bs

@[simp] theorem length_toLittle (k n : ℕ) : (toLittle k n).length = k := by
  induction k generalizing n with
  | zero => rfl
  | succ k ih => simp [toLittle, ih]

/-- Reading back `k` bytes gives the number modulo `256 ^ k`. -/
theorem ofLittle_toLittle (k n : ℕ) : ofLittle (toLittle k n) = n % 256 ^ k := by
  induction k generalizing n with
  | zero => simp [toLittle, ofLittle, Nat.mod_one]
  | succ k ih =>
    have hb : (UInt8.ofNat n).toNat = n % 256 := by simp
    rw [toLittle, ofLittle, ih, hb, pow_succ', Nat.mod_mul]

/-- A word of four bytes. -/
def le32 (w : UInt32) : Bytes := toLittle 4 w.toNat

/-- The word the first four bytes hold. -/
def ofLe32 (bs : Bytes) : UInt32 := UInt32.ofNat (ofLittle (bs.take 4))

@[simp] theorem length_le32 (w : UInt32) : (le32 w).length = 4 := length_toLittle 4 _

/-- A word is read back, whatever follows it. -/
@[simp] theorem ofLe32_le32_append (w : UInt32) (bs : Bytes) : ofLe32 (le32 w ++ bs) = w := by
  have hw : w.toNat < 2 ^ 32 := w.toNat_lt
  have ht : (le32 w ++ bs).take 4 = le32 w := by
    rw [List.take_append_of_le_length (by simp)]
    exact List.take_of_length_le (by simp)
  rw [ofLe32, ht, le32, ofLittle_toLittle, Nat.mod_eq_of_lt (by omega)]
  exact UInt32.ofNat_toNat

/-- Bytes are the word they hold. -/
theorem toLittle_ofLittle (bs : Bytes) : toLittle bs.length (ofLittle bs) = bs := by
  induction bs with
  | nil => rfl
  | cons b bs ih =>
    have hb := b.toNat_lt
    have hlow : UInt8.ofNat (b.toNat + 256 * ofLittle bs) = b := by
      rw [UInt8.ofNat_add, UInt8.ofNat_mul, UInt8.ofNat_toNat]
      show b + 0 * _ = b
      simp
    have hhigh : (b.toNat + 256 * ofLittle bs) / 256 = ofLittle bs := by omega
    rw [ofLittle, List.length_cons, toLittle, hlow, hhigh, ih]

theorem ofLittle_lt (bs : Bytes) : ofLittle bs < 256 ^ bs.length := by
  induction bs with
  | nil => exact Nat.one_pos
  | cons b bs ih =>
    have hb := b.toNat_lt
    rw [ofLittle, List.length_cons, pow_succ]
    omega

theorem ofLittle_append (as bs : Bytes) : ofLittle (as ++ bs) = ofLittle as + 256 ^ as.length * ofLittle bs := by
  induction as with
  | nil => simp [ofLittle]
  | cons a as ih =>
    rw [List.cons_append, ofLittle, ofLittle, ih, List.length_cons, pow_succ]
    ring

/-- Different bytes are different numbers. -/
theorem ofLittle_injective {as bs : Bytes} (hlen : as.length = bs.length) (h : ofLittle as = ofLittle bs) : as = bs := by
  rw [← toLittle_ofLittle as, ← toLittle_ofLittle bs, hlen, h]

/-- Four bytes are the word they hold. -/
theorem le32_ofLe32 {bs : Bytes} (h : 4 ≤ bs.length) : le32 (ofLe32 bs) = bs.take 4 := by
  have hlen : (bs.take 4).length = 4 := by rw [List.length_take, Nat.min_eq_left h]
  have hlt := ofLittle_lt (bs.take 4)
  rw [hlen] at hlt
  rw [ofLe32, le32, UInt32.toNat_ofNat', Nat.mod_eq_of_lt (by omega)]
  calc toLittle 4 (ofLittle (bs.take 4)) = toLittle (bs.take 4).length (ofLittle (bs.take 4)) := by rw [hlen]
    _ = bs.take 4 := toLittle_ofLittle _

/-! ### Bytes that are written over -/

/-- The first `j` bytes are written over the others. -/
def splice (j : ℕ) (new old : Bytes) : Bytes := new.take j ++ old.drop j

theorem drop_splice {new old : Bytes} {j : ℕ} (hlen : new.length = old.length) (n : ℕ) :
    (splice j new old).drop n = splice (j - n) (new.drop n) (old.drop n) := by
  rw [splice, splice, List.drop_append, List.drop_take, List.length_take, List.drop_drop, List.drop_drop]
  rcases Nat.le_total j new.length with hj | hj
  · rw [Nat.min_eq_left hj]
    congr 2
    omega
  · have hnil : ∀ k, new.length ≤ k → old.drop k = [] := fun k hk => List.drop_eq_nil_of_le (by omega)
    rw [hnil _ (by omega), hnil _ (by omega)]

theorem take_splice {new old : Bytes} {j : ℕ} (hlen : new.length = old.length) (n : ℕ) :
    (splice j new old).take n = splice j (new.take n) (old.take n) := by
  rw [splice, splice, List.take_append, List.take_take, List.take_take, Nat.min_comm, List.length_take, List.drop_take]
  rcases Nat.le_total j new.length with hj | hj
  · rw [Nat.min_eq_left hj]
  · rw [List.drop_eq_nil_of_le (hlen ▸ hj), List.take_nil, List.take_nil]

/-- **A number of which some bytes are written over** is at most the sum of the two. -/
theorem ofLittle_splice_le {new old : Bytes} (hlen : new.length = old.length) (j : ℕ) :
    ofLittle (splice j new old) ≤ ofLittle new + ofLittle old := by
  induction new generalizing old j with
  | nil =>
    obtain rfl : old = [] := List.eq_nil_of_length_eq_zero hlen.symm
    simp [splice, ofLittle]
  | cons b new ih =>
    cases old with
    | nil => cases hlen
    | cons b' old =>
      cases j with
      | zero => exact Nat.le_add_left _ _
      | succ j =>
        have hrest := ih (Nat.succ.inj hlen) j
        show b.toNat + 256 * ofLittle (splice j new old) ≤ b.toNat + 256 * ofLittle new + (b'.toNat + 256 * ofLittle old)
        omega

theorem toNat_ofLe32 (bs : Bytes) : (ofLe32 bs).toNat = ofLittle (bs.take 4) := by
  have hlt := ofLittle_lt (bs.take 4)
  have hlen : (bs.take 4).length ≤ 4 := List.length_take_le _ _
  have hpow : 256 ^ (bs.take 4).length ≤ 256 ^ 4 := Nat.pow_le_pow_right (by omega) hlen
  rw [ofLe32, UInt32.toNat_ofNat', Nat.mod_eq_of_lt (by omega)]

/-- The same of a word in memory. -/
theorem toNat_ofLe32_splice_le {new old : Bytes} (hlen : new.length = old.length) (j n : ℕ) :
    (ofLe32 ((splice j new old).drop n)).toNat ≤ (ofLe32 (new.drop n)).toNat + (ofLe32 (old.drop n)).toNat := by
  have hdrop : (new.drop n).length = (old.drop n).length := by rw [List.length_drop, List.length_drop, hlen]
  rw [toNat_ofLe32, toNat_ofLe32, toNat_ofLe32, drop_splice hlen, take_splice hdrop]
  exact ofLittle_splice_le (by rw [List.length_take, List.length_take, hdrop]) _

/-! ### NUL-terminated strings -/

/-- No byte is zero. -/
def NulFree (s : Bytes) : Prop := ∀ b ∈ s, b ≠ 0

instance (s : Bytes) : Decidable (NulFree s) := List.decidableBAll (· ≠ 0) s

/-- The NUL-terminated string that starts a memory region. -/
def cstr (mem : Bytes) : Bytes := mem.takeWhile (· ≠ 0)

/-- A string without a zero byte is read in full, and the reading goes on after it. -/
theorem cstr_append {s : Bytes} (h : NulFree s) (mem : Bytes) : cstr (s ++ mem) = s ++ cstr mem := by
  rw [cstr, List.takeWhile_append_of_pos (fun b hb => by simpa using h b hb)]
  rfl

/-- Bytes of which none is zero are a string. -/
theorem cstr_eq_self {s : Bytes} (h : NulFree s) : cstr s = s := by
  have hs : cstr (s ++ []) = s ++ cstr [] := cstr_append h []
  rwa [List.append_nil, show cstr [] = [] from rfl, List.append_nil] at hs

theorem NulFree.append {s t : Bytes} (hs : NulFree s) (ht : NulFree t) : NulFree (s ++ t) :=
  List.forall_mem_append.mpr ⟨hs, ht⟩

theorem NulFree.drop {s : Bytes} (hs : NulFree s) (n : ℕ) : NulFree (s.drop n) := fun b hb =>
  hs b (List.mem_of_mem_drop hb)

/-- What is read as a string has no zero byte. -/
theorem nulFree_cstr (mem : Bytes) : NulFree (cstr mem) := by
  intro b hb
  simpa using List.mem_takeWhile_imp hb

/-- A terminated string without a zero byte is read back. -/
@[simp] theorem cstr_terminated {s : Bytes} (h : NulFree s) : cstr (s ++ [0]) = s := by
  rw [cstr_append h]
  simp [cstr]

/-- The first `s.length` characters of the string starting with `s` are `s`. -/
theorem take_cstr_append {s : Bytes} (h : NulFree s) (mem : Bytes) :
    (cstr (s ++ mem)).take s.length = s := by
  rw [cstr_append h, List.take_left]

/-- The same within a string. -/
theorem take_cstr_of_le {s : Bytes} (h : NulFree s) {n : ℕ} (hn : n ≤ s.length) (mem : Bytes) :
    (cstr (s ++ mem)).take n = s.take n := by
  rw [cstr_append h, List.take_append_of_le_length hn]

/-- A string that ends within some bytes is the same whatever follows them. -/
theorem cstr_append_of_mem {s : Bytes} (h : 0 ∈ s) (mem : Bytes) : cstr (s ++ mem) = cstr s := by
  induction s with
  | nil => cases h
  | cons b s ih =>
    by_cases hb : b = 0
    · simp [cstr, hb]
    · have hmem : 0 ∈ s := (List.mem_cons.mp h).resolve_left (Ne.symm hb)
      have hcons : ∀ rest : Bytes, cstr (b :: rest) = b :: cstr rest := by
        intro rest
        simp [cstr, hb]
      rw [List.cons_append, hcons, hcons, ih hmem]

/-- A string with a zero byte in it is read up to there. -/
theorem length_cstr_lt {s : Bytes} (h : 0 ∈ s) (mem : Bytes) : (cstr (s ++ mem)).length < s.length := by
  induction s with
  | nil => cases h
  | cons b s ih =>
    by_cases hb : b = 0
    · simp [cstr, hb]
    · have hs : 0 ∈ s := (List.mem_cons.mp h).resolve_left (Ne.symm hb)
      have hcons : cstr (b :: s ++ mem) = b :: cstr (s ++ mem) := by simp [cstr, hb]
      rw [hcons, List.length_cons, List.length_cons]
      exact Nat.succ_lt_succ (ih hs)

/-- **Bytes are read as a string of their number** exactly if none of them is zero, and the
byte behind them is. -/
theorem length_cstr_append_iff {s mem : Bytes} (h : 0 ∈ s ++ mem) :
    (cstr (s ++ mem)).length = s.length ↔ NulFree s ∧ mem.head? = some 0 := by
  constructor
  · intro hlen
    have hs : NulFree s := fun b hb hzero => Nat.ne_of_lt (length_cstr_lt (hzero ▸ hb) mem) hlen
    rw [cstr_append hs, List.length_append, Nat.add_eq_left, List.length_eq_zero_iff] at hlen
    refine ⟨hs, ?_⟩
    cases mem with
    | nil => exact absurd rfl (hs 0 (List.append_nil s ▸ h))
    | cons b mem =>
      by_contra hb
      simp_all [cstr]
  · rintro ⟨hs, hhead⟩
    obtain ⟨mem, rfl⟩ : ∃ rest, mem = 0 :: rest := by
      cases mem with
      | nil => cases hhead
      | cons b rest => exact ⟨rest, by rw [Option.some.inj hhead]⟩
    rw [cstr_append hs]
    simp [cstr]

end EmbeddedKv.Library
