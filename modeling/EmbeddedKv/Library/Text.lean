import EmbeddedKv.Library.Decimal

/-!
# Lines and words

A text of bytes is read line by line into a buffer of limited size, as `fgets` does
(`linesOf`), and a line is cut into words, as `strtok` does (`words`).

`linesOf_flatMap`: the lines of a text are read one by one if each has room. What a byte at
the end of a line does to its words depends on the byte before it: it is a word of its own
after a separator (`wordsFrom_concat_of_open`), and otherwise belongs to the last word
(`wordsFrom_concat_of_closed`).
-/

namespace EmbeddedKv.Library

/-- The bytes of a text. -/
def ascii (s : String) : Bytes := s.toList.map charByte

/-! ### Lines -/

/-- What is read from a text by one call after the other, of which each reads up to the end
of a line and at most `max` bytes; `room` bytes can still be read by the current call, which
has read `acc`. -/
def linesFrom (eol : UInt8) (max : ℕ) : ℕ → Bytes → Bytes → List Bytes
  | _, acc, [] => if acc = [] then [] else [acc]
  | room, acc, b :: s =>
    if b = eol ∨ room ≤ 1 then (acc ++ [b]) :: linesFrom eol max max [] s
    else linesFrom eol max (room - 1) (acc ++ [b]) s

/-- **The lines of a text**, as they are read with room for `max` bytes. -/
def linesOf (eol : UInt8) (max : ℕ) (text : Bytes) : List Bytes := linesFrom eol max max [] text

variable {eol sep : UInt8} {max room : ℕ} {acc line s : Bytes}

@[simp] theorem linesOf_nil (eol : UInt8) (max : ℕ) : linesOf eol max [] = [] := by rw [linesOf, linesFrom, if_pos rfl]

/-- Bytes for which there is room are read by the same call. -/
theorem linesFrom_append (hline : eol ∉ line) (hroom : line.length < room) (s : Bytes) :
    linesFrom eol max room acc (line ++ s) = linesFrom eol max (room - line.length) (acc ++ line) s := by
  induction line generalizing room acc with
  | nil => rw [List.nil_append, List.append_nil, List.length_nil, Nat.sub_zero]
  | cons b line ih =>
    rw [List.mem_cons, not_or] at hline
    rw [List.length_cons] at hroom
    rw [List.cons_append, linesFrom, if_neg (by rintro (h | h); exacts [hline.1 h.symm, by omega]),
      ih hline.2 (by omega), List.length_cons, List.append_assoc, List.singleton_append]
    congr 1
    omega

/-- A line is read up to its end. -/
theorem linesOf_cons (hline : eol ∉ line) (hroom : line.length < max) (s : Bytes) :
    linesOf eol max (line ++ eol :: s) = (line ++ [eol]) :: linesOf eol max s := by
  rw [linesOf, linesFrom_append hline hroom, List.nil_append, linesFrom, if_pos (.inl rfl)]
  rfl

/-- A line without an end. -/
theorem linesOf_last (hline : eol ∉ line) (hroom : line.length < max) :
    linesOf eol max line = if line = [] then [] else [line] := by
  have hread : linesFrom eol max max [] (line ++ []) = _ := linesFrom_append hline hroom []
  rw [List.append_nil, List.nil_append] at hread
  rw [linesOf, hread, linesFrom]

/-- **Lines are read one by one** if there is room for each. -/
theorem linesOf_flatMap {before : List Bytes} (hbefore : ∀ l ∈ before, eol ∉ l ∧ l.length < max) (s : Bytes) :
    linesOf eol max (before.flatMap (· ++ [eol]) ++ s) = before.map (· ++ [eol]) ++ linesOf eol max s := by
  induction before with
  | nil => rfl
  | cons l before ih =>
    obtain ⟨hl, hbefore⟩ := List.forall_mem_cons.mp hbefore
    rw [List.flatMap_cons, List.append_assoc, List.append_assoc, List.singleton_append, linesOf_cons hl.1 hl.2,
      ih hbefore, List.map_cons, List.cons_append]

/-- The lines of a text that have an end, without it, and the bytes behind them. -/
def cutLines (eol : UInt8) : Bytes → List Bytes × Bytes
  | [] => ([], [])
  | b :: s =>
    if b = eol then ([] :: (cutLines eol s).1, (cutLines eol s).2)
    else
      match (cutLines eol s).1 with
      | [] => ([], b :: (cutLines eol s).2)
      | l :: before => ((b :: l) :: before, (cutLines eol s).2)

/-- **A text is its lines**, each with its end, and the bytes behind them. -/
theorem cutLines_spec (eol : UInt8) (text : Bytes) :
    (cutLines eol text).1.flatMap (· ++ [eol]) ++ (cutLines eol text).2 = text ∧
      (∀ l ∈ (cutLines eol text).1, eol ∉ l) ∧ eol ∉ (cutLines eol text).2 := by
  induction text with
  | nil => simp [cutLines]
  | cons b s ih =>
    obtain ⟨hs, hbefore, hlast⟩ := ih
    rw [cutLines]
    split_ifs with hb
    · refine ⟨?_, List.forall_mem_cons.mpr ⟨List.not_mem_nil, hbefore⟩, hlast⟩
      rw [hb, List.flatMap_cons, List.append_assoc, hs]
      rfl
    cases hcut : (cutLines eol s).1 with
    | nil =>
      rw [hcut] at hs
      refine ⟨congrArg (b :: ·) hs, fun l hl => absurd hl List.not_mem_nil, ?_⟩
      rw [List.mem_cons, not_or]
      exact ⟨Ne.symm hb, hlast⟩
    | cons l before =>
      rw [hcut] at hs hbefore
      obtain ⟨hl, hbefore⟩ := List.forall_mem_cons.mp hbefore
      refine ⟨congrArg (b :: ·) hs, List.forall_mem_cons.mpr ⟨?_, hbefore⟩, hlast⟩
      rw [List.mem_cons, not_or]
      exact ⟨Ne.symm hb, hl⟩

/-! ### Words -/

/-- The words of a line, of whose first one `acc` was read. -/
def wordsFrom (sep : UInt8) : Bytes → Bytes → List Bytes
  | acc, [] => if acc = [] then [] else [acc]
  | acc, b :: s =>
    if b = sep then (if acc = [] then wordsFrom sep [] s else acc :: wordsFrom sep [] s)
    else wordsFrom sep (acc ++ [b]) s

/-- **The words of a line**: what is between separators. -/
def words (sep : UInt8) (line : Bytes) : List Bytes := wordsFrom sep [] line

/-- No word is empty. -/
theorem ne_nil_of_mem_wordsFrom {w : Bytes} (h : w ∈ wordsFrom sep acc s) : w ≠ [] := by
  induction s generalizing acc with
  | nil =>
    rw [wordsFrom] at h
    split_ifs at h with hacc
    · cases h
    · rw [List.mem_singleton.mp h]
      exact hacc
  | cons b s ih =>
    rw [wordsFrom] at h
    split_ifs at h with hb hacc
    · exact ih h
    · rcases List.mem_cons.mp h with rfl | h
      · exact hacc
      · exact ih h
    · exact ih h

/-- What stands before a separator is a word. -/
theorem wordsFrom_append {w : Bytes} (hw : sep ∉ w) (s : Bytes) :
    wordsFrom sep acc (w ++ s) = wordsFrom sep (acc ++ w) s := by
  induction w generalizing acc with
  | nil => rw [List.nil_append, List.append_nil]
  | cons b w ih =>
    rw [List.mem_cons, not_or] at hw
    rw [List.cons_append, wordsFrom, if_neg (Ne.symm hw.1), ih hw.2, List.append_assoc, List.singleton_append]

/-- Two words. -/
theorem words_pair {v w : Bytes} (hv : sep ∉ v) (hw : sep ∉ w) (hv0 : v ≠ []) (hw0 : w ≠ []) :
    words sep (v ++ sep :: w) = [v, w] := by
  have hlast : wordsFrom sep [] (w ++ []) = _ := wordsFrom_append hw []
  rw [List.append_nil, List.nil_append, wordsFrom, if_neg hw0] at hlast
  rw [words, wordsFrom_append hv, List.nil_append, wordsFrom, if_pos rfl, if_neg hv0, hlast]

/-- A line ends in a separator, or has no byte. -/
def EndsOpen (sep : UInt8) (acc s : Bytes) : Prop := s.getLast? = some sep ∨ s = [] ∧ acc = []

theorem endsOpen_cons {b : UInt8} (hsep : b = sep ∨ s ≠ []) :
    EndsOpen sep acc (b :: s) ↔ EndsOpen sep (if b = sep then [] else acc ++ [b]) s := by
  cases s with
  | nil =>
    obtain rfl := hsep.resolve_right (by simp)
    simp [EndsOpen]
  | cons b' s => simp [EndsOpen, List.getLast?_cons_cons]

/-- **A byte after a separator** is a word. -/
theorem wordsFrom_concat_of_open {b : UInt8} (hb : b ≠ sep) (h : EndsOpen sep acc s) :
    wordsFrom sep acc (s ++ [b]) = wordsFrom sep acc s ++ [[b]] := by
  induction s generalizing acc with
  | nil =>
    rcases h with h | ⟨-, rfl⟩
    · cases h
    · simp [wordsFrom, hb]
  | cons d s ih =>
    have hd : d = sep ∨ s ≠ [] := by
      rcases h with h | ⟨h, -⟩
      · cases s with
        | nil => exact .inl (by simpa using h)
        | cons => exact .inr (by simp)
      · cases h
    have hrest := ih ((endsOpen_cons hd).mp h)
    rw [List.cons_append, wordsFrom, wordsFrom]
    split_ifs at hrest ⊢ with hsep hacc
    · exact hrest
    · rw [hrest, List.cons_append]
    · exact hrest

/-- **A byte after another one** belongs to the last word. -/
theorem wordsFrom_concat_of_closed {b : UInt8} (hb : b ≠ sep) (h : ¬ EndsOpen sep acc s) :
    ∃ ws w, wordsFrom sep acc s = ws ++ [w] ∧ wordsFrom sep acc (s ++ [b]) = ws ++ [w ++ [b]] := by
  induction s generalizing acc with
  | nil =>
    have hacc : acc ≠ [] := fun hacc => h (.inr ⟨rfl, hacc⟩)
    exact ⟨[], acc, by simp [wordsFrom, hacc], by simp [wordsFrom, hb]⟩
  | cons d s ih =>
    rw [List.cons_append, wordsFrom, wordsFrom]
    by_cases hd : d = sep ∨ s ≠ []
    · obtain ⟨ws, w, hs, hsb⟩ := ih (mt (endsOpen_cons hd).mpr h)
      split_ifs at hs hsb ⊢ with hsep hacc
      · exact ⟨ws, w, hs, hsb⟩
      · exact ⟨acc :: ws, w, by rw [hs, List.cons_append], by rw [hsb, List.cons_append]⟩
      · exact ⟨ws, w, hs, hsb⟩
    · rw [not_or, not_not] at hd
      obtain ⟨hd, rfl⟩ := hd
      exact ⟨[], acc ++ [d], by simp [wordsFrom, hd], by simp [wordsFrom, hd, hb]⟩

end EmbeddedKv.Library
