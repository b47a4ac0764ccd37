import EmbeddedKv.Net.Loop

/-!
# The lengths of arguments

`parsingMessage` keeps the length of an argument in a variable of the whole loop, and does
not look at what `string2ll` returns: an argument whose line `string2ll` does not read has
the length of the argument before it. `string2ll` does not read leading zeros, nor the
number zero, as a line end follows it; and what follows the digits is ignored.

## What is proved

* `argument_lengths_iff`: every object that is stored has the length that its line
  announces exactly if no argument in the buffer has such a line.
-/

namespace EmbeddedKv.Net

open EmbeddedKv.Library EmbeddedKv.Flash

/-! ### What is stored -/

/-- **What a round of the loop stores.** -/
structure StoredArg where
  /-- The bytes between `$` and the end of the line. -/
  line : Bytes
  /-- `*value`, or `none` if `string2ll` returns 0. -/
  value : Option Int64
  /-- The object that is put into `argv`. -/
  msg : Msg
  deriving DecidableEq, Repr

namespace KvClient

/-- The first line of a request: the number of arguments, and where they start. -/
def parsingStart (c : KvClient) : Except Stop (Option (ℕ × ℕ)) :=
  match c.querybuf.buf[0]? with
  | none => .error .undefined
  | some b =>
    if b ≠ star then .ok none
    else
      match strchr cr c.querybuf.buf with
      | .error e => .error e
      | .ok none => .ok none
      | .ok (some newline) =>
        match c.querybuf.buf[1]? with
        | none => .error .undefined
        | some count =>
          let msgLen := count.toInt8.toInt - 48
          if msgLen < 0 then .error .undefined else .ok (some (msgLen.toNat, newline + 2))

/-- A round of the loop: what it stores, and `pos`, `len` and the client behind it; `none`
if it gives up. -/
def parsingRound (pos : ℕ) (len : Int64) (c : KvClient) : Except Stop (Option (StoredArg × ℕ × Int64 × KvClient)) :=
  match strchr cr (c.querybuf.buf.drop pos) with
  | .error e => .error e
  | .ok newline =>
    if c.querybuf.buf[pos]? ≠ some dollar then .ok none
    else
      match newline with
      | none => .error .undefined
      | some newline =>
        match string2ll (c.querybuf.buf.drop (pos + 1)) (newline + 1) with
        | .error e => .error e
        | .ok value =>
          let len := value.getD len
          match c.addArg (pos + newline + 2) len with
          | .error e => .error e
          | .ok c' =>
            match c'.arg c.argc with
            | none => .error .undefined
            | some msg =>
              .ok (some (⟨(c.querybuf.buf.drop (pos + 1)).take (newline - 1), value, msg⟩,
                pos + newline + 2 + (len.toInt.toNat + 2), len, c'))

/-- The client in front of its first argument. -/
def emptyArgv (c : KvClient) (n : ℕ) : KvClient := { c with argc := 0, argv := List.replicate n .unwritten }

/-- What the loop stores, up to a round that gives up or is undefined. -/
def storedLoop : ℕ → ℕ → Int64 → KvClient → List StoredArg
  | 0, _, _, _ => []
  | n + 1, pos, len, c =>
    match c.parsingRound pos len with
    | .ok (some (a, pos, len, c)) => a :: storedLoop n pos len c
    | _ => []

/-- **What `parsingMessage` stores** in `argv`, in the order of the places. -/
def stored (c : KvClient) : List StoredArg :=
  match c.parsingStart with
  | .ok (some (n, pos)) => storedLoop n pos 0 (c.emptyArgv n)
  | _ => []

variable {c c' : KvClient} {pos n k : ℕ} {len : Int64} {line body s s' front : Bytes} {x : UInt8} {args : List Bytes}

/-- `parsingMessage` is its first line and the loop. -/
theorem parsingMessage_eq (c : KvClient) : c.parsingMessage =
    match c.parsingStart with
    | .error e => .error e
    | .ok none => .ok c
    | .ok (some (n, pos)) => parsingLoop n pos 0 (c.emptyArgv n) := by
  unfold parsingMessage parsingStart
  cases c.querybuf.buf[0]? with
  | none => rfl
  | some b =>
    by_cases hb : b = star
    · simp only [hb, ne_eq, not_true_eq_false, if_false]
      cases strchr cr c.querybuf.buf with
      | error e => rfl
      | ok newline =>
        cases newline with
        | none => rfl
        | some newline =>
          cases c.querybuf.buf[1]? with
          | none => rfl
          | some count =>
            by_cases hneg : count.toInt8.toInt - 48 < 0
            · simp only [if_pos hneg]
            · simp only [if_neg hneg, emptyArgv]
    · simp only [ne_eq, hb, not_false_eq_true, if_true]

/-- A round that comes to its end has put an object into `argv`. -/
theorem arg_of_addArg (h : c.addArg pos len = .ok c') : ∃ msg, c'.arg c.argc = some msg := by
  unfold addArg at h
  dsimp only at h
  split at h
  · cases h
  · split at h
    · cases h
    · next msg _ =>
      split at h
      · next hargc =>
        cases h
        exact ⟨msg, by simp [arg, hargc]⟩
      · cases h

/-- The loop is a sequence of rounds. -/
theorem parsingLoop_succ (n pos : ℕ) (len : Int64) (c : KvClient) : parsingLoop (n + 1) pos len c =
    match c.parsingRound pos len with
    | .error e => .error e
    | .ok none => .ok c
    | .ok (some (_, pos, len, c)) => parsingLoop n pos len c := by
  rw [parsingLoop, parsingRound]
  cases strchr cr (c.querybuf.buf.drop pos) with
  | error e => rfl
  | ok newline =>
    by_cases hhead : c.querybuf.buf[pos]? = some dollar
    · simp only [hhead, ne_eq, not_true_eq_false, if_false]
      cases newline with
      | none => rfl
      | some newline =>
        cases hvalue : string2ll (c.querybuf.buf.drop (pos + 1)) (newline + 1) with
        | error e => simp only [hvalue]
        | ok value =>
          cases hadd : c.addArg (pos + newline + 2) (value.getD len) with
          | error e => simp only [hvalue, hadd]
          | ok c' =>
            obtain ⟨msg, hmsg⟩ := arg_of_addArg hadd
            simp only [hvalue, hadd, hmsg]
    · simp only [ne_eq, hhead, not_false_eq_true, if_true]

end KvClient

/-! ### What a buffer announces -/

/-- What `string2ll` makes of a line. -/
def lineValue (line : Bytes) : Option Int64 := (numeral (leadingDigits line)).map UInt64.toInt64

/-- **The line announces the length of its object**: it is a number, of digits only. -/
def StoredArg.Announced (a : StoredArg) : Prop :=
  a.line ≠ [] ∧ (∀ b ∈ a.line, IsDigit b) ∧ decimalFrom 0 a.line = a.msg.len.toNat

/-- **No length is carried over**: an argument whose line `string2ll` does not read has not
the length that it has read for an earlier one. -/
def NotCarried (args : List StoredArg) : Prop :=
  args.Pairwise fun b a => b.value ≠ none → a.value = none → a.msg.len ≠ b.msg.len

/-- **Every stored argument has the length that its line announces.** -/
def KvClient.AsAnnounced (c : KvClient) : Prop := (∀ a ∈ c.stored, a.Announced) ∧ NotCarried c.stored

/-- The line of an argument that gets the length it announces: a number that fits, with no
leading zero and nothing behind it. As long as no number was read, zeros will do as well. -/
def Announcing (last : Option Int64) (line : Bytes) : Prop :=
  (∀ b ∈ line, IsDigit b) ∧ (lineValue line ≠ none ∨ last = none ∧ line ≠ [] ∧ decimalFrom 0 line = 0)

/-- **An argument in the buffer has another line.** `n` arguments are announced for the
bytes, and `last` is the last number that was read. An argument is only stored if the bytes
and one more are there. -/
inductive Flawed : ℕ → Option Int64 → Bytes → Prop where
  /-- It is the first one. -/
  | here {n k : ℕ} {last : Option Int64} {line body : Bytes} {x : UInt8} (hline : Passed cr line)
      (hk : ((lineValue line).getD (last.getD 0)).toInt = k) (hin : k < body.length) (hbad : ¬ Announcing last line) :
      Flawed (n + 1) last (dollar :: line ++ cr :: x :: body)
  /-- It is a later one. -/
  | later {n k : ℕ} {last : Option Int64} {line body : Bytes} {x : UInt8} (hline : Passed cr line)
      (hk : ((lineValue line).getD (last.getD 0)).toInt = k) (hin : k < body.length)
      (hrest : Flawed n ((lineValue line).or last) (body.drop (k + 2))) :
      Flawed (n + 1) last (dollar :: line ++ cr :: x :: body)

/-- A request with such an argument. -/
def FlawedRequest (buf : Bytes) : Prop := ∃ n front s, Announces buf n front s ∧ Flawed n none s

/-! ### Rounds -/

namespace KvClient

variable {c c' : KvClient} {pos n k : ℕ} {len : Int64} {line body s s' front : Bytes} {x : UInt8} {args : List Bytes}

/-- The first line of a request. -/
theorem parsingStart_of_announces (h : Announces c.querybuf.buf n front s) :
    ∃ pos, c.querybuf.buf.drop pos = s ∧ c.parsingStart = .ok (some (n, pos)) := by
  obtain ⟨newline, count, hstar, hcr, hcount, hn, hdrop, -⟩ := first_line h
  refine ⟨newline + 2, hdrop, ?_⟩
  unfold parsingStart
  rw [hcr, hcount, hstar]
  simp only [ne_eq, not_true_eq_false, if_false, hn, add_sub_cancel_left]
  rw [if_neg (by omega)]
  rfl

/-- There is none for other buffers. -/
theorem announces_of_parsingStart (h : c.parsingStart = .ok (some (n, pos))) :
    ∃ front, Announces c.querybuf.buf n front (c.querybuf.buf.drop pos) := by
  unfold parsingStart at h
  cases hhead : c.querybuf.buf[0]? with
  | none =>
    rw [hhead] at h
    cases h
  | some b =>
    by_cases hb : b = star
    · subst hb
      rw [← List.head?_eq_getElem?] at hhead
      simp only [hhead, ← List.head?_eq_getElem?, ne_eq, not_true_eq_false, if_false] at h
      obtain ⟨before, rest, hbuf, hpass, hr⟩ | ⟨before, rest, -, -, hr⟩ | ⟨-, hr⟩ := strchr_cases cr c.querybuf.buf
      · obtain ⟨line, rfl⟩ := exists_cons (by rw [← hbuf]; exact hhead) (by decide)
        rw [hr] at h
        cases hcount : c.querybuf.buf[1]? with
        | none => simp [hcount] at h
        | some count =>
          by_cases hneg : count.toInt8.toInt - 48 < 0
          · simp [hcount, hneg] at h
          · simp only [hcount, if_neg hneg, Except.ok.injEq, Option.some.injEq, Prod.mk.injEq] at h
            obtain ⟨rfl, rfl⟩ := h
            refine ⟨_, line, rest, count, hbuf, (List.forall_mem_cons.mp hpass).2, hcount, by omega, rfl, ?_⟩
            rw [hbuf, List.drop_length_add_append]
            rfl
      · rw [hr] at h
        cases h
      · rw [hr] at h
        cases h
    · simp [hhead, hb] at h

/-- **A round that stores an argument.** -/
theorem storedLoop_item (hbuf : c.querybuf.buf.drop pos = dollar :: line ++ cr :: x :: body) (hline : Passed cr line)
    (hk : ((lineValue line).getD len).toInt = k) (hin : k < body.length) (hargv : c.argv.length = c.argc + (n + 1)) :
    ∃ pos' c₁, c₁.argv.length = c₁.argc + n ∧ c₁.querybuf.buf.drop pos' = body.drop (k + 2) ∧
      storedLoop (n + 1) pos len c = ⟨line, lineValue line, .ofBytes (body.take k)⟩ ::
        storedLoop n pos' ((lineValue line).getD len) c₁ := by
  obtain ⟨c₁, hadd, hargv₁, hdrop, -, hwith⟩ := addArg_item hbuf hk hin hargv
  have harg : c₁.arg c.argc = some (.ofBytes (body.take k)) := by
    have hone := hwith [] c₁.querybuf.buf
    rw [withArgs_nil] at hone
    rw [hone, arg, withArgs, List.append_assoc, List.getElem?_append_right (by simp)]
    simp [Nat.min_eq_left (show c.argc ≤ c.argv.length by omega)]
  obtain ⟨hdollar, hnext, hcr, -⟩ := line_at hline hbuf
  have hvalue : string2ll (line ++ cr :: x :: body) (line.length + 1 + 1) = .ok (lineValue line) := string2ll_line line _
  have hround : c.parsingRound pos len = .ok (some (⟨line, lineValue line, .ofBytes (body.take k)⟩,
      pos + line.length + 3 + (k + 2), (lineValue line).getD len, c₁)) := by
    rw [parsingRound, hcr]
    simp only [hdollar, ne_eq, not_true_eq_false, if_false, hnext, hvalue]
    show (match c.addArg (pos + line.length + 3) ((lineValue line).getD len) with | .error e => _ | .ok c' => _) = _
    rw [hadd]
    simp only [harg, hk, Nat.add_sub_cancel, List.take_left]
    rfl
  refine ⟨_, c₁, hargv₁, hdrop, ?_⟩
  rw [storedLoop, hround]

/-- The bytes start with an argument that is stored, after one of length `len`. -/
def HasItem (len : Int64) (s : Bytes) : Prop :=
  ∃ line x body k, s = dollar :: line ++ cr :: x :: body ∧ Passed cr line ∧
    ((lineValue line).getD len).toInt = (k : ℕ) ∧ k < body.length

/-- Other rounds store nothing. -/
theorem storedLoop_nil (h : ¬ HasItem len (c.querybuf.buf.drop pos)) (n : ℕ) : storedLoop (n + 1) pos len c = [] := by
  have hround : ∀ a, c.parsingRound pos len ≠ .ok (some a) := by
    intro a ha
    unfold parsingRound at ha
    obtain ⟨before, rest, hbuf, hpass, hr⟩ | ⟨before, rest, -, -, hr⟩ | ⟨-, hr⟩ :=
      strchr_cases cr (c.querybuf.buf.drop pos)
    · by_cases hhead : c.querybuf.buf[pos]? = some dollar
      · obtain ⟨line, rfl⟩ := exists_cons (by rw [← List.head?_drop, hbuf] at hhead; exact hhead) (by decide)
        obtain ⟨-, hnext, -, hafter⟩ := line_at (List.forall_mem_cons.mp hpass).2 hbuf
        have hvalue : string2ll (line ++ cr :: rest) (line.length + 1 + 1) = .ok (lineValue line) := string2ll_line line _
        have hbad : c.addArg (pos + (line.length + 1) + 2) ((lineValue line).getD len) = .error .undefined := by
          refine addArg_error fun k hk hin => h ?_
          change k < (c.querybuf.buf.drop (pos + line.length + 3)).length at hin
          rw [hafter] at hin
          cases rest with
          | nil => cases hin
          | cons x body => exact ⟨line, x, body, k, hbuf, (List.forall_mem_cons.mp hpass).2, hk, hin⟩
        simp [hr, hhead, hnext, hvalue, hbad] at ha
      · simp [hr, hhead] at ha
    · by_cases hhead : c.querybuf.buf[pos]? = some dollar <;> simp [hr, hhead] at ha
    · simp [hr] at ha
  rw [storedLoop]
  split
  · next heq => exact absurd heq (hround _)
  · rfl

end KvClient

/-! ### Lengths -/

/-- The lengths of stored arguments: what `string2ll` reads, or else the number before. -/
def Follows : Option Int64 → List StoredArg → Prop
  | _, [] => True
  | last, a :: args =>
    a.value = lineValue a.line ∧ (a.msg.len.toNat : ℤ) = (a.value.getD (last.getD 0)).toInt ∧ Follows (a.value.or last) args

/-- Their lines announce these lengths. -/
def AnnouncedFrom : Option Int64 → List StoredArg → Prop
  | _, [] => True
  | last, a :: args => Announcing last a.line ∧ AnnouncedFrom (a.value.or last) args

/-- A number that is read, if it is not negative as a `long long`. -/
theorem lineValue_toInt {line : Bytes} {v : Int64} {k : ℕ} (hdigits : ∀ b ∈ line, IsDigit b) (hv : lineValue line = some v)
    (hk : v.toInt = k) : line ≠ [] ∧ decimalFrom 0 line = k := by
  rw [lineValue, leadingDigits_eq_self hdigits] at hv
  cases line with
  | nil => cases hv
  | cons b ds =>
    refine ⟨List.cons_ne_nil _ _, ?_⟩
    rw [numeral] at hv
    split_ifs at hv with hfit
    · cases hv
      change (Int64.ofNat (decimalFrom 0 (b :: ds))).toInt = k at hk
      rw [Int64.toInt_ofNat', show Int64.size = 2 ^ 64 from rfl, Int.bmod_def] at hk
      have hsmall := hfit.2
      split_ifs at hk <;> omega
    · cases hv

/-- **The lines that announce the length** that their argument gets. -/
theorem announced_iff {a : StoredArg} {last : Option Int64} (hvalue : a.value = lineValue a.line)
    (hlen : (a.msg.len.toNat : ℤ) = (a.value.getD (last.getD 0)).toInt) :
    a.Announced ∧ (a.value = none → last = none) ↔ Announcing last a.line := by
  cases hv : a.value with
  | some v =>
    rw [hv] at hlen
    have hread := fun hdigits => lineValue_toInt hdigits (hvalue.symm.trans hv) hlen.symm
    constructor
    · rintro ⟨⟨-, hdigits, -⟩, -⟩
      exact ⟨hdigits, .inl (by rw [← hvalue, hv]; simp)⟩
    · rintro ⟨hdigits, -⟩
      exact ⟨⟨(hread hdigits).1, hdigits, (hread hdigits).2⟩, by simp⟩
  | none =>
    rw [hv] at hlen
    have hnone : lineValue a.line = none := hvalue.symm.trans hv
    constructor
    · rintro ⟨⟨hne, hdigits, hnum⟩, hlast⟩
      rw [hlast rfl] at hlen
      have hzero : a.msg.len.toNat = 0 := Int.ofNat_inj.mp hlen
      exact ⟨hdigits, .inr ⟨hlast rfl, hne, hnum.trans hzero⟩⟩
    · rintro ⟨hdigits, hread | ⟨rfl, hne, hnum⟩⟩
      · exact absurd hnone hread
      · have hzero : a.msg.len.toNat = 0 := Int.ofNat_inj.mp hlen
        exact ⟨⟨hne, hdigits, hnum.trans hzero.symm⟩, fun _ => rfl⟩

variable {args : List StoredArg} {last : Option Int64}

/-- Behind a number that was read, all lines are read. -/
theorem AnnouncedFrom.value_ne {v : Int64} (h : AnnouncedFrom (some v) args) (hargs : Follows (some v) args) :
    ∀ a ∈ args, a.value ≠ none := by
  induction args generalizing v with
  | nil => simp
  | cons a args ih =>
    obtain ⟨⟨-, hread⟩, hrest⟩ := h
    obtain ⟨hvalue, -, hfollow⟩ := hargs
    have hne : a.value ≠ none := by
      rw [hvalue]
      exact hread.resolve_right fun hnone => Option.some_ne_none v hnone.1
    obtain ⟨w, hw⟩ := Option.ne_none_iff_exists'.mp hne
    rw [hw, Option.some_or] at hrest hfollow
    exact List.forall_mem_cons.mpr ⟨hne, ih hrest hfollow⟩

/-- **Lines and lengths**: every argument has the length that its line announces, and none
has one carried over, from this request or from the number before. -/
theorem announcedFrom_iff (h : Follows last args) :
    ((∀ a ∈ args, a.Announced) ∧ NotCarried args ∧
      ∀ v, last = some v → ∀ a ∈ args, a.value = none → (a.msg.len.toNat : ℤ) ≠ v.toInt) ↔ AnnouncedFrom last args := by
  induction args generalizing last with
  | nil => simp [NotCarried, AnnouncedFrom]
  | cons a args ih =>
    obtain ⟨hvalue, hlen, hfollow⟩ := h
    have hread : ∀ {w}, a.value = some w → (a.msg.len.toNat : ℤ) = w.toInt := fun hw => by rw [hlen, hw, Option.getD_some]
    constructor
    · rintro ⟨hall, hpair, hlast⟩
      obtain ⟨ha, hargs⟩ := List.forall_mem_cons.mp hall
      obtain ⟨hhead, htail⟩ := List.pairwise_cons.mp hpair
      refine ⟨(announced_iff hvalue hlen).mp ⟨ha, fun hnone => ?_⟩, (ih hfollow).mp ⟨hargs, htail, fun w hw b hb hbnone => ?_⟩⟩
      · cases last with
        | none => rfl
        | some v =>
          refine absurd ?_ (hlast v rfl a List.mem_cons_self hnone)
          rw [hlen, hnone]
          rfl
      · cases ha' : a.value with
        | none =>
          rw [ha', Option.none_or] at hw
          exact hlast w hw b (List.mem_cons_of_mem a hb) hbnone
        | some u =>
          rw [ha', Option.some_or, Option.some.injEq] at hw
          subst hw
          intro heq
          refine hhead b hb (by rw [ha']; simp) hbnone (UInt32.toNat_inj.mp ?_)
          have := hread ha'
          omega
    · rintro ⟨hhead, hrest⟩
      obtain ⟨hargs, htail, hlast⟩ := (ih hfollow).mpr hrest
      obtain ⟨ha, hnone⟩ := (announced_iff hvalue hlen).mpr hhead
      refine ⟨List.forall_mem_cons.mpr ⟨ha, hargs⟩, List.pairwise_cons.mpr ⟨fun b hb hne hbnone heq => ?_, htail⟩,
        fun v hv b hb hbnone => ?_⟩
      · obtain ⟨w, hw⟩ := Option.ne_none_iff_exists'.mp hne
        refine hlast w (by rw [hw, Option.some_or]) b hb hbnone ?_
        rw [heq, hread hw]
      · -- the number before is no more in use
        have hne : a.value ≠ none := fun h => by simp [hnone h] at hv
        obtain ⟨w, hw⟩ := Option.ne_none_iff_exists'.mp hne
        rw [hw, Option.some_or] at hrest hfollow
        rcases List.mem_cons.mp hb with rfl | hb
        · exact absurd hbnone hne
        · exact absurd hbnone (hrest.value_ne hfollow b hb)

namespace KvClient

variable {c c' : KvClient} {pos n k : ℕ} {len : Int64} {line body s s' : Bytes} {x : UInt8}

/-- The first argument, or a later one. -/
theorem flawed_item_iff (hline : Passed cr line) (hk : ((lineValue line).getD (last.getD 0)).toInt = k)
    (hin : k < body.length) : Flawed (n + 1) last (dollar :: line ++ cr :: x :: body) ↔
      ¬ Announcing last line ∨ Flawed n ((lineValue line).or last) (body.drop (k + 2)) := by
  constructor
  · intro h
    generalize hs : dollar :: line ++ cr :: x :: body = s at h
    cases h with
    | here hline' _ _ hbad =>
      obtain ⟨rfl, -⟩ := eq_of_append_cons hline hline' (List.cons.inj hs).2
      exact .inl hbad
    | later hline' hk' _ hrest =>
      obtain ⟨rfl, hbody⟩ := eq_of_append_cons hline hline' (List.cons.inj hs).2
      obtain rfl := Int.ofNat_inj.mp (hk.symm.trans hk')
      rw [(List.cons.inj hbody).2]
      exact .inr hrest
  · rintro (hbad | hrest)
    · exact .here hline hk hin hbad
    · exact .later hline hk hin hrest

theorem not_flawed_of_not_hasItem (h : ¬ HasItem (last.getD 0) s) : ¬ Flawed n last s := by
  intro hf
  cases hf with
  | here hline hk hin _ => exact h ⟨_, _, _, _, rfl, hline, hk, hin⟩
  | later hline hk hin _ => exact h ⟨_, _, _, _, rfl, hline, hk, hin⟩

/-- **The loop**: how the lengths of what it stores come about, and when the lines announce
them. -/
theorem storedLoop_lengths (hsmall : (c.querybuf.buf.drop pos).length < 2 ^ 32) (hargv : c.argv.length = c.argc + n)
    (last : Option Int64) : Follows last (storedLoop n pos (last.getD 0) c) ∧
      (AnnouncedFrom last (storedLoop n pos (last.getD 0) c) ↔ ¬ Flawed n last (c.querybuf.buf.drop pos)) := by
  induction n generalizing c pos last with
  | zero => exact ⟨trivial, fun _ => by rintro ⟨⟩, fun _ => trivial⟩
  | succ n ih =>
    by_cases hitem : HasItem (last.getD 0) (c.querybuf.buf.drop pos)
    · obtain ⟨line, x, body, k, hbuf, hline, hk, hin⟩ := hitem
      obtain ⟨pos', c₁, hargv₁, hdrop, hstored⟩ := storedLoop_item hbuf hline hk hin hargv
      rw [hbuf, List.length_append, List.length_cons, List.length_cons, List.length_cons] at hsmall
      have hafter : (c₁.querybuf.buf.drop pos').length < 2 ^ 32 := by
        rw [hdrop, List.length_drop]
        omega
      have hlen : (Msg.ofBytes (body.take k)).len.toNat = k := by
        rw [Msg.ofBytes, List.length_take, Nat.min_eq_left (Nat.le_of_lt hin),
          UInt32.toNat_ofNat_of_lt' (show k < 2 ^ 32 by omega)]
      have hrest := ih hafter hargv₁ ((lineValue line).or last)
      rw [Option.getD_or, hdrop] at hrest
      rw [hstored, hbuf, flawed_item_iff hline hk hin, not_or, not_not]
      exact ⟨⟨rfl, by rw [hlen, hk], hrest.1⟩, and_congr_right fun _ => hrest.2⟩
    · rw [storedLoop_nil hitem]
      exact ⟨trivial, fun _ => not_flawed_of_not_hasItem hitem, fun _ => trivial⟩

/-- What the loop stores of arguments that are there. -/
theorem storedLoop_of_items {args : List Bytes} (h : Items n len s args s') (hbuf : c.querybuf.buf.drop pos = s)
    (hargv : c.argv.length = c.argc + n) : (storedLoop n pos len c).map StoredArg.msg = args.map Msg.ofBytes := by
  induction h generalizing c pos with
  | done => rfl
  | broken hne _ =>
    rw [storedLoop_nil, List.map_nil, List.map_nil]
    rintro ⟨_, _, _, _, hitem, -⟩
    rw [← hbuf, hitem] at hne
    exact hne rfl
  | item hline hk hin _ ih =>
    obtain ⟨pos', c₁, hargv₁, hdrop, hstored⟩ := storedLoop_item hbuf hline hk hin hargv
    rw [hstored, List.map_cons, List.map_cons]
    exact congrArg _ (ih hdrop hargv₁)

/-- **What is stored is what `argv` has** once `parsingMessage` has returned. -/
theorem arg_of_stored (h : c.parsingMessage = .ok c') (hreq : ¬ NoRequest c.querybuf.buf) (i : ℕ) :
    c'.arg i = c.stored[i]?.map StoredArg.msg := by
  obtain ⟨hno, -⟩ | ⟨n, front, s, args, s', ha, hi, rfl⟩ := parsingMessage_iff.mp h
  · exact absurd hno hreq
  · obtain ⟨pos, hdrop, hstart⟩ := parsingStart_of_announces ha
    have hmsgs := storedLoop_of_items (c := c.emptyArgv n) hi hdrop (by simp [emptyArgv])
    rw [arg_parsed c hi.length_le, stored, hstart, ← List.getElem?_map, ← List.getElem?_map]
    exact congrArg (·[i]?) hmsgs.symm

/-- What is stored from a request. -/
theorem stored_of_announces {front : Bytes} (h : Announces c.querybuf.buf n front s) :
    ∃ pos, c.querybuf.buf.drop pos = s ∧ c.stored = storedLoop n pos 0 (c.emptyArgv n) := by
  obtain ⟨pos, hdrop, hstart⟩ := parsingStart_of_announces h
  exact ⟨pos, hdrop, by rw [stored, hstart]⟩

/-- The property in terms of the loop. -/
theorem asAnnounced_of_announces {front : Bytes} (hbuf : c.querybuf.buf.length ≤ kvIobufLen)
    (h : Announces c.querybuf.buf n front s) : c.AsAnnounced ↔ ¬ Flawed n none s := by
  obtain ⟨pos, rfl, hstored⟩ := stored_of_announces h
  have hsmall : ((c.emptyArgv n).querybuf.buf.drop pos).length < 2 ^ 32 := by
    have hlt : kvIobufLen < 2 ^ 32 := kvIobufLen_lt (by omega)
    rw [List.length_drop]
    exact Nat.lt_of_le_of_lt (Nat.sub_le _ _) (Nat.lt_of_le_of_lt hbuf hlt)
  obtain ⟨hfollow, hiff⟩ := storedLoop_lengths (n := n) hsmall (by simp [emptyArgv]) none
  have hlist := announcedFrom_iff hfollow
  simp only [reduceCtorEq, false_implies, implies_true, and_true] at hlist
  rw [AsAnnounced, hstored]
  exact hlist.trans hiff

end KvClient

/-- The first line of a buffer is one. -/
theorem Announces.unique {buf front front' s s' : Bytes} {n n' : ℕ} (h : Announces buf n front s)
    (h' : Announces buf n' front' s') : n = n' ∧ s = s' := by
  obtain ⟨line, rest, count, hbuf, hline, hcount, hn, -, rfl⟩ := h
  obtain ⟨line', rest', count', hbuf', hline', hcount', hn', -, rfl⟩ := h'
  obtain rfl := Option.some.inj (hcount.symm.trans hcount')
  obtain ⟨-, rfl⟩ := eq_of_append_cons hline hline' (List.cons.inj (hbuf.symm.trans hbuf')).2
  exact ⟨by omega, rfl⟩

theorem flawedRequest_iff {buf front s : Bytes} {n : ℕ} (h : Announces buf n front s) :
    FlawedRequest buf ↔ Flawed n none s := by
  constructor
  · rintro ⟨n', front', s', h', hf⟩
    obtain ⟨rfl, rfl⟩ := h.unique h'
    exact hf
  · exact fun hf => ⟨n, front, s, h, hf⟩

/-- **Every argument has the length that its line announces** exactly if no argument in the
buffer has a line that is no number, is too large, or starts with a zero; zeros in front of
the first number that is read do no harm. A later argument may leave the buffer. -/
theorem argument_lengths_iff {c : KvClient} (hbuf : c.querybuf.buf.length ≤ kvIobufLen) :
    c.AsAnnounced ↔ ¬ FlawedRequest c.querybuf.buf := by
  by_cases hreq : ∃ n front s, Announces c.querybuf.buf n front s
  · obtain ⟨n, front, s, ha⟩ := hreq
    rw [flawedRequest_iff ha]
    exact KvClient.asAnnounced_of_announces hbuf ha
  · have hnil : c.stored = [] := by
      rw [KvClient.stored]
      split
      · next hstart =>
        obtain ⟨front, ha⟩ := KvClient.announces_of_parsingStart hstart
        exact absurd ⟨_, _, _, ha⟩ hreq
      · rfl
    refine iff_of_true ?_ fun ⟨n, front, s, ha, _⟩ => hreq ⟨n, front, s, ha⟩
    rw [KvClient.AsAnnounced, hnil]
    exact ⟨fun _ ha => (by cases ha), List.Pairwise.nil⟩

/-! ### Encoded requests -/

/-- The lines of an encoding announce the lengths of its arguments. -/
theorem not_flawed_encode {args : List Bytes} (hargs : ∀ a ∈ args, a ≠ [] ∧ a.length < 2 ^ 63) (last : Option Int64)
    (rest : Bytes) : ¬ Flawed args.length last (args.flatMap encodeArg ++ rest) := by
  induction args generalizing last with
  | nil => rintro ⟨⟩
  | cons a args ih =>
    obtain ⟨⟨hne, hlen⟩, hargs⟩ := List.forall_mem_cons.mp hargs
    have hpos := List.length_pos_of_ne_nil hne
    have hvalue : lineValue (decimal a.length) = some (UInt64.ofNat a.length).toInt64 := by
      rw [lineValue, leadingDigits_decimal, numeral_decimal hpos (by omega)]
      rfl
    have hbytes : (a :: args).flatMap encodeArg ++ rest =
        dollar :: decimal a.length ++ cr :: lf :: (a ++ cr :: lf :: (args.flatMap encodeArg ++ rest)) := by
      simp [encodeArg]
    rw [hbytes, List.length_cons, KvClient.flawed_item_iff (passed_decimal _) (announced_decimal hpos hlen _) (by simp),
      not_or, not_not]
    refine ⟨⟨fun b hb => isDigit_of_mem_decimal hb, .inl (by rw [hvalue]; simp)⟩, ?_⟩
    rw [List.drop_length_add_append]
    exact ih hargs _

theorem not_flawedRequest_encode {args : List Bytes} (h9 : args.length ≤ 9) (hargs : ∀ a ∈ args, a ≠ [] ∧ a.length < 2 ^ 63)
    (rest : Bytes) : ¬ FlawedRequest (encode args ++ rest) := by
  rw [flawedRequest_iff (announces_encode h9 rest)]
  exact not_flawed_encode hargs none rest

/-- A first request in the query buffer. -/
theorem KvClient.recv_fresh (received : Bytes) (h : received.length ≤ kvIobufLen) :
    ∃ rest, (fresh.recv received).querybuf.buf = received ++ rest ∧ received.length + rest.length = kvIobufLen := by
  refine ⟨_, rfl, ?_⟩
  rw [List.length_drop, KvClient.connected_fresh.1]
  omega

/-- `get abc`, as a client sends it. -/
theorem argument_lengths_get : (KvClient.fresh.recv (encode [[103, 101, 116], [97, 98, 99]])).AsAnnounced := by
  obtain ⟨rest, hbuf, hlen⟩ := KvClient.recv_fresh (encode [[103, 101, 116], [97, 98, 99]]) (by decide)
  refine (argument_lengths_iff ?_).mpr ?_
  · rw [hbuf, List.length_append, hlen]
  · rw [hbuf]
    exact not_flawedRequest_encode (by simp) (by simp) rest

/-- `*2\r\n$3\r\nget\r\n$0\r\n\r\n`: a `get` with an empty key. -/
def emptyKey : Bytes := [star, 50, cr, lf, dollar, 51, cr, lf, 103, 101, 116, cr, lf, dollar, 48, cr, lf, cr, lf]

/-- The empty key gets the length of the name. -/
theorem not_asAnnounced_emptyKey : ¬ (KvClient.fresh.recv emptyKey).AsAnnounced := by
  obtain ⟨rest, hbuf, hlen⟩ := KvClient.recv_fresh emptyKey (by decide)
  have ha : Announces (KvClient.fresh.recv emptyKey).querybuf.buf 2 [star, 50, cr, lf]
      (dollar :: [51] ++ cr :: lf :: ([103, 101, 116, cr, lf] ++ (dollar :: [48] ++ cr :: lf :: (cr :: lf :: rest)))) := by
    rw [hbuf]
    exact ⟨[50], _, 50, rfl, by decide, rfl, by decide, rfl, rfl⟩
  have hfew : 3 < (cr :: lf :: rest).length := by
    have hshort : emptyKey.length = 19 := rfl
    rw [kvIobufLen] at hlen
    simp only [List.length_cons]
    omega
  rw [KvClient.asAnnounced_of_announces (by rw [hbuf, List.length_append, hlen]) ha, not_not]
  -- the line of the key is not read, behind a 3 that was
  have hkey : ¬ Announcing (some 3) [48] := by
    rintro ⟨-, hread | ⟨hlast, -⟩⟩
    · exact hread rfl
    · cases hlast
  exact .later (k := 3) (by decide) rfl (by simp) (.here (k := 3) (by decide) rfl hfew hkey)

end EmbeddedKv.Net
