import EmbeddedKv.Net.Query

/-!
# What a request buffer holds

A grammar for the content of the query buffer: `Announces` is the first line of a request,
`Items` the arguments after it, and `NoRequest` a buffer that is not a request.

## What is proved

* `KvClient.parsingMessage_iff`: `parsingMessage` returns exactly for the buffers of the
  grammar, and then it has made the objects of the arguments.
-/

namespace EmbeddedKv.Net

open EmbeddedKv.Library EmbeddedKv.Flash

/-! ### What a buffer holds -/

/-- `len` after the line of an argument. -/
def announced (len : Int64) (line : Bytes) : Int64 :=
  ((numeral (leadingDigits line)).map UInt64.toInt64).getD len

/-- **The arguments in a buffer.** `n` arguments are announced for the bytes `s`, and
`len` is the length of the argument before; `args` are those that are there, up to the
first one that does not start with `$`, and `s'` is what `parsingMessage` makes of `s`. -/
inductive Items : ℕ → Int64 → Bytes → List Bytes → Bytes → Prop where
  /-- No argument is left. -/
  | done {len : Int64} {s : Bytes} : Items 0 len s [] s
  /-- There is no `$`; a search for the end of the line comes to an end. -/
  | broken {n : ℕ} {len : Int64} {s : Bytes} (hne : s.head? ≠ some dollar) (hstop : cr ∈ s ∨ 0 ∈ s) :
      Items (n + 1) len s [] s
  /-- An argument of `k` bytes, which the buffer has, and one more byte. -/
  | item {n k : ℕ} {len : Int64} {line body s' : Bytes} {x : UInt8} {args : List Bytes} (hline : Passed cr line)
      (hk : (announced len line).toInt = k) (hin : k < body.length)
      (hrest : Items n (announced len line) (body.drop (k + 2)) args s') :
      Items (n + 1) len (dollar :: line ++ cr :: x :: body) (body.take k :: args)
        (dollar :: line ++ cr :: x :: ((body.set k 0).take (k + 2) ++ s'))

/-- The buffer announces `n` arguments in its first line; `s` is what follows, and
`front` the line with its two last bytes. -/
def Announces (buf : Bytes) (n : ℕ) (front s : Bytes) : Prop :=
  ∃ line rest count, buf = star :: line ++ cr :: rest ∧ Passed cr line ∧ buf[1]? = some count ∧
    count.toInt8.toInt = 48 + (n : ℤ) ∧ front = star :: line ++ cr :: rest.take 1 ∧ s = rest.drop 1

/-- The buffer is no request: it starts with another byte, or its first line does not
end. -/
def NoRequest (buf : Bytes) : Prop :=
  (∃ b rest, buf = b :: rest ∧ b ≠ star) ∨ ∃ line rest, buf = star :: line ++ 0 :: rest ∧ Passed cr line

/-- **The buffers of the grammar.** -/
def Inside (buf : Bytes) : Prop :=
  NoRequest buf ∨ ∃ n front s args s', Announces buf n front s ∧ Items n 0 s args s'

/-- The message that `createObject` makes of bytes. -/
def Msg.ofBytes (bytes : Bytes) : Msg := ⟨UInt32.ofNat bytes.length, bytes ++ [0]⟩

/-- The client with the objects of more arguments, and another content of the buffer. -/
def KvClient.withArgs (c : KvClient) (args : List Bytes) (buf : Bytes) : KvClient :=
  { c with
    querybuf := ⟨(args.getLast?.map fun a => UInt32.ofNat a.length).getD c.querybuf.len, buf⟩
    argc := c.argc + args.length
    argv := c.argv.take c.argc ++ args.map (fun a => .object c.requests (Msg.ofBytes a)) ++
      c.argv.drop (c.argc + args.length) }

/-- The client once `parsingMessage` has read `args`, of `n` arguments. -/
def KvClient.parsed (c : KvClient) (n : ℕ) (args : List Bytes) (buf : Bytes) : KvClient :=
  { c with
    querybuf := ⟨(args.getLast?.map fun a => UInt32.ofNat a.length).getD c.querybuf.len, buf⟩
    argc := args.length
    argv := args.map (fun a => .object c.requests (Msg.ofBytes a)) ++ List.replicate (n - args.length) .unwritten }

/-! ### The objects -/

variable {c c' : KvClient} {pos n k : ℕ} {len : Int64} {line body rest s s' buf : Bytes} {args : List Bytes}

namespace KvClient

@[simp] theorem withArgs_nil (c : KvClient) : c.withArgs [] c.querybuf.buf = c := by
  simp [withArgs]

/-- One object more. -/
theorem withArgs_cons (h : c.argc < c.argv.length) (a : Bytes) (args : List Bytes) (b buf : Bytes) :
    KvClient.withArgs { c with querybuf := ⟨UInt32.ofNat a.length, b⟩
                               argv := c.argv.set c.argc (.object c.requests (Msg.ofBytes a))
                               argc := c.argc + 1 } args buf = c.withArgs (a :: args) buf := by
  have htake : (c.argv.set c.argc (.object c.requests (Msg.ofBytes a))).take (c.argc + 1) =
      c.argv.take c.argc ++ [.object c.requests (Msg.ofBytes a)] := by
    rw [List.set_eq_take_append_cons_drop, if_pos h, List.take_append, List.take_take]
    simp [Nat.min_eq_left (Nat.le_of_lt h)]
  have hdrop : (c.argv.set c.argc (.object c.requests (Msg.ofBytes a))).drop (c.argc + 1 + args.length) =
      c.argv.drop (c.argc + (a :: args).length) := by
    rw [List.drop_set_of_lt (by omega), List.length_cons]
    congr 1
    omega
  simp only [withArgs, htake, hdrop, KvClient.mk.injEq, Msg.mk.injEq, List.map_cons, List.length_cons, and_true]
  refine ⟨?_, by omega, by simp⟩
  cases args with
  | nil => rfl
  | cons d ds => simp [List.getLast?_cons]

end KvClient

/-- A length that is not negative, and that the buffer has. -/
theorem createObject_ok {ptr : Bytes} (h : k ≤ ptr.length) : createObject ptr k = .ok (Msg.ofBytes (ptr.take k)) := by
  rw [createObject, if_neg (Nat.not_lt.mpr h), Msg.ofBytes, List.length_take, Nat.min_eq_left h]

namespace KvClient

/-- **The end of a round**: the zero byte falls into the buffer. -/
theorem addArg_ok (hlen : len.toInt = k) (hin : k < (c.querybuf.buf.drop pos).length)
    (hargc : c.argc < c.argv.length) :
    c.addArg pos len = .ok { c with
      querybuf := ⟨UInt32.ofNat ((c.querybuf.buf.drop pos).take k).length, c.querybuf.buf.set (pos + k) 0⟩
      argv := c.argv.set c.argc (.object c.requests (Msg.ofBytes ((c.querybuf.buf.drop pos).take k)))
      argc := c.argc + 1 } := by
  rw [List.length_drop] at hin
  have hnat : len.toInt.toNat = k := by rw [hlen]; rfl
  have hset : ((c.querybuf.buf.set (pos + k) 0).drop pos).take k = (c.querybuf.buf.drop pos).take k := by
    rw [List.drop_set, if_neg (by omega), Nat.add_sub_cancel_left, List.take_set_of_le (Nat.le_refl k)]
  have hk : ((c.querybuf.buf.drop pos).take k).length = k := by
    rw [List.length_take, List.length_drop]
    omega
  have hobject : createObject ((c.querybuf.buf.set (pos + k) 0).drop pos) k =
      .ok (Msg.ofBytes ((c.querybuf.buf.drop pos).take k)) := by
    rw [createObject_ok (by rw [List.length_drop, List.length_set]; omega), hset]
  unfold addArg
  rw [if_neg (by rw [hnat, hlen]; omega), hnat]
  simp only [hobject, if_pos hargc, hk]

/-- Otherwise it does not. -/
theorem addArg_error (h : ∀ k : ℕ, len.toInt = k → ¬ k < (c.querybuf.buf.drop pos).length) :
    c.addArg pos len = .error .undefined := by
  unfold addArg
  refine if_pos ?_
  by_cases hneg : len.toInt < 0
  · exact .inl hneg
  · have hk := h len.toInt.toNat (Int.toNat_of_nonneg (Int.not_lt.mp hneg)).symm
    rw [List.length_drop] at hk
    exact .inr (by omega)

/-! ### The loop -/

/-- `string2ll` is given two bytes more than the line has, and stops at its end. -/
theorem string2ll_line (line rest : Bytes) : string2ll (line ++ cr :: rest) (line.length + 2) =
    .ok ((numeral (leadingDigits line)).map UInt64.toInt64) := by
  have hdigits : leadingDigits ((line ++ cr :: rest).take (line.length + 2)) = leadingDigits line := by
    rw [List.take_length_add_append, List.take_succ_cons, leadingDigits_append line (by decide)]
  have hle := length_leadingDigits_le line
  rw [string2ll_eq (.inr (by rw [hdigits, List.length_append, List.length_cons]; omega)), hdigits,
    if_neg (by omega)]

/-- The bytes before one that is not the first. -/
theorem exists_cons {b d : UInt8} {before after : Bytes} (h : (before ++ d :: after).head? = some b) (hne : d ≠ b) :
    ∃ line, before = b :: line := by
  cases before with
  | nil => exact absurd (Option.some.inj h) hne
  | cons a line => exact ⟨line, by rw [Option.some.inj h]⟩

/-- A line that starts with `$`: where it is, where it ends, and what follows it. -/
theorem line_at (hline : Passed cr line) (hbuf : buf.drop pos = dollar :: line ++ cr :: rest) :
    buf[pos]? = some dollar ∧ buf.drop (pos + 1) = line ++ cr :: rest ∧
      strchr cr (buf.drop pos) = .ok (some (line.length + 1)) ∧ buf.drop (pos + line.length + 3) = rest.drop 1 := by
  have hpass : Passed cr (dollar :: line) := List.forall_mem_cons.mpr ⟨by decide, hline⟩
  refine ⟨?_, ?_, ?_, ?_⟩
  · rw [← List.head?_drop, hbuf]
    rfl
  · rw [← List.drop_drop, hbuf]
    rfl
  · rw [hbuf]
    exact strchr_append hpass rest
  · rw [show pos + line.length + 3 = pos + ((dollar :: line).length + 2) by rw [List.length_cons]; omega,
      ← List.drop_drop, hbuf, List.drop_length_add_append]
    rfl

/-- A round for a line that starts with `$`. -/
theorem parsingLoop_item (hline : Passed cr line) (hbuf : c.querybuf.buf.drop pos = dollar :: line ++ cr :: rest)
    (n : ℕ) (len : Int64) :
    parsingLoop (n + 1) pos len c =
      match c.addArg (pos + line.length + 3) (announced len line) with
      | .error e => .error e
      | .ok c => parsingLoop n (pos + line.length + 3 + ((announced len line).toInt.toNat + 2)) (announced len line) c := by
  obtain ⟨hdollar, hnext, hcr, -⟩ := line_at hline hbuf
  rw [parsingLoop, hcr]
  simp only [hdollar, ne_eq, not_true_eq_false, if_false, hnext]
  rw [string2ll_line]
  rfl

/-- **A round that stores an argument**: what it leaves of the buffer, and of the client. -/
theorem addArg_item {x : UInt8} (hbuf : c.querybuf.buf.drop pos = dollar :: line ++ cr :: x :: body)
    (hk : len.toInt = k) (hin : k < body.length) (hargv : c.argv.length = c.argc + (n + 1)) :
    ∃ c₁, c.addArg (pos + line.length + 3) len = .ok c₁ ∧ c₁.argv.length = c₁.argc + n ∧
      c₁.querybuf.buf.drop (pos + line.length + 3 + (k + 2)) = body.drop (k + 2) ∧
      c₁.querybuf.buf.take (pos + line.length + 3 + (k + 2)) =
        c.querybuf.buf.take pos ++ (dollar :: line ++ cr :: x :: (body.set k 0).take (k + 2)) ∧
      ∀ args buf, c₁.withArgs args buf = c.withArgs (body.take k :: args) buf := by
  have hpos : (c.querybuf.buf.take pos).length = pos := by
    rw [List.length_take, Nat.min_eq_left]
    by_contra hlt
    rw [List.drop_eq_nil_of_le (by omega)] at hbuf
    cases hbuf
  -- the bytes before the argument
  obtain ⟨front, hfront⟩ : ∃ front, front = c.querybuf.buf.take pos ++ (dollar :: line ++ [cr, x]) := ⟨_, rfl⟩
  have heq : c.querybuf.buf = front ++ body := by
    conv_lhs => rw [← List.take_append_drop pos c.querybuf.buf, hbuf]
    rw [hfront]
    simp
  have hlen : front.length = pos + line.length + 3 := by
    rw [hfront, List.length_append, hpos]
    simp
    omega
  have hargc : c.argc < c.argv.length := by omega
  have hbody : c.querybuf.buf.drop (pos + line.length + 3) = body := by rw [heq, ← hlen, List.drop_left]
  have hset : c.querybuf.buf.set (pos + line.length + 3 + k) 0 = front ++ body.set k 0 := by
    rw [heq, ← hlen, List.set_append_right _ _ (by omega), Nat.add_sub_cancel_left]
  refine ⟨_, addArg_ok hk (by rw [hbody]; exact hin) hargc, ?_, ?_, ?_, fun args buf => ?_⟩
  · show (c.argv.set _ _).length = c.argc + 1 + n
    rw [List.length_set, hargv]
    omega
  · show (c.querybuf.buf.set _ _).drop _ = _
    rw [hset, ← hlen, List.drop_length_add_append, List.drop_set_of_lt (by omega)]
  · show (c.querybuf.buf.set _ _).take _ = _
    rw [hset, ← hlen, List.take_length_add_append, hfront]
    simp
  · rw [hbody, withArgs_cons hargc]

/-- **The loop finds the arguments that are there.** -/
theorem parsingLoop_of_items (h : Items n len s args s') (hbuf : c.querybuf.buf.drop pos = s)
    (hargv : c.argv.length = c.argc + n) :
    parsingLoop n pos len c = .ok (c.withArgs args (c.querybuf.buf.take pos ++ s')) := by
  induction h generalizing c pos with
  | done => rw [parsingLoop, ← hbuf, List.take_append_drop, withArgs_nil]
  | @broken n len s hne hstop =>
    have hhead : c.querybuf.buf[pos]? ≠ some dollar := by rwa [← List.head?_drop, hbuf]
    have hfound : ∃ r, strchr cr s = .ok r := by
      obtain ⟨_, _, -, -, hr⟩ | ⟨_, _, -, -, hr⟩ | ⟨hpass, -⟩ := strchr_cases cr s
      · exact ⟨_, hr⟩
      · exact ⟨_, hr⟩
      · rcases hstop with hm | hm
        · exact absurd rfl (hpass _ hm).1
        · exact absurd rfl (hpass _ hm).2
    obtain ⟨r, hr⟩ := hfound
    rw [parsingLoop, hbuf, hr]
    simp only [if_pos hhead]
    rw [← hbuf, List.take_append_drop, withArgs_nil]
  | @item n k len line body s' x args hline hk hin hrest ih =>
    obtain ⟨c₁, hadd, hargv₁, hdrop, htake, hwith⟩ := addArg_item hbuf hk hin hargv
    rw [parsingLoop_item hline hbuf, hadd, hk]
    show parsingLoop n (pos + line.length + 3 + (k + 2)) _ _ = _
    rw [ih hdrop hargv₁, hwith, htake]
    simp

/-- **The loop returns only for arguments that are there**, or with a broken line. -/
theorem items_of_parsingLoop (hargv : c.argv.length = c.argc + n) (h : parsingLoop n pos len c = .ok c') :
    ∃ args s', Items n len (c.querybuf.buf.drop pos) args s' := by
  induction n generalizing c pos len with
  | zero => exact ⟨[], _, .done⟩
  | succ n ih =>
    by_cases hhead : c.querybuf.buf[pos]? = some dollar
    · obtain ⟨before, rest, hbuf, hpass, hr⟩ | ⟨before, rest, hbuf, hpass, hr⟩ | ⟨hpass, hr⟩ :=
        strchr_cases cr (c.querybuf.buf.drop pos)
      · -- the line ends
        obtain ⟨line, rfl⟩ := exists_cons (by rw [← List.head?_drop, hbuf] at hhead; exact hhead) (by decide)
        obtain ⟨-, hline⟩ := List.forall_mem_cons.mp hpass
        rw [parsingLoop_item hline hbuf] at h
        obtain ⟨-, -, -, hafter⟩ := line_at hline hbuf
        by_cases hk : ∃ k : ℕ, (announced len line).toInt = k ∧ k < (rest.drop 1).length
        · obtain ⟨k, hk, hin⟩ := hk
          cases rest with
          | nil => cases hin
          | cons x body =>
            obtain ⟨c₁, hadd, hargv₁, hdrop, -, -⟩ := addArg_item hbuf hk hin hargv
            rw [hadd, hk] at h
            obtain ⟨args, s', hitems⟩ := ih hargv₁ h
            rw [show ((k : ℤ).toNat + 2) = k + 2 from rfl, hdrop] at hitems
            rw [hbuf]
            exact ⟨_, _, .item hline hk hin hitems⟩
        · rw [addArg_error (by rw [hafter]; exact fun k hlen hin => hk ⟨k, hlen, hin⟩)] at h
          cases h
      · -- `NULL` is subtracted
        rw [parsingLoop, hr] at h
        simp [hhead] at h
      · rw [parsingLoop, hr] at h
        cases h
    · refine ⟨[], _, .broken (by rwa [List.head?_drop]) ?_⟩
      obtain ⟨_, _, hbuf, -, -⟩ | ⟨_, _, hbuf, -, -⟩ | ⟨-, hr⟩ := strchr_cases cr (c.querybuf.buf.drop pos)
      · rw [hbuf]
        simp
      · rw [hbuf]
        simp
      · rw [parsingLoop, hr] at h
        cases h

/-! ### The message -/

/-- A buffer that is no request is left alone, and so is the client. -/
theorem parsingMessage_of_noRequest (h : NoRequest c.querybuf.buf) : c.parsingMessage = .ok c := by
  unfold parsingMessage
  obtain ⟨b, rest, hbuf, hb⟩ | ⟨line, rest, hbuf, hline⟩ := h
  · rw [hbuf]
    simp [hb]
  · have hpass : Passed cr (star :: line) := List.forall_mem_cons.mpr ⟨by decide, hline⟩
    have hcr : strchr cr c.querybuf.buf = .ok none := by
      rw [hbuf]
      exact strchr_append_zero hpass (by decide) rest
    rw [hcr, hbuf]
    simp

/-- What is read of the first line of a request. -/
theorem first_line {front : Bytes} (h : Announces buf n front s) : ∃ newline count, buf[0]? = some star ∧
    strchr cr buf = .ok (some newline) ∧ buf[1]? = some count ∧ count.toInt8.toInt = 48 + (n : ℤ) ∧
      buf.drop (newline + 2) = s ∧ buf.take (newline + 2) = front := by
  obtain ⟨line, rest, count, rfl, hline, hcount, hn, rfl, rfl⟩ := h
  have hpass : Passed cr (star :: line) := List.forall_mem_cons.mpr ⟨by decide, hline⟩
  refine ⟨(star :: line).length, count, rfl, strchr_append hpass rest, hcount, hn, ?_, ?_⟩
  · rw [List.drop_length_add_append]
    rfl
  · rw [List.take_length_add_append]
    rfl

/-- Behind the first line of a request `parsingMessage` goes into the loop. -/
theorem parsingMessage_of_announces {front : Bytes} (h : Announces c.querybuf.buf n front s) :
    ∃ pos, c.querybuf.buf.drop pos = s ∧ c.querybuf.buf.take pos = front ∧ c.parsingMessage =
      parsingLoop n pos 0 { c with argc := 0, argv := List.replicate n .unwritten } := by
  obtain ⟨newline, count, hstar, hcr, hcount, hn, hdrop, htake⟩ := first_line h
  refine ⟨newline + 2, hdrop, htake, ?_⟩
  unfold parsingMessage
  rw [hcr, hcount, hstar]
  simp only [ne_eq, not_true_eq_false, if_false, hn, add_sub_cancel_left]
  rw [if_neg (by omega)]
  rfl

/-- The objects of a request that starts with an empty `argv`. -/
theorem withArgs_start (c : KvClient) (n : ℕ) (args : List Bytes) (buf : Bytes) :
    KvClient.withArgs { c with argc := 0, argv := List.replicate n .unwritten } args buf = c.parsed n args buf := by
  simp [withArgs, parsed]

/-- A buffer whose first line does not leave the buffer. -/
theorem noRequest_or_announces (h : c.parsingMessage = .ok c') :
    NoRequest c.querybuf.buf ∨ ∃ n front s, Announces c.querybuf.buf n front s := by
  unfold parsingMessage at h
  cases hhead : c.querybuf.buf[0]? with
  | none =>
    rw [hhead] at h
    cases h
  | some b =>
    rw [hhead] at h
    have hfirst : c.querybuf.buf.head? = some b := by rw [List.head?_eq_getElem?, hhead]
    by_cases hb : b = star
    · subst hb
      obtain ⟨before, rest, hbuf, hpass, hr⟩ | ⟨before, rest, hbuf, hpass, hr⟩ | ⟨-, hr⟩ := strchr_cases cr c.querybuf.buf
      · obtain ⟨line, rfl⟩ := exists_cons (by rw [← hbuf]; exact hfirst) (by decide)
        rw [hr] at h
        cases hcount : c.querybuf.buf[1]? with
        | none => simp [hcount] at h
        | some count =>
          by_cases hneg : count.toInt8.toInt - 48 < 0
          · simp [hcount, hneg] at h
          · exact .inr ⟨(count.toInt8.toInt - 48).toNat, _, _, line, rest, count, hbuf,
              (List.forall_mem_cons.mp hpass).2, hcount, by omega, rfl, rfl⟩
      · obtain ⟨line, rfl⟩ := exists_cons (by rw [← hbuf]; exact hfirst) (by decide)
        exact .inl (.inr ⟨line, rest, hbuf, (List.forall_mem_cons.mp hpass).2⟩)
      · rw [hr] at h
        cases h
    · cases hbuf : c.querybuf.buf with
      | nil => simp [hbuf] at hfirst
      | cons d rest =>
        rw [hbuf, List.head?_cons, Option.some.injEq] at hfirst
        exact .inl (.inl ⟨d, rest, rfl, hfirst ▸ hb⟩)

/-- **`parsingMessage`** returns exactly for the buffers of the grammar: it leaves the
client alone, or has made the objects of the arguments. -/
theorem parsingMessage_iff : c.parsingMessage = .ok c' ↔ (NoRequest c.querybuf.buf ∧ c' = c) ∨
    ∃ n front s args s', Announces c.querybuf.buf n front s ∧ Items n 0 s args s' ∧
      c' = c.parsed n args (front ++ s') := by
  have hread : ∀ {n front s args s'}, Announces c.querybuf.buf n front s → Items n 0 s args s' →
      c.parsingMessage = .ok (c.parsed n args (front ++ s')) := by
    intro n front s args s' ha hi
    obtain ⟨pos, hdrop, htake, heq⟩ := parsingMessage_of_announces ha
    have hloop := parsingLoop_of_items (c := { c with argc := 0, argv := List.replicate n .unwritten }) hi hdrop
      (by simp)
    rw [heq, hloop, withArgs_start]
    exact congrArg (fun b => Except.ok (c.parsed n args (b ++ s'))) htake
  constructor
  · intro h
    obtain hno | ⟨n, front, s, ha⟩ := noRequest_or_announces h
    · rw [parsingMessage_of_noRequest hno] at h
      exact .inl ⟨hno, (Except.ok.inj h).symm⟩
    · obtain ⟨pos, hdrop, -, heq⟩ := parsingMessage_of_announces ha
      obtain ⟨args, s', hi⟩ := items_of_parsingLoop (by simp) (heq ▸ h)
      have hi' : Items n 0 s args s' := hdrop ▸ hi
      rw [hread ha hi'] at h
      exact .inr ⟨n, front, s, args, s', ha, hi', (Except.ok.inj h).symm⟩
  · rintro (⟨h, rfl⟩ | ⟨n, front, s, args, s', ha, hi, rfl⟩)
    · exact parsingMessage_of_noRequest h
    · exact hread ha hi

end KvClient

end EmbeddedKv.Net
