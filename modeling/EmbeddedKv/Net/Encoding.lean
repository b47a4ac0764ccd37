import EmbeddedKv.Net.Grammar

/-!
# Reading what was encoded

`parsingMessage` inverts the encoding of requests (`parsingMessage_encode`): the number of
arguments after `*`, then for each argument its length after `$` and its bytes, every line
ended by `\r\n`. The bytes of the arguments are arbitrary, and so is what earlier requests
left behind the encoding; it may also end with the buffer, behind which nothing can be read.

On other buffers `parsingMessage` may leave the buffer (`parsingMessage_inside_iff`).
-/

namespace EmbeddedKv.Net

open EmbeddedKv.Library EmbeddedKv.Flash

/-! ### The encoding -/

/-- The encoding of an argument. -/
def encodeArg (arg : Bytes) : Bytes := dollar :: decimal arg.length ++ cr :: lf :: (arg ++ [cr, lf])

/-- **The encoding of a request.** -/
def encode (args : List Bytes) : Bytes := star :: decimal args.length ++ cr :: lf :: args.flatMap encodeArg

/-- An argument in the buffer once it was read: a zero byte follows it. -/
def readArg (arg : Bytes) : Bytes := dollar :: decimal arg.length ++ cr :: lf :: (arg ++ [0, lf])

/-- A request in the buffer once it was read. -/
def readRequest (args : List Bytes) : Bytes := star :: decimal args.length ++ cr :: lf :: args.flatMap readArg

variable {c : KvClient} {args : List Bytes} {rest : Bytes}

theorem passed_decimal (n : ℕ) : Passed cr (decimal n) := by
  intro b hb
  have hd := isDigit_of_mem_decimal hb
  constructor
  · rintro rfl
    exact absurd hd (by decide)
  · rintro rfl
    exact absurd hd (by decide)

/-- The length that the line of an argument announces. -/
theorem announced_decimal {n : ℕ} (h0 : 0 < n) (hn : n < 2 ^ 63) (len : Int64) :
    (announced len (decimal n)).toInt = n := by
  rw [announced, leadingDigits_decimal, numeral_decimal h0 (by omega)]
  exact Int64.toInt_ofNat_of_lt hn

/-- Encoded arguments are there, in front of any others. -/
theorem items_encode_append {n : ℕ} {mem mem' : Bytes} {more : List Bytes} (hargs : ∀ a ∈ args, a ≠ [] ∧ a.length < 2 ^ 63)
    (hmore : ∀ len, Items n len mem more mem') (len : Int64) :
    Items (args.length + n) len (args.flatMap encodeArg ++ mem) (args ++ more) (args.flatMap readArg ++ mem') := by
  induction args generalizing len with
  | nil => simpa using hmore len
  | cons a args ih =>
    obtain ⟨⟨hne, hlen⟩, hargs⟩ := List.forall_mem_cons.mp hargs
    have hrest := ih hargs (announced len (decimal a.length))
    have hk := announced_decimal (List.length_pos_of_ne_nil hne) hlen len
    have hbytes : (a :: args).flatMap encodeArg ++ mem =
        dollar :: decimal a.length ++ cr :: lf :: (a ++ cr :: lf :: (args.flatMap encodeArg ++ mem)) := by
      simp [encodeArg]
    have hread : (a :: args).flatMap readArg ++ mem' = dollar :: decimal a.length ++ cr :: lf ::
        (((a ++ cr :: lf :: (args.flatMap encodeArg ++ mem)).set a.length 0).take (a.length + 2) ++
          (args.flatMap readArg ++ mem')) := by
      rw [List.set_append_right _ _ (Nat.le_refl _), Nat.sub_self, List.take_length_add_append]
      simp [readArg]
    have hitem := Items.item (x := lf) (n := args.length + n) (passed_decimal a.length) hk
      (show a.length < (a ++ cr :: lf :: (args.flatMap encodeArg ++ mem)).length by simp)
      (by rw [List.drop_length_add_append]; exact hrest)
    rw [List.take_left] at hitem
    rw [hbytes, hread, List.length_cons, Nat.add_right_comm]
    exact hitem

/-- **The arguments of an encoding** are there. -/
theorem items_encode (hargs : ∀ a ∈ args, a ≠ [] ∧ a.length < 2 ^ 63) (len : Int64) (rest : Bytes) :
    Items args.length len (args.flatMap encodeArg ++ rest) args (args.flatMap readArg ++ rest) := by
  simpa using items_encode_append hargs (fun _ => Items.done (s := rest)) len

/-- A first line with a number of a single digit. -/
theorem announces_count {n : ℕ} (h9 : n ≤ 9) (mem : Bytes) :
    Announces (star :: decimal n ++ cr :: lf :: mem) n (star :: decimal n ++ [cr, lf]) mem := by
  have hcount : ∀ n : Fin 10, decimal n.val = [UInt8.ofNat (48 + n.val)] ∧
      (UInt8.ofNat (48 + n.val)).toInt8.toInt = 48 + (n.val : ℤ) := by
    decide
  obtain ⟨hdec, hval⟩ := hcount ⟨n, by omega⟩
  refine ⟨decimal n, lf :: mem, _, rfl, passed_decimal _, ?_, hval, by simp, rfl⟩
  rw [hdec]
  rfl

/-- The first line of an encoding. -/
theorem announces_encode (h9 : args.length ≤ 9) (rest : Bytes) :
    Announces (encode args ++ rest) args.length (star :: decimal args.length ++ [cr, lf])
      (args.flatMap encodeArg ++ rest) := by
  have hbytes : encode args ++ rest = star :: decimal args.length ++ cr :: lf :: (args.flatMap encodeArg ++ rest) := by
    simp [encode]
  rw [hbytes]
  exact announces_count h9 _

/-! ### What `parsingMessage` makes of it -/

/-- An argument is shorter than its request. -/
theorem length_lt_of_mem {a : Bytes} (ha : a ∈ args) (hfit : (encode args).length ≤ kvIobufLen) : a.length < kvIobufLen := by
  have hsub : a.length < (encodeArg a).length := by
    simp [encodeArg]
    omega
  have hle : (encodeArg a).length ≤ (args.flatMap encodeArg).length :=
    (List.sublist_flatten_of_mem (List.mem_map_of_mem ha)).length_le
  have hall : (args.flatMap encodeArg).length ≤ (encode args).length := by
    simp [encode]
    omega
  omega

/-- The client of an encoded request. -/
theorem parsingMessage_parsed (h9 : args.length ≤ 9) (hne : ∀ a ∈ args, a ≠ [])
    (hfit : (encode args).length ≤ kvIobufLen) (hbuf : c.querybuf.buf = encode args ++ rest) :
    c.parsingMessage = .ok (c.parsed args.length args (readRequest args ++ rest)) := by
  have hitems := items_encode (fun a ha => ⟨hne a ha, (length_lt_of_mem ha hfit).trans (kvIobufLen_lt (by omega))⟩) 0 rest
  have hread : readRequest args ++ rest = star :: decimal args.length ++ [cr, lf] ++ (args.flatMap readArg ++ rest) := by
    simp [readRequest]
  rw [hread]
  exact KvClient.parsingMessage_iff.mpr (.inr ⟨_, _, _, _, _, hbuf ▸ announces_encode h9 rest, hitems, rfl⟩)

/-- **`parsingMessage` inverts the encoding**: `argv` has the arguments, each with its
length and followed by a zero byte, and what stands behind the encoding stays there. -/
theorem parsingMessage_encode (h9 : args.length ≤ 9) (hne : ∀ a ∈ args, a ≠ [])
    (hfit : (encode args).length ≤ kvIobufLen) (rest : Bytes) (hbuf : c.querybuf.buf = encode args ++ rest) :
    ∃ c', c.parsingMessage = .ok c' ∧ c'.argc = args.length ∧
      (∀ i (hi : i < args.length), ∃ msg, c'.argv[i]? = some (.object c.requests msg) ∧
        msg.len.toNat = args[i].length ∧ msg.buf = args[i] ++ [0]) ∧
      c'.querybuf.buf = readRequest args ++ rest := by
  refine ⟨_, parsingMessage_parsed h9 hne hfit hbuf, rfl, fun i hi => ⟨Msg.ofBytes args[i], ?_, ?_, rfl⟩, rfl⟩
  · show (args.map _ ++ _)[i]? = _
    rw [List.getElem?_append_left (by simpa using hi), List.getElem?_map, List.getElem?_eq_getElem hi]
    rfl
  · show (UInt32.ofNat args[i].length).toNat = _
    have hlt := length_lt_of_mem (List.getElem_mem hi) hfit
    rw [UInt32.toNat_ofNat', Nat.mod_eq_of_lt (hlt.trans (kvIobufLen_lt (by omega)))]

/-- Three arguments of bytes of the protocol, in front of an old reply. -/
theorem parsingMessage_encode_three : ∃ c', KvClient.parsingMessage
      ⟨⟨5, encode [[dollar, cr, lf], [0], [star, 49]] ++ [43, 79, 75, cr, lf]⟩, 0, [], 1⟩ = .ok c' ∧ c'.argc = 3 ∧
    c'.querybuf.buf = readRequest [[dollar, cr, lf], [0], [star, 49]] ++ [43, 79, 75, cr, lf] := by
  obtain ⟨c', hparse, hargc, -, hbuf⟩ := parsingMessage_encode
    (c := ⟨⟨5, encode [[dollar, cr, lf], [0], [star, 49]] ++ [43, 79, 75, cr, lf]⟩, 0, [], 1⟩)
    (show [[dollar, cr, lf], [0], [star, 49]].length ≤ 9 by simp) (by simp) (by decide) _ rfl
  exact ⟨c', hparse, hargc, hbuf⟩

/-! ### Leaving the buffer -/

/-- **`parsingMessage` stays inside the buffer** exactly for the buffers of the grammar:
every line that is searched ends in the buffer, no count is negative, and each argument
that is announced by a `$` has a length that is not negative and a place for the zero byte
behind it. -/
theorem parsingMessage_inside_iff (c : KvClient) : (∃ c', c.parsingMessage = .ok c') ↔ Inside c.querybuf.buf := by
  constructor
  · rintro ⟨c', h⟩
    rcases KvClient.parsingMessage_iff.mp h with ⟨hno, -⟩ | ⟨n, front, s, args, s', ha, hi, -⟩
    · exact .inl hno
    · exact .inr ⟨n, front, s, args, s', ha, hi⟩
  · rintro (hno | ⟨n, front, s, args, s', ha, hi⟩)
    · exact ⟨c, KvClient.parsingMessage_iff.mpr (.inl ⟨hno, rfl⟩)⟩
    · exact ⟨_, KvClient.parsingMessage_iff.mpr (.inr ⟨n, front, s, args, s', ha, hi, rfl⟩)⟩

/-- A first argument that the rest of the buffer is too short for. -/
theorem parsingMessage_of_long {front line rest : Bytes} {n : ℕ}
    (ha : Announces c.querybuf.buf (n + 1) front (dollar :: line ++ cr :: rest)) (hline : Passed cr line)
    (hlong : (rest.length : ℤ) ≤ (announced 0 line).toInt) : c.parsingMessage = .error .undefined := by
  obtain ⟨pos, hdrop, -, hparse⟩ := KvClient.parsingMessage_of_announces ha
  have hround := KvClient.parsingLoop_item (c := { c with argc := 0, argv := List.replicate (n + 1) .unwritten })
    hline hdrop n 0
  rw [hparse, hround, KvClient.addArg_error]
  intro k hk hlt
  change k < (c.querybuf.buf.drop _).length at hlt
  have hlen := congrArg List.length hdrop
  rw [List.length_drop, List.length_append, List.length_cons, List.length_cons] at hlen
  rw [List.length_drop] at hlt
  omega

/-- `*1\r\n$99999\r\n` in front of zero bytes: the zero byte behind the argument would fall
behind the buffer. -/
theorem parsingMessage_outside : ∃ rest : Bytes,
    (star :: 49 :: cr :: lf :: dollar :: 57 :: 57 :: 57 :: 57 :: 57 :: cr :: lf :: rest).length = kvIobufLen ∧
    KvClient.parsingMessage
      ⟨⟨0, star :: 49 :: cr :: lf :: dollar :: 57 :: 57 :: 57 :: 57 :: 57 :: cr :: lf :: rest⟩, 0, [], 1⟩ =
      .error .undefined := by
  obtain ⟨rest, hrest⟩ : ∃ rest : Bytes, rest.length = kvIobufLen - 12 := ⟨List.replicate _ 0, List.length_replicate⟩
  refine ⟨rest, ?_, ?_⟩
  · simp only [List.length_cons, hrest]
    rfl
  · have hlen : (announced 0 [57, 57, 57, 57, 57]).toInt = 99999 := by decide
    refine parsingMessage_of_long (n := 0) (show Announces _ _ _ (dollar :: [57, 57, 57, 57, 57] ++ cr :: lf :: rest) from
      ⟨[49], _, 49, rfl, by decide, rfl, by decide, rfl, rfl⟩) (by decide) ?_
    rw [hlen]
    simp only [List.length_cons, hrest, kvIobufLen]
    omega

end EmbeddedKv.Net
