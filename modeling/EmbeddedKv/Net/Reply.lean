import EmbeddedKv.Net.Loop

/-!
# The reply

The bytes that a round sends are a reply of the protocol only for SET, and for GET if what
is found has no zero byte in it and fits into the query buffer (`replied_iff`): the other
commands send what is left of the request, or end with a zero byte.
-/

namespace EmbeddedKv.Net

open EmbeddedKv.Library EmbeddedKv.Flash

variable {σ : Type*} {B : Storage σ} {c c₁ c₂ c' : KvClient} {s s' : σ} {received sent buf : Bytes} {args : List Bytes}
  {more : List Bytes} {n : ℕ} {name key val : Bytes} {found : Found}

/-! ### Replies of the protocol -/

/-- **A reply of the protocol**: a simple string, or a bulk string. -/
def WellFormed (sent : Bytes) : Prop :=
  (∃ text, (∀ b ∈ text, b ≠ cr ∧ b ≠ lf) ∧ sent = 43 :: text ++ [cr, lf]) ∨
    ∃ body, sent = bulkReply body.length body

theorem wellFormed_okReply : WellFormed okReply := .inl ⟨[79, 75], by simp [cr, lf], rfl⟩

theorem wellFormed_emptyReply : WellFormed emptyReply := .inr ⟨[43, 69, 109, 112, 116, 121, 33], by rfl⟩

theorem bulkReply_inj {m n : ℕ} {text body : Bytes} (h : bulkReply n text = bulkReply m body) : n = m ∧ text = body := by
  obtain ⟨hline, hrest⟩ := eq_of_append_cons (passed_decimal n) (passed_decimal m) (List.cons.inj h).2
  have hn := congrArg (decimalFrom 0) hline
  rw [decimalFrom_decimal, decimalFrom_decimal] at hn
  exact ⟨hn, List.append_cancel_right (List.cons.inj hrest).2⟩

/-- **A bulk string** announces the bytes that follow. -/
theorem wellFormed_bulkReply_iff {text : Bytes} : WellFormed (bulkReply n text) ↔ text.length = n := by
  constructor
  · rintro (⟨_, -, h⟩ | ⟨body, h⟩)
    · exact absurd (List.cons.inj h).1 (by decide)
    · obtain ⟨rfl, rfl⟩ := bulkReply_inj h
      rfl
  · rintro rfl
    exact .inr ⟨text, rfl⟩

/-- A reply starts with `+` or `$`, and ends with a line feed. -/
theorem WellFormed.ends (h : WellFormed sent) :
    (sent.head? = some 43 ∨ sent.head? = some dollar) ∧ sent.getLast? = some lf := by
  obtain ⟨text, -, rfl⟩ | ⟨body, rfl⟩ := h
  · refine ⟨.inl rfl, ?_⟩
    have hend : 43 :: text ++ [cr, lf] = 43 :: text ++ [cr] ++ [lf] := by simp
    rw [hend, List.getLast?_concat]
  · refine ⟨.inr rfl, ?_⟩
    have hend : bulkReply body.length body = dollar :: decimal body.length ++ cr :: lf :: (body ++ [cr]) ++ [lf] := by
      simp [bulkReply]
    rw [hend, List.getLast?_concat]

/-! ### What GET prints -/

/-- **What is found can be printed**: its bytes are not zero, a zero byte is behind them,
and the reply fits into the query buffer. -/
def Found.Printable : Found → Prop
  | .absent => True
  | .memory val => NulFree val ∧ (bulkReply val.length val).length < kvIobufLen
  | .flash val beyond => NulFree val ∧ beyond.head? = some 0 ∧ (bulkReply val.length val).length < kvIobufLen

/-- A bulk string is longer than what it announces. -/
theorem lt_length_bulkReply (n : ℕ) (text : Bytes) : text.length < (bulkReply n text).length := by
  simp only [bulkReply, List.length_cons, List.length_append]
  omega

/-- What GET prints of bytes with a zero byte behind them. -/
theorem bulkReply_cstr_iff {mem : Bytes} (h : 0 ∈ val ++ mem) :
    WellFormed (bulkReply val.length (cstr (val ++ mem))) ∧
        (bulkReply val.length (cstr (val ++ mem))).length < kvIobufLen ↔
      NulFree val ∧ mem.head? = some 0 ∧ (bulkReply val.length val).length < kvIobufLen := by
  rw [wellFormed_bulkReply_iff, length_cstr_append_iff h, and_assoc]
  refine and_congr_right fun hval => and_congr_right fun hmem => ?_
  have hlen := (length_cstr_append_iff h).mpr ⟨hval, hmem⟩
  simp only [bulkReply, List.length_cons, List.length_append, hlen]

/-- **What GET sends** is a reply of the protocol. -/
theorem Found.printable_iff :
    found.Printable ↔ ∃ text, found.reply = .ok text ∧ WellFormed text ∧ text.length < kvIobufLen := by
  have hshort : ∀ {val : Bytes}, (bulkReply val.length val).length < kvIobufLen → ¬ 2 ^ 31 ≤ val.length := by
    intro val hval hlong
    have hlt := lt_length_bulkReply val.length val
    have hsize : kvIobufLen < 2 ^ 31 := kvIobufLen_lt (by omega)
    omega
  cases found with
  | absent => exact ⟨fun _ => ⟨_, rfl, wellFormed_emptyReply, by decide⟩, fun _ => trivial⟩
  | memory val =>
    have hiff := bulkReply_cstr_iff (show 0 ∈ val ++ [0] by simp)
    constructor
    · rintro ⟨hval, hfit⟩
      exact ⟨_, if_neg (hshort hfit), hiff.mpr ⟨hval, rfl, hfit⟩⟩
    · rintro ⟨text, htext, hgood⟩
      simp only [Found.reply] at htext
      split_ifs at htext
      cases htext
      obtain ⟨hval, -, hfit⟩ := hiff.mp hgood
      exact ⟨hval, hfit⟩
  | flash val beyond =>
    constructor
    · rintro ⟨hval, hmem, hfit⟩
      have hzero : 0 ∈ val ++ beyond := List.mem_append_right _ (List.mem_of_mem_head? hmem)
      exact ⟨_, if_neg (not_or.mpr ⟨hshort hfit, not_not.mpr hzero⟩), (bulkReply_cstr_iff hzero).mpr ⟨hval, hmem, hfit⟩⟩
    · rintro ⟨text, htext, hgood⟩
      simp only [Found.reply] at htext
      split_ifs at htext with hbad
      cases htext
      exact (bulkReply_cstr_iff (not_not.mp (not_or.mp hbad).2)).mp hgood

/-! ### Rounds -/

namespace KvClient

theorem free_ok_iff {i : ℕ} :
    c.free i = .ok c' ↔ (∃ msg, c.arg i = some msg) ∧ c' = { c with argv := c.argv.set i .freed } := by
  unfold free
  cases c.arg i with
  | none => simp
  | some msg => simp [eq_comm]

/-- The client once two arguments were freed. -/
def released (c : KvClient) : KvClient := { c with argv := (c.argv.set 0 .freed).set 1 .freed }

/-- Both are there. -/
theorem released_iff : (∃ c₁, c.free 0 = .ok c₁ ∧ c₁.free 1 = .ok c') ↔
    (∃ msg, c.arg 0 = some msg) ∧ (∃ msg, c.arg 1 = some msg) ∧ c' = c.released := by
  have hother : KvClient.arg { c with argv := c.argv.set 0 .freed } 1 = c.arg 1 := by
    simp only [arg]
    rw [List.getElem?_set_ne (by decide)]
  constructor
  · rintro ⟨c₁, h₀, h₁⟩
    obtain ⟨hzero, rfl⟩ := free_ok_iff.mp h₀
    obtain ⟨hone, rfl⟩ := free_ok_iff.mp h₁
    exact ⟨hzero, hother ▸ hone, rfl⟩
  · rintro ⟨hzero, hone, rfl⟩
    exact ⟨_, free_ok_iff.mpr ⟨hzero, rfl⟩, free_ok_iff.mpr ⟨hother.symm ▸ hone, rfl⟩⟩

end KvClient

/-- **A round** with arguments that are there: the command, and what it left in the query
buffer. -/
theorem round_iff (hrecv : received.length ≤ kvIobufLen) (hle : args.length ≤ n)
    (hparse : (c.recv received).parsingMessage = .ok ((c.recv received).parsed n args buf)) :
    Round B (c, s) received sent (c', s') ↔ 2 ≤ args.length ∧
      ∃ c₂, ((c.recv received).parsed n args buf).ProcessCMD B s c₂ s' ∧
        c₂.querybuf.len.toNat ≤ c₂.querybuf.buf.length ∧ sent = c₂.querybuf.buf.take c₂.querybuf.len.toNat ∧
        c' = c₂.released := by
  have harg : ∀ {c₂ : KvClient}, ((c.recv received).parsed n args buf).ProcessCMD B s c₂ s' → ∀ i,
      (∃ msg, c₂.arg i = some msg) ↔ i < args.length := by
    intro c₂ hcmd i
    have hsame : c₂.arg i = ((c.recv received).parsed n args buf).arg i := by
      rw [KvClient.arg, KvClient.arg, hcmd.frame.1]
    rw [hsame, KvClient.arg_parsed _ hle, ← Option.isSome_iff_exists, Option.isSome_map, isSome_getElem?]
  constructor
  · intro h
    cases h with
    | round _ hparse' hcmd hfree₀ hfree₁ hsend =>
      obtain rfl := Except.ok.inj (hparse.symm.trans hparse')
      obtain ⟨-, hone, rfl⟩ := KvClient.released_iff.mp ⟨_, hfree₀, hfree₁⟩
      exact ⟨(harg hcmd 1).mp hone, _, hcmd, hsend, rfl, rfl⟩
  · rintro ⟨htwo, c₂, hcmd, hsend, rfl, rfl⟩
    obtain ⟨c₃, hfree₀, hfree₁⟩ := KvClient.released_iff.mpr
      ⟨(harg hcmd 0).mpr (Nat.lt_of_lt_of_le Nat.zero_lt_two htwo), (harg hcmd 1).mpr htwo, rfl⟩
    exact .round hrecv hparse hcmd hfree₀ hfree₁ hsend

/-! ### What is sent -/

/-- GET prints more than the query buffer has place for, or bytes that do not end. -/
def KvClient.Overruns (B : Storage σ) (c : KvClient) (s : σ) : Prop :=
  ∃ name key found s', c.arg 0 = some name ∧ command name = .get ∧ c.arg 1 = some key ∧
    B.getCommand s key found s' ∧ ∀ text c', found.reply = .ok text → c.putReply text ≠ .ok c'

/-- **A request gets one reply of the protocol**: the round comes to its end, and what it
sends is a reply. -/
def Replied (B : Storage σ) (c : KvClient) (s : σ) (received : Bytes) : Prop :=
  (∃ c₁, (c.recv received).parsingMessage = .ok c₁ ∧ ¬ c₁.Overruns B s) ∧
    (∃ sent t, Round B (c, s) received sent t) ∧ ∀ sent t, Round B (c, s) received sent t → WellFormed sent

/-- The requests that get one: SET, if it comes to its end, and GET, if it does and all
that it may find can be printed. -/
def Answered (B : Storage σ) (s : σ) : List Bytes → Prop
  | name :: key :: args =>
    match command (Msg.ofBytes name) with
    | .set => ∃ val s', args.head? = some val ∧ B.setCommand s (.ofBytes key) (.ofBytes val) s'
    | .get => (∃ found s', B.getCommand s (.ofBytes key) found s') ∧
        ∀ found s', B.getCommand s (.ofBytes key) found s' → found.Printable
    | _ => False
  | _ => False

/-- What is left of a request is no reply. -/
theorem not_wellFormed_take {k : ℕ} (h : buf.head? = some star) : ¬ WellFormed (buf.take k) := by
  intro hgood
  rcases hgood.ends.1 with hhead | hhead <;> rw [List.head?_take, h] at hhead <;> split_ifs at hhead
  · cases hhead
  · cases hhead

/-- A command that is neither SET nor GET sends no reply. -/
theorem KvClient.ProcessCMD.not_wellFormed {name : Msg} (h : c.ProcessCMD B s c' s') (hname : c.arg 0 = some name)
    (hset : command name ≠ .set) (hget : command name ≠ .get) (hstar : c.querybuf.buf.head? = some star) :
    ¬ WellFormed (c'.querybuf.buf.take c'.querybuf.len.toNat) := by
  have hinv := h.inv hname
  cases hcmd : command name with
  | set => exact absurd hcmd hset
  | get => exact absurd hcmd hget
  | scan | kill | evict =>
    rw [hcmd] at hinv
    rw [hinv.1]
    exact not_wellFormed_take hstar
  | other =>
    rw [hcmd] at hinv
    have hreply := hinv.1
    unfold putOther at hreply
    split_ifs at hreply
    cases hreply
    intro hgood
    cases hgood.ends.2

/-- A reply that was put into the query buffer is sent. -/
theorem KvClient.take_putReply {text : Bytes} (h : c.putReply text = .ok c') (hlen : c.querybuf.buf.length = kvIobufLen) :
    c'.querybuf.len.toNat ≤ c'.querybuf.buf.length ∧ c'.querybuf.buf.take c'.querybuf.len.toNat = text := by
  unfold putReply at h
  split_ifs at h with hfit
  cases h
  have hsize : kvIobufLen < 2 ^ 32 := kvIobufLen_lt (by omega)
  have htext : (UInt32.ofNat text.length).toNat = text.length := UInt32.toNat_ofNat_of_lt' (show _ < 2 ^ 32 by omega)
  constructor
  · rw [htext, List.length_append]
    omega
  · rw [htext, List.take_left]

/-! ### The commands -/

namespace KvClient

variable {name key : Msg}

theorem processCMD_set_iff (hname : c.arg 0 = some name) (hcmd : command name = .set) :
    c.ProcessCMD B s c' s' ↔ ∃ key val, c.arg 1 = some key ∧ c.arg 2 = some val ∧ B.setCommand s key val s' ∧
      c.putReply okReply = .ok c' := by
  constructor
  · intro h
    have hinv := h.inv hname
    rw [hcmd] at hinv
    exact hinv
  · rintro ⟨key, val, hkey, hval, hset, hreply⟩
    exact .set hname hcmd hkey hval hset hreply

theorem processCMD_get_iff (hname : c.arg 0 = some name) (hcmd : command name = .get) :
    c.ProcessCMD B s c' s' ↔ ∃ key found text, c.arg 1 = some key ∧ B.getCommand s key found s' ∧
      found.reply = .ok text ∧ c.putReply text = .ok c' := by
  constructor
  · intro h
    have hinv := h.inv hname
    rw [hcmd] at hinv
    exact hinv
  · rintro ⟨key, found, text, hkey, hget, htext, hreply⟩
    exact .get hname hcmd hkey hget htext hreply

theorem putReply_ok_iff {text : Bytes} : (∃ c', c.putReply text = .ok c') ↔ text.length < c.querybuf.buf.length := by
  unfold putReply
  split_ifs with h
  · simp only [exists_false, false_iff]
    omega
  · exact ⟨fun _ => Nat.not_le.mp h, fun _ => ⟨_, rfl⟩⟩

end KvClient

/-! ### The requests that are answered -/

section

variable (hrecv : received.length ≤ kvIobufLen) (hle : args.length ≤ n)
  (hparse : (c.recv received).parsingMessage = .ok ((c.recv received).parsed n args buf))
  (hlen : buf.length = kvIobufLen)

include hrecv hle hparse hlen

/-- **A round of SET** with a key and a value. -/
theorem round_set_iff (hargs : args = name :: key :: val :: more) (hcmd : command (.ofBytes name) = .set) :
    Round B (c, s) received sent (c', s') ↔ sent = okReply ∧ B.setCommand s (.ofBytes key) (.ofBytes val) s' ∧
      ∃ c₂, ((c.recv received).parsed n args buf).putReply okReply = .ok c₂ ∧ c' = c₂.released := by
  have harg := KvClient.arg_parsed (c.recv received) hle buf
  subst hargs
  rw [round_iff hrecv hle hparse]
  constructor
  · rintro ⟨-, c₂, hrun, -, rfl, rfl⟩
    obtain ⟨key', val', hkey, hval, hset, hreply⟩ := (KvClient.processCMD_set_iff (harg 0) hcmd).mp hrun
    obtain rfl := Option.some.inj ((harg 1).symm.trans hkey)
    obtain rfl := Option.some.inj ((harg 2).symm.trans hval)
    exact ⟨(KvClient.take_putReply hreply hlen).2, hset, c₂, hreply, rfl⟩
  · rintro ⟨rfl, hset, c₂, hreply, rfl⟩
    obtain ⟨hfit, htake⟩ := KvClient.take_putReply hreply hlen
    exact ⟨by simp, c₂, (KvClient.processCMD_set_iff (harg 0) hcmd).mpr ⟨_, _, harg 1, harg 2, hset, hreply⟩, hfit,
      htake.symm, rfl⟩

/-- **A round of GET** with a key. -/
theorem round_get_iff (hargs : args = name :: key :: more) (hcmd : command (.ofBytes name) = .get) :
    Round B (c, s) received sent (c', s') ↔ ∃ found, B.getCommand s (.ofBytes key) found s' ∧ found.reply = .ok sent ∧
      ∃ c₂, ((c.recv received).parsed n args buf).putReply sent = .ok c₂ ∧ c' = c₂.released := by
  have harg := KvClient.arg_parsed (c.recv received) hle buf
  subst hargs
  rw [round_iff hrecv hle hparse]
  constructor
  · rintro ⟨-, c₂, hrun, -, rfl, rfl⟩
    obtain ⟨key', found, text, hkey, hget, htext, hreply⟩ := (KvClient.processCMD_get_iff (harg 0) hcmd).mp hrun
    obtain rfl := Option.some.inj ((harg 1).symm.trans hkey)
    rw [(KvClient.take_putReply hreply hlen).2]
    exact ⟨found, hget, htext, c₂, hreply, rfl⟩
  · rintro ⟨found, hget, htext, c₂, hreply, rfl⟩
    obtain ⟨hfit, htake⟩ := KvClient.take_putReply hreply hlen
    exact ⟨by simp, c₂, (KvClient.processCMD_get_iff (harg 0) hcmd).mpr ⟨_, found, _, harg 1, hget, htext, hreply⟩, hfit,
      htake.symm, rfl⟩

/-- **SET** is answered if it comes to its end. -/
theorem replied_set (hargs : args = name :: key :: more) (hcmd : command (.ofBytes name) = .set) :
    Replied B c s received ↔ ∃ val s', more.head? = some val ∧ B.setCommand s (.ofBytes key) (.ofBytes val) s' := by
  have harg := KvClient.arg_parsed (c.recv received) hle buf
  have hname : ((c.recv received).parsed n args buf).arg 0 = some (.ofBytes name) := by rw [harg, hargs]; rfl
  constructor
  · rintro ⟨-, ⟨sent, ⟨c', s'⟩, hround⟩, -⟩
    cases more with
    | nil =>
      -- there is no value
      obtain ⟨-, c₂, hrun, -⟩ := (round_iff hrecv hle hparse).mp hround
      obtain ⟨-, val, -, hval, -⟩ := (KvClient.processCMD_set_iff hname hcmd).mp hrun
      rw [harg, hargs] at hval
      cases hval
    | cons val more => exact ⟨val, s', rfl, ((round_set_iff hrecv hle hparse hlen hargs hcmd).mp hround).2.1⟩
  · rintro ⟨val, s', hval, hset⟩
    obtain ⟨more, rfl⟩ := List.head?_eq_some_iff.mp hval
    obtain ⟨c₂, hreply⟩ := (KvClient.putReply_ok_iff (c := (c.recv received).parsed n args buf)).mpr
      (show okReply.length < buf.length by rw [hlen]; decide)
    refine ⟨⟨_, hparse, ?_⟩, ⟨_, _, (round_set_iff hrecv hle hparse hlen hargs hcmd).mpr ⟨rfl, hset, c₂, hreply, rfl⟩⟩,
      fun sent t hround => ?_⟩
    · rintro ⟨name', -, -, -, hname', hget, -⟩
      rw [← Option.some.inj (hname.symm.trans hname'), hcmd] at hget
      cases hget
    · rw [((round_set_iff hrecv hle hparse hlen hargs hcmd).mp hround).1]
      exact wellFormed_okReply

/-- **GET** is answered if it comes to its end, and all that it may find can be printed. -/
theorem replied_get (hargs : args = name :: key :: more) (hcmd : command (.ofBytes name) = .get) :
    Replied B c s received ↔ (∃ found s', B.getCommand s (.ofBytes key) found s') ∧
      ∀ found s', B.getCommand s (.ofBytes key) found s' → found.Printable := by
  have harg := KvClient.arg_parsed (c.recv received) hle buf
  have hname : ((c.recv received).parsed n args buf).arg 0 = some (.ofBytes name) := by rw [harg, hargs]; rfl
  have hkey : ((c.recv received).parsed n args buf).arg 1 = some (.ofBytes key) := by rw [harg, hargs]; rfl
  have hput : ∀ text : Bytes, (∃ c₂, ((c.recv received).parsed n args buf).putReply text = .ok c₂) ↔
      text.length < kvIobufLen := fun text => hlen ▸ KvClient.putReply_ok_iff
  constructor
  · rintro ⟨⟨c₁, hparse', hfits⟩, ⟨sent, t, hround⟩, hgood⟩
    obtain rfl := Except.ok.inj (hparse.symm.trans hparse')
    obtain ⟨found, hget, -⟩ := (round_get_iff hrecv hle hparse hlen hargs hcmd).mp hround
    refine ⟨⟨found, _, hget⟩, fun found s' hget => Found.printable_iff.mpr ?_⟩
    by_contra hbad
    refine hfits ⟨_, _, found, s', hname, hcmd, hkey, hget, fun text c₂ htext hreply => hbad ⟨text, htext, ?_, ?_⟩⟩
    · exact hgood _ _ ((round_get_iff hrecv hle hparse hlen hargs hcmd).mpr ⟨found, hget, htext, c₂, hreply, rfl⟩)
    · exact (hput text).mp ⟨c₂, hreply⟩
  · rintro ⟨⟨found, s', hget⟩, hprint⟩
    refine ⟨⟨_, hparse, ?_⟩, ?_, fun sent t hround => ?_⟩
    · rintro ⟨-, key', found', s'', -, -, hkey', hget', hover⟩
      obtain rfl := Option.some.inj (hkey.symm.trans hkey')
      obtain ⟨text, htext, -, hfit⟩ := Found.printable_iff.mp (hprint found' s'' hget')
      obtain ⟨c₂, hreply⟩ := (hput text).mpr hfit
      exact hover text c₂ htext hreply
    · obtain ⟨text, htext, -, hfit⟩ := Found.printable_iff.mp (hprint found s' hget)
      obtain ⟨c₂, hreply⟩ := (hput text).mpr hfit
      exact ⟨text, _, (round_get_iff hrecv hle hparse hlen hargs hcmd).mpr ⟨found, hget, htext, c₂, hreply, rfl⟩⟩
    · obtain ⟨found', hget', htext, -⟩ := (round_get_iff hrecv hle hparse hlen hargs hcmd).mp hround
      obtain ⟨text, htext', hgood, -⟩ := Found.printable_iff.mp (hprint found' _ hget')
      obtain rfl := Except.ok.inj (htext.symm.trans htext')
      exact hgood

omit hlen in
/-- **No other command** is answered. -/
theorem not_replied (hstar : buf.head? = some star) (hname : args.head? = some name)
    (hset : command (.ofBytes name) ≠ .set) (hget : command (.ofBytes name) ≠ .get) : ¬ Replied B c s received := by
  rintro ⟨-, ⟨sent, t, hround⟩, hgood⟩
  have hbad := hgood sent t hround
  obtain ⟨-, c₂, hrun, -, rfl, -⟩ := (round_iff hrecv hle hparse).mp hround
  have harg : ((c.recv received).parsed n args buf).arg 0 = some (.ofBytes name) := by
    rw [KvClient.arg_parsed _ hle, ← List.head?_eq_getElem?, hname]
    rfl
  exact hrun.not_wellFormed harg hset hget hstar hbad

end

/-- The buffer of a parsed request has its length. -/
theorem KvClient.length_buf_parsed (hbuf : c.querybuf.buf.length = kvIobufLen) (hrecv : received.length ≤ kvIobufLen)
    (hparse : (c.recv received).parsingMessage = .ok ((c.recv received).parsed n args buf)) : buf.length = kvIobufLen := by
  have hread := (frame_parsingMessage hparse).1
  rw [length_buf_recv c (hbuf ▸ hrecv), hbuf] at hread
  exact hread

/-- **Which requests get one reply of the protocol**, for every content of the query buffer
in which `parsingMessage` finds arguments, whatever earlier requests and replies left in it,
and for every store. -/
theorem replied_iff (hbuf : c.querybuf.buf.length = kvIobufLen) (hrecv : received.length ≤ kvIobufLen)
    (hargs : Arguments (c.recv received).querybuf.buf args) : Replied B c s received ↔ Answered B s args := by
  obtain ⟨n, buf, hle, hstar, hparse⟩ := hargs.parsingMessage
  have hlen := KvClient.length_buf_parsed hbuf hrecv hparse
  have hfew : Replied B c s received → 2 ≤ args.length := by
    rintro ⟨-, ⟨sent, t, hround⟩, -⟩
    exact ((round_iff hrecv hle hparse).mp hround).1
  match args with
  | [] => exact ⟨fun h => absurd (hfew h) (by simp), False.elim⟩
  | [_] => exact ⟨fun h => absurd (hfew h) (by simp), False.elim⟩
  | name :: key :: more =>
    rw [Answered]
    cases hcmd : command (.ofBytes name) with
    | set => exact replied_set hrecv hle hparse hlen rfl hcmd
    | get => exact replied_get hrecv hle hparse hlen rfl hcmd
    | scan | kill | evict | other =>
      exact iff_of_false (not_replied hrecv hle hparse hstar rfl (by rw [hcmd]; nofun) (by rw [hcmd]; nofun)) id

/-- `SET a b` is answered. -/
theorem replied_iff_set : Replied (memLru (fun _ => 0) .direct .undefined True) .fresh
    (.start (.openEmpty ⟨20, 0, 1000⟩ 0)) (encode [[83, 69, 84], [97], [98]]) := by
  have hargs := arguments_encode (show [[83, 69, 84], [97], [98]].length ≤ 9 by simp) (by simp) (by decide) .fresh
  obtain ⟨db, hdb⟩ : ∃ db, (Tiers.Server.start (.openEmpty ⟨20, 0, 1000⟩ 0)).db.setCommand [97] [98] = .ok db := ⟨_, rfl⟩
  exact (replied_iff KvClient.connected_fresh.1 (by decide) hargs).mpr
    ⟨[98], ⟨db, .waiting, false⟩, rfl, _, ⟨_, .inl rfl, .refl⟩, .set rfl hdb rfl⟩

/-- `ping a` is not, as no other name is. -/
theorem not_replied_ping : ¬ Replied (memLru (fun _ => 0) .direct .undefined True) .fresh
    (.start (.openEmpty ⟨20, 0, 1000⟩ 0)) (encode [[112, 105, 110, 103], [97]]) := by
  have hargs := arguments_encode (show [[112, 105, 110, 103], [97]].length ≤ 9 by simp) (by simp) (by decide) .fresh
  obtain ⟨n, buf, hle, hstar, hparse⟩ := hargs.parsingMessage
  have hcmd : command (.ofBytes [112, 105, 110, 103]) = .other := rfl
  exact not_replied (by decide) hle hparse hstar rfl (by rw [hcmd]; nofun) (by rw [hcmd]; nofun)

end EmbeddedKv.Net
