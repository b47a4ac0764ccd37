import EmbeddedKv.Library.Runs
import EmbeddedKv.Net.Encoding
import EmbeddedKv.Net.MemLru

/-!
# The arguments of the current request

Every round of the loop parses a request, executes it and frees two arguments.
`parsingMessage` gives up without a word on a buffer that is no request, and at an argument
without `$`; the round goes on with what is in `argv` then. It uses arguments of its own
request only if there are enough of them in the buffer (`reach_uses_own`).
-/

namespace EmbeddedKv.Net

open EmbeddedKv.Library EmbeddedKv.Flash

variable {σ : Type*} {B : Storage σ} {c c' c₁ c₂ : KvClient} {s s' : σ} {buf mem mem' front received : Bytes}
  {args args' : List Bytes} {n n' i : ℕ} {len : Int64}

/-! ### The arguments in a buffer -/

/-- The arguments that `parsingMessage` finds in the buffer. -/
def Arguments (buf : Bytes) (args : List Bytes) : Prop :=
  ∃ n front mem mem', Announces buf n front mem ∧ Items n 0 mem args mem'

/-- `parsingMessage` gives up: the buffer is no request, or an argument does not start with
`$`. -/
def Rejected (buf : Bytes) : Prop :=
  NoRequest buf ∨ ∃ n front mem args mem', Announces buf n front mem ∧ Items n 0 mem args mem' ∧ args.length < n

/-- The number of arguments that a command needs, its name included. -/
def Command.needs (cmd : Command) : ℕ := 1 + cmd.args.length

/-- There are fewer arguments than the command needs. -/
def TooFew (buf : Bytes) : Prop :=
  ∃ args, Arguments buf args ∧
    args.length < (args.head?.map fun name => (command (Msg.ofBytes name)).needs).getD 1

/-- **There are enough arguments** for the command, and two that can be freed. -/
def Enough (buf : Bytes) : Prop :=
  ∃ args, Arguments buf args ∧ 2 ≤ args.length ∧
    ∀ name, args.head? = some name → (command (Msg.ofBytes name)).needs ≤ args.length

/-- The command of the buffer does nothing to the store. -/
def Idle (buf : Bytes) : Prop :=
  ∃ args name, Arguments buf args ∧ args.head? = some name ∧
    (command (Msg.ofBytes name) = .scan ∨ command (Msg.ofBytes name) = .other)

theorem Items.length_le {mem mem' : Bytes} (h : Items n len mem args mem') : args.length ≤ n := by
  induction h with
  | done => exact Nat.le_refl 0
  | broken => exact Nat.zero_le _
  | item _ _ _ _ ih => exact Nat.succ_le_succ ih

/-- `parsingMessage` changes bytes of the buffer, not their number. -/
theorem Items.length_eq {mem mem' : Bytes} (h : Items n len mem args mem') : mem'.length = mem.length := by
  induction h with
  | done => rfl
  | broken => rfl
  | item _ _ _ _ ih =>
    simp only [List.length_append, List.length_cons, List.length_take, List.length_set, ih, List.length_drop]
    omega

theorem Announces.length_eq (h : Announces buf n front mem) : (front ++ mem).length = buf.length := by
  obtain ⟨line, rest, count, rfl, -, -, -, rfl, rfl⟩ := h
  simp only [List.append_assoc, List.cons_append, List.take_append_drop]

/-- The message of bytes tells the bytes. -/
theorem Msg.ofBytes_injective : Function.Injective Msg.ofBytes := fun _ _ h =>
  List.append_cancel_right (congrArg Msg.buf h)

namespace KvClient

/-! ### Places of `argv` -/

/-- What is in `argv` once a request was parsed. -/
theorem getElem?_parsed (c : KvClient) (hle : args.length ≤ n) (buf : Bytes) (i : ℕ) :
    (c.parsed n args buf).argv[i]? = if h : i < args.length then some (.object c.requests (Msg.ofBytes args[i]))
      else if i < n then some .unwritten else none := by
  show (args.map _ ++ List.replicate _ _)[i]? = _
  by_cases hi : i < args.length
  · rw [List.getElem?_append_left (by simpa using hi), dif_pos hi]
    simp [hi]
  · rw [List.getElem?_append_right (by simpa using hi), dif_neg hi, List.getElem?_replicate, List.length_map]
    congr 1
    simp only [eq_iff_iff]
    omega

theorem arg_parsed (c : KvClient) (hle : args.length ≤ n) (buf : Bytes) (i : ℕ) :
    (c.parsed n args buf).arg i = args[i]?.map Msg.ofBytes := by
  rw [arg, getElem?_parsed c hle]
  by_cases hi : i < args.length
  · rw [dif_pos hi, List.getElem?_eq_getElem hi]
    rfl
  · rw [dif_neg hi, List.getElem?_eq_none (Nat.not_lt.mp hi)]
    by_cases hn : i < n
    · rw [if_pos hn]
      rfl
    · rw [if_neg hn]
      rfl

/-- The arguments that were found are the ones that count. -/
theorem own_parsed (c : KvClient) (hle : args.length ≤ n) (buf : Bytes) (i : ℕ) :
    (c.parsed n args buf).Own i ↔ i < args.length := by
  constructor
  · exact And.left
  · intro hi
    exact ⟨hi, _, by rw [getElem?_parsed c hle, dif_pos hi]; rfl⟩

/-! ### Rounds -/

theorem length_buf_recv (c : KvClient) (h : received.length ≤ c.querybuf.buf.length) :
    (c.recv received).querybuf.buf.length = c.querybuf.buf.length := by
  show (received ++ c.querybuf.buf.drop received.length).length = _
  rw [List.length_append, List.length_drop]
  omega

/-- `parsingMessage` leaves the length of the buffer and the number of requests. -/
theorem frame_parsingMessage (h : c.parsingMessage = .ok c') :
    c'.querybuf.buf.length = c.querybuf.buf.length ∧ c'.requests = c.requests := by
  rcases parsingMessage_iff.mp h with ⟨-, rfl⟩ | ⟨n, front, mem, args, mem', ha, hi, rfl⟩
  · exact ⟨rfl, rfl⟩
  · refine ⟨?_, rfl⟩
    show (front ++ mem').length = _
    rw [List.length_append, hi.length_eq, ← List.length_append, ha.length_eq]

/-- A reply leaves everything else of the client. -/
theorem frame_putReply {text : Bytes} (h : c.putReply text = .ok c') : c'.argv = c.argv ∧ c'.argc = c.argc ∧
    c'.requests = c.requests ∧ c'.querybuf.buf.length = c.querybuf.buf.length := by
  unfold putReply at h
  split_ifs at h with hfit
  cases h
  refine ⟨rfl, rfl, rfl, ?_⟩
  simp only [List.length_append, List.length_cons, List.length_drop]
  omega

theorem frame_putOther (h : c.putOther = .ok c') : c'.argv = c.argv ∧ c'.argc = c.argc ∧
    c'.requests = c.requests ∧ c'.querybuf.buf.length = c.querybuf.buf.length := by
  unfold putOther at h
  split_ifs at h with hfit
  cases h
  refine ⟨rfl, rfl, rfl, ?_⟩
  simp only [List.length_append, List.length_cons, List.length_nil, List.length_drop]
  omega

/-- A command leaves everything of the client but the content of the query buffer. -/
theorem ProcessCMD.frame (h : c.ProcessCMD B s c' s') : c'.argv = c.argv ∧ c'.argc = c.argc ∧
    c'.requests = c.requests ∧ c'.querybuf.buf.length = c.querybuf.buf.length := by
  cases h with
  | set _ _ _ _ _ hreply => exact frame_putReply hreply
  | get _ _ _ _ _ hreply => exact frame_putReply hreply
  | scan | kill | evict => exact ⟨rfl, rfl, rfl, rfl⟩
  | other _ _ hreply => exact frame_putOther hreply

/-- The buffer has its length, and the objects in `argv` are not from later requests. -/
structure Dated (c : KvClient) : Prop where
  /-- The length of the query buffer. -/
  length : c.querybuf.buf.length = kvIobufLen
  /-- The requests of the objects. -/
  le : ∀ (i r : ℕ) (msg : Msg), c.argv[i]? = some (Arg.object r msg) → r ≤ c.requests

theorem Connected.dated (h : c.Connected) : c.Dated := by
  refine ⟨h.1, fun i r msg hi => ?_⟩
  rw [h.2] at hi
  cases hi

theorem Dated.free (h : c.Dated) (hr : c.free i = .ok c') : c'.Dated := by
  unfold KvClient.free at hr
  split at hr
  · cases hr
  · cases hr
    refine ⟨h.length, fun j r msg hj => ?_⟩
    rw [List.getElem?_set] at hj
    split_ifs at hj
    · cases hj
    · exact h.le j r msg hj

/-- Parsing dates the new objects. -/
theorem Dated.parsingMessage (h : c.Dated) (hrecv : received.length ≤ kvIobufLen)
    (hparse : (c.recv received).parsingMessage = .ok c₁) : c₁.Dated := by
  obtain ⟨hlen, hreq⟩ := frame_parsingMessage hparse
  refine ⟨?_, fun i r msg hi => ?_⟩
  · rw [hlen, length_buf_recv c (by rw [h.length]; exact hrecv), h.length]
  · rw [hreq]
    rcases parsingMessage_iff.mp hparse with ⟨-, rfl⟩ | ⟨n, front, mem, args, mem', -, hitems, rfl⟩
    · exact Nat.le_succ_of_le (h.le i r msg hi)
    · rw [getElem?_parsed _ hitems.length_le] at hi
      split_ifs at hi
      · obtain ⟨rfl, -⟩ := Arg.object.inj (Option.some.inj hi)
        exact Nat.le_refl _
      · cases hi

/-- A round keeps the dates. -/
theorem Dated.round (h : c.Dated) {sent : Bytes} (hr : Round B (c, s) received sent (c', s')) : c'.Dated := by
  cases hr with
  | round hrecv hparse hcmd hfree₀ hfree₁ _ =>
    obtain ⟨hlen, hle⟩ := h.parsingMessage hrecv hparse
    obtain ⟨hargv, -, hreq, hbuf⟩ := hcmd.frame
    have h₂ : Dated _ := ⟨hbuf.trans hlen, by rw [hargv, hreq]; exact hle⟩
    exact (h₂.free hfree₀).free hfree₁

/-- In every state that a connection reaches. -/
theorem reach_dated {c₀ : KvClient} {s₀ : σ} (h₀ : c₀.Connected)
    (h : Reach (LoopStep B) Always (c₀, s₀) (c, s)) : c.Dated := by
  refine h.invariant (P := fun t => t.1.Dated) h₀.dated ?_
  rintro t a t' ht - hstep
  cases hstep with
  | request hround => exact ht.round hround
  | others => exact ht

end KvClient

/-! ### What is used -/

/-- A buffer is no request, or announces arguments. -/
theorem not_announces_of_noRequest (h : NoRequest buf) : ¬ Announces buf n front mem := by
  rintro ⟨line, rest, count, rfl, hline, -⟩
  obtain ⟨b, rest', hbuf, hb⟩ | ⟨line', rest', hbuf, hline'⟩ := h
  · exact hb (List.cons.inj hbuf).1.symm
  · -- the search for the end of the line finds the one or the other
    have heq : line ++ cr :: rest = line' ++ 0 :: rest' := (List.cons.inj hbuf).2
    have hcr := strchr_append (show Passed cr line from hline) rest
    rw [heq, strchr_append_zero hline' (by decide) rest'] at hcr
    cases hcr

/-- A buffer holds one list of arguments. -/
theorem Arguments.unique (h : Arguments buf args) (h' : Arguments buf args') : args = args' := by
  obtain ⟨n, front, mem, mem₁, ha, hi⟩ := h
  obtain ⟨n', front', mem', mem₁', ha', hi'⟩ := h'
  -- `parsingMessage` makes one client of it
  have hparse := KvClient.parsingMessage_iff (c := ⟨⟨0, buf⟩, 0, [], 0⟩).mpr (.inr ⟨_, _, _, _, _, ha, hi, rfl⟩)
  have hparse' := KvClient.parsingMessage_iff (c := ⟨⟨0, buf⟩, 0, [], 0⟩).mpr (.inr ⟨_, _, _, _, _, ha', hi', rfl⟩)
  have heq := Except.ok.inj (hparse.symm.trans hparse')
  refine List.ext_getElem? fun i => Option.map_injective Msg.ofBytes_injective ?_
  rw [← KvClient.arg_parsed _ hi.length_le, ← KvClient.arg_parsed _ hi'.length_le, heq]

/-- An encoded request holds its arguments. -/
theorem arguments_encode (h9 : args.length ≤ 9) (hne : ∀ a ∈ args, a ≠ []) (hfit : (encode args).length ≤ kvIobufLen)
    (c : KvClient) : Arguments (c.recv (encode args)).querybuf.buf args :=
  ⟨_, _, _, _, announces_encode h9 _,
    items_encode (fun a ha => ⟨hne a ha, (length_lt_of_mem ha hfit).trans (kvIobufLen_lt (by omega))⟩) 0 _⟩

/-- A buffer that holds arguments is read, and still starts with `*`. -/
theorem Arguments.parsingMessage (h : Arguments c.querybuf.buf args) :
    ∃ n buf, args.length ≤ n ∧ buf.head? = some star ∧ c.parsingMessage = .ok (c.parsed n args buf) := by
  obtain ⟨n, front, mem, mem', ha, hi⟩ := h
  have hhead : (front ++ mem').head? = some star := by
    obtain ⟨_, _, _, _, _, _, _, rfl, _⟩ := ha
    rfl
  exact ⟨n, _, hi.length_le, hhead, KvClient.parsingMessage_iff.mpr (.inr ⟨_, _, _, _, _, ha, hi, rfl⟩)⟩

/-- What a parsed request uses is its own if it has that many arguments. -/
theorem KvClient.uses_parsed (c : KvClient) (hle : args.length ≤ n) (buf : Bytes) :
    (∀ i ∈ (c.parsed n args buf).uses, (c.parsed n args buf).Own i) ↔
      2 ≤ args.length ∧ ∀ name, args.head? = some name → (command (Msg.ofBytes name)).needs ≤ args.length := by
  simp only [own_parsed c hle, uses, arg_parsed c hle]
  cases args with
  | nil => simp
  | cons name args =>
    simp only [List.getElem?_cons_zero, Option.map_some, List.head?_cons, Option.some.injEq, forall_eq']
    cases command (Msg.ofBytes name) <;> simp [Command.args, Command.needs]
    all_goals omega

/-- **A round uses objects of its own request**: all that is read by `processCMD` and
freed after it was created from the buffer of this round, and counts. -/
def UsesOwn (c : KvClient) (received : Bytes) : Prop :=
  ∃ c₁, (c.recv received).parsingMessage = .ok c₁ ∧ ∀ i ∈ c₁.uses, c₁.Own i

/-- **A request that is rejected or incomplete leaves the store**: `processCMD` returns,
and the store is the one before. -/
def LeavesStore (B : Storage σ) (c : KvClient) (s : σ) (received : Bytes) : Prop :=
  Rejected (c.recv received).querybuf.buf ∨ TooFew (c.recv received).querybuf.buf →
    ∃ c₁, (c.recv received).parsingMessage = .ok c₁ ∧ (∃ c₂, c₁.ProcessCMD B s c₂ s) ∧
      ∀ c₂ s₂, c₁.ProcessCMD B s c₂ s₂ → s₂ = s

/-- The two conditions on a buffer. -/
theorem usesOwn_iff (hc : c.Dated) : UsesOwn c received ↔ Enough (c.recv received).querybuf.buf := by
  constructor
  · rintro ⟨c₁, hparse, huses⟩
    rcases KvClient.parsingMessage_iff.mp hparse with ⟨-, rfl⟩ | ⟨n, front, mem, args, mem', ha, hi, rfl⟩
    · -- the objects in `argv` are older than the request
      have h0 : 0 ∈ (c.recv received).uses := by
        unfold KvClient.uses
        split <;> simp
      obtain ⟨-, msg, hmsg⟩ := huses 0 h0
      exact absurd (hc.le 0 _ msg hmsg) (Nat.not_succ_le_self c.requests)
    · exact ⟨args, ⟨n, front, mem, mem', ha, hi⟩, (KvClient.uses_parsed _ hi.length_le _).mp huses⟩
  · rintro ⟨args, hargs, henough⟩
    obtain ⟨n, buf, hle, -, hparse⟩ := hargs.parsingMessage
    exact ⟨_, hparse, (KvClient.uses_parsed _ hle buf).mpr henough⟩

/-- A buffer with enough arguments has not too few. -/
theorem Enough.not_tooFew (h : Enough buf) : ¬ TooFew buf := by
  obtain ⟨args, hargs, htwo, henough⟩ := h
  rintro ⟨args', hargs', hfew⟩
  obtain rfl := hargs.unique hargs'
  cases args with
  | nil => simp at htwo
  | cons name args => exact absurd hfew (Nat.not_lt.mpr (henough name rfl))

/-- A command that does nothing to the store. -/
theorem KvClient.ProcessCMD.idle {name : Msg} (hlen : 5 ≤ c.querybuf.buf.length) (hname : c.arg 0 = some name)
    (hidle : command name = .scan ∨ command name = .other) :
    (∃ c', c.ProcessCMD B s c' s) ∧ ∀ c' s', c.ProcessCMD B s c' s' → s' = s := by
  constructor
  · rcases hidle with hcmd | hcmd
    · exact ⟨c, .scan hname hcmd⟩
    · exact ⟨_, .other hname hcmd (if_neg (Nat.not_lt.mpr hlen))⟩
  · intro c' s' h
    have hinv := h.inv hname
    rcases hidle with hcmd | hcmd <;> rw [hcmd] at hinv
    · exact hinv.2
    · exact hinv.2

/-- **The loop uses the arguments of the current request** exactly if the buffer holds
enough of them, in every state that a connection reaches, whatever was received before.
Then a request that is rejected leaves the store, if its command is one that does nothing
to it: the others are executed nevertheless. -/
theorem reach_uses_own {c₀ : KvClient} {s₀ : σ} (h₀ : c₀.Connected) (h : Reach (LoopStep B) Always (c₀, s₀) (c, s))
    (hrecv : received.length ≤ kvIobufLen) :
    (UsesOwn c received ↔ Enough (c.recv received).querybuf.buf) ∧
    (Enough (c.recv received).querybuf.buf →
      (Rejected (c.recv received).querybuf.buf → Idle (c.recv received).querybuf.buf) →
      LeavesStore B c s received) := by
  have hc := KvClient.reach_dated h₀ h
  refine ⟨usesOwn_iff hc, fun henough hidle hbad => ?_⟩
  have hrej := hbad.resolve_right henough.not_tooFew
  obtain ⟨args, name, hargs, hname, hcmd⟩ := hidle hrej
  obtain ⟨n, buf, hle, -, hparse⟩ := hargs.parsingMessage
  have hlen := (hc.parsingMessage hrecv hparse).length
  have hfirst : ((c.recv received).parsed n args buf).arg 0 = some (Msg.ofBytes name) := by
    rw [KvClient.arg_parsed _ hle, ← List.head?_eq_getElem?, hname]
    rfl
  exact ⟨_, hparse, KvClient.ProcessCMD.idle (by rw [hlen]; decide) hfirst hcmd⟩

/-! ### Requests that break off -/

/-- A client, right after it has connected. -/
def KvClient.fresh : KvClient := ⟨⟨0, List.replicate kvIobufLen 0⟩, 0, [], 0⟩

theorem KvClient.connected_fresh : fresh.Connected := ⟨List.length_replicate, rfl⟩

/-- One argument is missing behind encoded ones. -/
theorem rejected_of_broken {rest : Bytes} (h8 : args.length ≤ 8) (hargs : ∀ a ∈ args, a ≠ [] ∧ a.length < 2 ^ 63)
    (hne : rest.head? ≠ some dollar) (hstop : cr ∈ rest ∨ 0 ∈ rest)
    (hbuf : buf = star :: decimal (args.length + 1) ++ cr :: lf :: (args.flatMap encodeArg ++ rest)) :
    Arguments buf args ∧ Rejected buf := by
  have ha := announces_count (n := args.length + 1) (by omega) (args.flatMap encodeArg ++ rest)
  have hi := items_encode_append hargs (fun _ => Items.broken (n := 0) hne hstop) 0
  rw [List.append_nil] at hi
  rw [hbuf]
  exact ⟨⟨_, _, _, _, ha, hi⟩, .inr ⟨_, _, _, _, _, ha, hi, Nat.lt_succ_self _⟩⟩

/-- The bytes of announced arguments, up to a broken one. -/
def broken (args : List Bytes) : Bytes := star :: decimal (args.length + 1) ++ cr :: lf :: (args.flatMap encodeArg ++ [cr])

theorem rejected_recv_broken (h8 : args.length ≤ 8) (hargs : ∀ a ∈ args, a ≠ [] ∧ a.length < 2 ^ 63) (c : KvClient) :
    Arguments (c.recv (broken args)).querybuf.buf args ∧ Rejected (c.recv (broken args)).querybuf.buf := by
  refine rejected_of_broken h8 hargs
    (show (cr :: c.querybuf.buf.drop (broken args).length).head? ≠ some dollar by simp [cr, dollar]) (by simp) ?_
  show broken args ++ c.querybuf.buf.drop (broken args).length = _
  generalize c.querybuf.buf.drop (broken args).length = mem
  simp [broken]

/-- `SCAN a`, of three announced arguments: it uses the two, and leaves the store. -/
theorem reach_uses_own_scan : UsesOwn .fresh (broken [[83, 67, 65, 78], [97]]) ∧
    LeavesStore (memLru (fun _ => 0) .direct .undefined True) .fresh (.start (.openEmpty ⟨20, 0, 1000⟩ 0))
      (broken [[83, 67, 65, 78], [97]]) := by
  obtain ⟨hargs, -⟩ := rejected_recv_broken
    (show [[83, 67, 65, 78], [97]].length ≤ 8 by simp) (by simp) .fresh
  have hcmd : command (Msg.ofBytes [83, 67, 65, 78]) = .scan := rfl
  have henough : Enough (KvClient.fresh.recv (broken [[83, 67, 65, 78], [97]])).querybuf.buf :=
    ⟨_, hargs, by simp, fun name hname => by cases hname; rw [hcmd]; decide⟩
  obtain ⟨huses, hleaves⟩ := reach_uses_own (B := memLru (fun _ => 0) .direct .undefined True) KvClient.connected_fresh
    (.refl (KvClient.fresh, Tiers.Server.start (.openEmpty ⟨20, 0, 1000⟩ 0)))
    (show (broken [[83, 67, 65, 78], [97]]).length ≤ kvIobufLen by decide)
  exact ⟨huses.mpr henough, hleaves henough fun _ => ⟨_, _, hargs, rfl, .inl hcmd⟩⟩

/-- A first buffer that is no request: the name would be read from an `argv` that was never
allocated. And `SET a b`, of four announced arguments: it is executed. -/
theorem rejected_set : ¬ UsesOwn .fresh [65] ∧
    ¬ LeavesStore (memLru (fun _ => 0) .direct .undefined True) .fresh (.start (.openEmpty ⟨20, 0, 1000⟩ 0))
      (broken [[83, 69, 84], [97], [98]]) := by
  constructor
  · rw [usesOwn_iff KvClient.connected_fresh.dated]
    rintro ⟨args, ⟨n, front, mem, mem', ha, -⟩, -⟩
    exact not_announces_of_noRequest (.inl ⟨65, _, rfl, by decide⟩) ha
  · intro h
    obtain ⟨hargs, hrej⟩ := rejected_recv_broken
      (show [[83, 69, 84], [97], [98]].length ≤ 8 by simp) (by simp) .fresh
    obtain ⟨c₁, hparse, -, hsame⟩ := h (.inl hrej)
    obtain ⟨n, buf, hle, -, hparse'⟩ := hargs.parsingMessage
    obtain rfl := Except.ok.inj (hparse'.symm.trans hparse)
    have hlen := (KvClient.connected_fresh.dated.parsingMessage (by decide) hparse).length
    obtain ⟨db, hdb, hone⟩ : ∃ db, (Tiers.Server.start (.openEmpty ⟨20, 0, 1000⟩ 0)).db.setCommand [97] [98] = .ok db ∧
        db.entries.length = 1 := ⟨_, rfl, rfl⟩
    have hset : (memLru (fun _ => 0) .direct .undefined True).setCommand (.start (.openEmpty ⟨20, 0, 1000⟩ 0))
        (Msg.ofBytes [97]) (Msg.ofBytes [98]) ⟨db, .waiting, false⟩ := ⟨_, ⟨_, .inl rfl, .refl⟩, .set rfl hdb rfl⟩
    have hrun := hsame _ _ (.set (KvClient.arg_parsed _ hle buf 0) rfl (KvClient.arg_parsed _ hle buf 1)
      (KvClient.arg_parsed _ hle buf 2) hset (if_neg (by rw [hlen]; decide)))
    obtain rfl : db = _ := congrArg Tiers.Server.db hrun
    cases hone

end EmbeddedKv.Net
