import EmbeddedKv.Net.BinarySafe
import EmbeddedKv.Tiers.EvictAll
import EmbeddedKv.Tiers.Origin

/-!
# Connections

The server with its connections, each served by a thread of its own that runs
`bworkerRecvJobs`, while the flush worker, the writers of the cache files, rounds of `Evict`
and crashes go on as in a `Node`.

## The model

The thread of a connection takes a step for each call of the loop, and `processCMD` takes
several where it gives way to others: `memUsedCheck` may hand an entry over and waits
before SET gets the mutex, and `evictAllCommand` runs its two loops. GET, and SET behind
`memUsedCheck`, run under the mutex, so each of them is one step; a GET that waits for
`fcache_mutex` keeps it. When `memUsedCheck` returns is not modelled: it may at any time.

A connection is known by a number. Nothing limits how many there are; what is kept of them
in `server.clients` is in `Acceptor`. A crash ends them all. After `kill` the flash cache is
gone while the other threads go on; nothing is said about that, and a connection that sends it
takes no more steps.

## What is proved

* `wire_linear`: whatever the threads do, in whatever order, the store goes through one
  sequence of commands; every GET finds what it finds in that sequence; and on every
  connection each request is executed once, after it was received and before it is answered,
  with the reply of its own command, before the next request is read.
-/

namespace EmbeddedKv.Net

open EmbeddedKv.Library EmbeddedKv.Flash EmbeddedKv.Store EmbeddedKv.Tiers

variable {crc : Bytes → UInt32} {mode : FlashcacheMode} {d : DeadNode}

/-! ### The threads of the connections -/

/-- Where the thread of a connection is. -/
inductive ClientPc where
  /-- In `tcpRecv`. -/
  | receiving
  /-- It has received a request. -/
  | parsing
  /-- It has called `processCMD`. -/
  | called
  /-- In `memUsedCheck`, which has handed an entry over. -/
  | checking
  /-- `memUsedCheck` has returned. -/
  | checked
  /-- In `evictAllCommand`. -/
  | evicting (pc : EvictAllPc)
  /-- In `getCommand`, at `fcache_mutex`. -/
  | blocked
  /-- `processCMD` has returned. -/
  | freeing
  /-- It has freed two arguments. -/
  | sending

/-- A connection and its thread. -/
structure Connection where
  /-- The client. -/
  client : KvClient
  /-- Its thread. -/
  pc : ClientPc

/-- The server and its connections. -/
structure Wire where
  /-- The server. -/
  node : Node
  /-- The connections. -/
  clients : ℕ → Option Connection := fun _ => none

/-- A server that was started on an empty directory, with no connection. -/
def Wire.start (opt : FlashCacheConfig) (size : UInt64) : Wire := { node := .start opt size }

/-- A connection takes a step. -/
def Wire.put (w : Wire) (i : ℕ) (c : Option Connection) : Wire := { w with clients := Function.update w.clients i c }

/-- The server takes a step. -/
def Wire.serve (w : Wire) (t : Server) : Wire := { w with node := { w.node with server := t } }

/-- What the execution of a command is. -/
inductive Effect where
  /-- SET has written. -/
  | set (key val : Bytes)
  /-- GET has found this; `env` is what the disk did. -/
  | get (key : Bytes) (env : Environment) (found : Found)
  /-- Nothing is done, or nothing more. -/
  | nothing

/-- What happens on the wire. -/
inductive WireAct where
  /-- A client connects. -/
  | connect (i : ℕ)
  /-- `tcpRecv` returns these bytes. -/
  | receive (i : ℕ) (received : Bytes)
  /-- `parsingMessage` returns. -/
  | parse (i : ℕ)
  /-- `memUsedCheck` hands an entry over. -/
  | evict (i : ℕ)
  /-- `memUsedCheck` returns. -/
  | check (i : ℕ)
  /-- `evictAllCommand` is called. -/
  | call (i : ℕ)
  /-- `evictAllCommand` goes on. -/
  | evictAll (i : ℕ) (a : EvictAllAct)
  /-- GET waits for `fcache_mutex`. -/
  | block (i : ℕ) (key : Bytes)
  /-- The command is executed. -/
  | execute (i : ℕ) (e : Effect)
  /-- Two arguments are freed. -/
  | free (i : ℕ)
  /-- `tcpSend` writes these bytes. -/
  | send (i : ℕ) (sent : Bytes)
  /-- The client is gone. -/
  | close (i : ℕ)
  /-- The flush worker or a writer takes a step, or there is a round of `Evict`. -/
  | background (a : NodeAct)
  /-- A crash, after which the server is started with the given options. -/
  | crash (opt : FlashCacheConfig)

/-- What GET finds, if `getCommand` obtains `r`. -/
def FoundBy (db : KvDb) (key : Bytes) : Option Bytes → Found → Prop
  | none, found => found = .absent
  | some val, found =>
    if db.memLRU.find (cString key) = none then ∃ beyond, found = .flash val beyond else found = .memory val

/-- The steps of the node that no connection takes. -/
def Background : NodeAct → Prop
  | .server (.bworker _) | .server (.writer _) | .round _ => True
  | _ => False

/-- **One step on the wire.** -/
inductive WireStep (crc : Bytes → UInt32) (mode : FlashcacheMode) (d : DeadNode) : Wire → WireAct → Wire → Prop where
  /-- A client connects. -/
  | connect {w : Wire} {i : ℕ} {c : KvClient} (hc : w.clients i = none) (hconn : c.Connected) :
      WireStep crc mode d w (.connect i) (w.put i (some ⟨c, .receiving⟩))
  /-- A request is received. -/
  | receive {w : Wire} {i : ℕ} {c : KvClient} {received : Bytes} (hc : w.clients i = some ⟨c, .receiving⟩)
      (hrecv : received.length ≤ kvIobufLen) :
      WireStep crc mode d w (.receive i received) (w.put i (some ⟨c.recv received, .parsing⟩))
  /-- It is parsed. -/
  | parse {w : Wire} {i : ℕ} {c c' : KvClient} (hc : w.clients i = some ⟨c, .parsing⟩)
      (hparse : c.parsingMessage = .ok c') : WireStep crc mode d w (.parse i) (w.put i (some ⟨c', .called⟩))
  /-- `memUsedCheck` hands an entry over. -/
  | evict {w : Wire} {i : ℕ} {c : KvClient} {name : Msg} {t : Server} (hc : w.clients i = some ⟨c, .called⟩)
      (hname : c.arg 0 = some name) (hcmd : command name = .set) (hs : ServerStep crc mode d w.node.server .evict t) :
      WireStep crc mode d w (.evict i) ((w.serve t).put i (some ⟨c, .checking⟩))
  /-- `memUsedCheck` returns. -/
  | check {w : Wire} {i : ℕ} {c : KvClient} {pc : ClientPc} {name : Msg} (hc : w.clients i = some ⟨c, pc⟩)
      (hpc : pc = .called ∨ pc = .checking) (hname : c.arg 0 = some name) (hcmd : command name = .set) :
      WireStep crc mode d w (.check i) (w.put i (some ⟨c, .checked⟩))
  /-- `evictAllCommand` is called. -/
  | call {w : Wire} {i : ℕ} {c : KvClient} {name : Msg} (hc : w.clients i = some ⟨c, .called⟩)
      (hname : c.arg 0 = some name) (hcmd : command name = .evict) :
      WireStep crc mode d w (.call i) (w.put i (some ⟨c, .evicting (Shutdown.call w.node.server).pc⟩))
  /-- `evictAllCommand` goes on. -/
  | evictAll {w : Wire} {i : ℕ} {c : KvClient} {pc pc' : EvictAllPc} {a : EvictAllAct} {t : Server}
      (hc : w.clients i = some ⟨c, .evicting pc⟩) (ha : a = .evict ∨ a = .leave ∨ a = .look)
      (hs : EvictAllStep crc mode ⟨w.node.server, pc⟩ a ⟨t, pc'⟩) :
      WireStep crc mode d w (.evictAll i a) ((w.serve t).put i (some ⟨c, .evicting pc'⟩))
  /-- SET. -/
  | set {w : Wire} {i : ℕ} {c c' : KvClient} {name key val : Msg} {t : Server} (hc : w.clients i = some ⟨c, .checked⟩)
      (hname : c.arg 0 = some name) (hcmd : command name = .set) (hkey : c.arg 1 = some key) (hval : c.arg 2 = some val)
      (hs : ServerStep crc mode d w.node.server (.set key.bytes val.bytes) t) (hreply : c.putReply okReply = .ok c') :
      WireStep crc mode d w (.execute i (.set key.bytes val.bytes)) ((w.serve t).put i (some ⟨c', .freeing⟩))
  /-- GET. -/
  | get {w : Wire} {i : ℕ} {c c' : KvClient} {name key : Msg} {env : Environment} {r : Option Bytes} {db : KvDb}
      {found : Found} {text : Bytes} (hc : w.clients i = some ⟨c, .called⟩) (hname : c.arg 0 = some name)
      (hcmd : command name = .get) (hkey : c.arg 1 = some key) (hfree : w.node.server.bworker.holdsMutex = false)
      (hr : (w.node.server.db.touch d key.bytes).getCommand crc mode env key.bytes = .ok (r, db))
      (hfound : FoundBy w.node.server.db key.bytes r found) (htext : found.reply = .ok text)
      (hreply : c.putReply text = .ok c') (hblocked : w.node.server.blocked = false) :
      WireStep crc mode d w (.execute i (.get key.bytes env found))
        ((w.serve { w.node.server with db }).put i (some ⟨c', .freeing⟩))
  /-- GET waits for `fcache_mutex`. -/
  | block {w : Wire} {i : ℕ} {c : KvClient} {name key : Msg} {t : Server} (hc : w.clients i = some ⟨c, .called⟩)
      (hname : c.arg 0 = some name) (hcmd : command name = .get) (hkey : c.arg 1 = some key)
      (hs : ServerStep crc mode d w.node.server (.block key.bytes) t) :
      WireStep crc mode d w (.block i key.bytes) ((w.serve t).put i (some ⟨c, .blocked⟩))
  /-- `scan` does nothing, and `evictAllCommand` returns. -/
  | nothing {w : Wire} {i : ℕ} {c : KvClient} {pc : ClientPc} {name : Msg} (hc : w.clients i = some ⟨c, pc⟩)
      (hname : c.arg 0 = some name)
      (hcmd : command name = .scan ∧ pc = .called ∨ command name = .evict ∧ pc = .evicting .returned) :
      WireStep crc mode d w (.execute i .nothing) (w.put i (some ⟨c, .freeing⟩))
  /-- Any other name. -/
  | other {w : Wire} {i : ℕ} {c c' : KvClient} {name : Msg} (hc : w.clients i = some ⟨c, .called⟩)
      (hname : c.arg 0 = some name) (hcmd : command name = .other) (hreply : c.putOther = .ok c') :
      WireStep crc mode d w (.execute i .nothing) (w.put i (some ⟨c', .freeing⟩))
  /-- Two arguments are freed. -/
  | free {w : Wire} {i : ℕ} {c c₁ c₂ : KvClient} (hc : w.clients i = some ⟨c, .freeing⟩) (hfree₀ : c.free 0 = .ok c₁)
      (hfree₁ : c₁.free 1 = .ok c₂) : WireStep crc mode d w (.free i) (w.put i (some ⟨c₂, .sending⟩))
  /-- The reply is sent. -/
  | send {w : Wire} {i : ℕ} {c : KvClient} (hc : w.clients i = some ⟨c, .sending⟩)
      (hsend : c.querybuf.len.toNat ≤ c.querybuf.buf.length) :
      WireStep crc mode d w (.send i (c.querybuf.buf.take c.querybuf.len.toNat)) (w.put i (some ⟨c, .receiving⟩))
  /-- `read` returns `0`. -/
  | close {w : Wire} {i : ℕ} {c : KvClient} (hc : w.clients i = some ⟨c, .receiving⟩) :
      WireStep crc mode d w (.close i) (w.put i none)
  /-- The flush worker or a writer takes a step, or there is a round of `Evict`. -/
  | background {w : Wire} {n : Node} {a : NodeAct} (ha : Background a) (hs : NodeStep crc mode d w.node a n) :
      WireStep crc mode d w (.background a) { w with node := n }
  /-- A crash. -/
  | crash {w : Wire} {n : Node} {opt : FlashCacheConfig} (hs : NodeStep crc mode d w.node (.crash opt) n) :
      WireStep crc mode d w (.crash opt) { node := n }

/-! ### Histories -/

/-- The command that was executed. -/
def Effect.act : Effect → Option ServerAct
  | .set key val => some (.set key val)
  | .get key env _ => some (.get key env)
  | .nothing => none

/-- What a step does to the store. -/
def WireAct.effect : WireAct → Option NodeAct
  | .evict _ | .evictAll _ .evict => some (.server .evict)
  | .block _ key => some (.server (.block key))
  | .execute _ e => e.act.map .server
  | .background a => some a
  | .crash opt => some (.crash opt)
  | _ => none

/-- **A request** with enough arguments for its command, which fits into the query buffer. -/
structure Request (args : List Bytes) : Prop where
  /-- The number of arguments is one digit. -/
  few : args.length ≤ 9
  /-- No argument is empty. -/
  ne_nil : ∀ a ∈ args, a ≠ []
  /-- The encoding fits. -/
  fits : (encode args).length ≤ kvIobufLen
  /-- Two arguments can be freed. -/
  two : 2 ≤ args.length
  /-- The command has its arguments. -/
  enough : ∀ name, args.head? = some name → (command (.ofBytes name)).needs ≤ args.length

/-- **The steps considered**: clients send encoded requests; the flush finds a place for its
record, and buffers have room. -/
def WireAct.Within (mode : FlashcacheMode) (w : Wire) : WireAct → Prop
  | .receive _ received => ∃ args, Request args ∧ received = encode args
  | .background a => a.Within mode w.node
  | .crash opt => Buffers mode opt
  | _ => True

/-! ### Conversations -/

/-- What a connection sees. -/
inductive Event where
  /-- A request was received. -/
  | receive (received : Bytes)
  /-- Its command was executed. -/
  | execute (e : Effect)
  /-- The reply was sent. -/
  | send (sent : Bytes)
  /-- The connection begins or ends. -/
  | reset

/-- What the connection `i` sees of a step. -/
def WireAct.event (i : ℕ) : WireAct → Option Event
  | .receive j received => if j = i then some (.receive received) else none
  | .execute j e => if j = i then some (.execute e) else none
  | .send j sent => if j = i then some (.send sent) else none
  | .connect j | .close j => if j = i then some .reset else none
  | .crash _ => some .reset
  | _ => none

/-- The execution is one of the command of the request. -/
def Executes (args : List Bytes) : Effect → Prop
  | .set key val => ∃ name more, args = name :: key :: val :: more ∧ command (.ofBytes name) = .set
  | .get key _ _ => ∃ name more, args = name :: key :: more ∧ command (.ofBytes name) = .get
  | .nothing => ∃ name more, args = name :: more ∧
      (command (.ofBytes name) = .scan ∨ command (.ofBytes name) = .evict ∨ command (.ofBytes name) = .other)

/-- **The reply** to a request. A command that is neither SET nor GET sends back as many bytes
of the request as its last argument has, or a line of five bytes with a zero byte at its
end. -/
def Replies (args : List Bytes) (e : Effect) (sent : Bytes) : Prop :=
  match e with
  | .set _ _ => sent = okReply
  | .get _ _ found => found.reply = .ok sent
  | .nothing => ∃ name more, args = name :: more ∧ sent =
      if command (.ofBytes name) = .other then [43, 79, 75, cr, 0]
      else (readRequest args).take ((args.getLast?.map List.length).getD 0)

/-- Where a conversation is. -/
inductive Phase where
  /-- No request is to be answered. -/
  | idle
  /-- A request is to be executed. -/
  | asked (args : List Bytes)
  /-- It was executed, and is to be answered. -/
  | executed (args : List Bytes) (e : Effect)

/-- **The conversations of a connection**: a request, its execution, its reply, and so on; the
connection may end in between. -/
inductive Conversation : List Event → Phase → Prop where
  /-- Nothing was said. -/
  | nil : Conversation [] .idle
  /-- A request. -/
  | receive {es : List Event} {args : List Bytes} (h : Conversation es .idle) (hreq : Request args) :
      Conversation (es ++ [.receive (encode args)]) (.asked args)
  /-- Its execution. -/
  | execute {es : List Event} {args : List Bytes} {e : Effect} (h : Conversation es (.asked args))
      (he : Executes args e) : Conversation (es ++ [.execute e]) (.executed args e)
  /-- Its reply. -/
  | send {es : List Event} {args : List Bytes} {e : Effect} {sent : Bytes} (h : Conversation es (.executed args e))
      (hs : Replies args e sent) : Conversation (es ++ [.send sent]) .idle
  /-- The connection begins or ends. -/
  | reset {es : List Event} {phase : Phase} (h : Conversation es phase) : Conversation (es ++ [.reset]) .idle

/-! ### Clients in a conversation -/

/-- The client has parsed the request. -/
def Parsed (args : List Bytes) (c : KvClient) : Prop :=
  ∃ (c₀ : KvClient) (rest : Bytes), (readRequest args ++ rest).length = kvIobufLen ∧
    c = c₀.parsed args.length args (readRequest args ++ rest)

/-- The client holds the reply, and is about to send it. -/
structure Holding (sent : Bytes) (c : KvClient) : Prop where
  /-- The query buffer. -/
  length : c.querybuf.buf.length = kvIobufLen
  /-- Its first bytes are the reply. -/
  reply : c.querybuf.len.toNat ≤ c.querybuf.buf.length → c.querybuf.buf.take c.querybuf.len.toNat = sent

/-- **A connection is where its conversation is.** -/
inductive Matches : Option Connection → Phase → Prop where
  /-- There is no connection. -/
  | absent : Matches none .idle
  /-- A request is awaited. -/
  | receiving {c : KvClient} (h : c.querybuf.buf.length = kvIobufLen) : Matches (some ⟨c, .receiving⟩) .idle
  /-- A request was received. -/
  | parsing {c : KvClient} {args : List Bytes} {rest : Bytes} (hreq : Request args)
      (hlen : c.querybuf.buf.length = kvIobufLen) (hbuf : c.querybuf.buf = encode args ++ rest) :
      Matches (some ⟨c, .parsing⟩) (.asked args)
  /-- Its command is called. -/
  | called {c : KvClient} {pc : ClientPc} {args : List Bytes} (hreq : Request args) (hparsed : Parsed args c)
      (hpc : pc ≠ .receiving ∧ pc ≠ .parsing ∧ pc ≠ .freeing ∧ pc ≠ .sending) : Matches (some ⟨c, pc⟩) (.asked args)
  /-- It was executed. -/
  | freeing {c : KvClient} {args : List Bytes} {e : Effect} {sent : Bytes} (hs : Replies args e sent)
      (hc : Holding sent c) : Matches (some ⟨c, .freeing⟩) (.executed args e)
  /-- The reply is to be sent. -/
  | sending {c : KvClient} {args : List Bytes} {e : Effect} {sent : Bytes} (hs : Replies args e sent)
      (hc : Holding sent c) : Matches (some ⟨c, .sending⟩) (.executed args e)

variable {c c' : KvClient} {args es : List Bytes} {e : Effect} {sent rest : Bytes} {w w' : Wire} {acts : List WireAct}
  {a : WireAct} {i : ℕ}

theorem Request.length_lt (h : Request args) {b : Bytes} (hb : b ∈ args) : b.length < 2 ^ 32 :=
  (length_lt_of_mem hb h.fits).trans (kvIobufLen_lt (by omega))

/-- The bytes of an argument. -/
theorem Request.bytes (h : Request args) {b : Bytes} (hb : b ∈ args) : (Msg.ofBytes b).bytes = b :=
  Msg.bytes_ofBytes (h.length_lt hb)

theorem Parsed.length (h : Parsed args c) : c.querybuf.buf.length = kvIobufLen := by
  obtain ⟨c₀, rest, hlen, rfl⟩ := h
  exact hlen

theorem Parsed.arg (h : Parsed args c) (i : ℕ) : c.arg i = args[i]?.map Msg.ofBytes := by
  obtain ⟨c₀, rest, -, rfl⟩ := h
  exact KvClient.arg_parsed c₀ (Nat.le_refl _) _ i

/-- The place of an argument. -/
theorem Parsed.of_arg (h : Parsed args c) {msg : Msg} (hi : c.arg i = some msg) :
    ∃ b, args[i]? = some b ∧ msg = Msg.ofBytes b := by
  rw [h.arg] at hi
  obtain ⟨b, hb, rfl⟩ := Option.map_eq_some_iff.mp hi
  exact ⟨b, hb, rfl⟩

/-- **Parsing** a request that was received. -/
theorem parsed_of_received (hreq : Request args) (hlen : c.querybuf.buf.length = kvIobufLen)
    (hbuf : c.querybuf.buf = encode args ++ rest) (hparse : c.parsingMessage = .ok c') : Parsed args c' := by
  have hparsed := parsingMessage_parsed hreq.few hreq.ne_nil hreq.fits hbuf
  obtain rfl := Except.ok.inj (hparsed.symm.trans hparse)
  exact ⟨c, rest, (KvClient.frame_parsingMessage hparsed).1.trans hlen, rfl⟩

/-- A reply is put into the query buffer. -/
theorem Parsed.holding_putReply (h : Parsed args c) {text : Bytes} (hr : c.putReply text = .ok c') : Holding text c' :=
  ⟨(KvClient.frame_putReply hr).2.2.2.trans h.length, fun _ => (KvClient.take_putReply hr h.length).2⟩

/-- Freeing arguments leaves the reply. -/
theorem Holding.free (h : Holding sent c) {i : ℕ} (hr : c.free i = .ok c') : Holding sent c' := by
  obtain ⟨-, rfl⟩ := KvClient.free_ok_iff.mp hr
  exact ⟨h.length, h.reply⟩

/-! ### Every step goes on with the conversations -/

/-- **Every connection is where its conversation is.** -/
def Talks (acts : List WireAct) (w : Wire) : Prop :=
  ∀ i, ∃ phase, Conversation (acts.filterMap (WireAct.event i)) phase ∧ Matches (w.clients i) phase

theorem filterMap_snoc_some {f : WireAct → Option Event} {ev : Event} (h : f a = some ev) :
    (acts ++ [a]).filterMap f = acts.filterMap f ++ [ev] := by
  rw [List.filterMap_append, List.filterMap_cons_some h, List.filterMap_nil]

theorem filterMap_snoc_none {f : WireAct → Option Event} (h : f a = none) :
    (acts ++ [a]).filterMap f = acts.filterMap f := by
  rw [List.filterMap_append, List.filterMap_cons_none h, List.filterMap_nil, List.append_nil]

/-- A step that the connection does not see. -/
theorem Conversation.silent {phase : Phase} (h : Conversation (acts.filterMap (WireAct.event i)) phase)
    (ha : a.event i = none) : Conversation ((acts ++ [a]).filterMap (WireAct.event i)) phase := by
  rwa [filterMap_snoc_none ha]

/-- One connection goes on, and the others do not notice. -/
theorem Talks.put {conn : Option Connection} {phase : Phase} (h : Talks acts w)
    (hclients : w'.clients = Function.update w.clients i conn) (hother : ∀ j, j ≠ i → a.event j = none)
    (hconv : Conversation ((acts ++ [a]).filterMap (WireAct.event i)) phase) (hmatch : Matches conn phase) :
    Talks (acts ++ [a]) w' := by
  intro j
  rw [hclients]
  by_cases hj : j = i
  · subst hj
    rw [Function.update_self]
    exact ⟨phase, hconv, hmatch⟩
  · rw [Function.update_of_ne hj, filterMap_snoc_none (hother j hj)]
    exact h j

/-- A step within `processCMD`. -/
theorem Talks.within {c : KvClient} {pc pc' : ClientPc} (h : Talks acts w) (hc : w.clients i = some ⟨c, pc⟩)
    (hpc : pc ≠ .receiving ∧ pc ≠ .parsing ∧ pc ≠ .freeing ∧ pc ≠ .sending)
    (hpc' : pc' ≠ .receiving ∧ pc' ≠ .parsing ∧ pc' ≠ .freeing ∧ pc' ≠ .sending)
    (hclients : w'.clients = Function.update w.clients i (some ⟨c, pc'⟩)) (hevent : ∀ j, a.event j = none) :
    Talks (acts ++ [a]) w' := by
  obtain ⟨phase, hconv, hmatch⟩ := h i
  rw [hc] at hmatch
  refine h.put hclients (fun j _ => hevent j) (hconv.silent (hevent i)) ?_
  cases hmatch with
  | called hreq hparsed => exact .called hreq hparsed hpc'
  | receiving => exact absurd rfl hpc.1
  | parsing => exact absurd rfl hpc.2.1
  | freeing => exact absurd rfl hpc.2.2.1
  | sending => exact absurd rfl hpc.2.2.2

/-- The execution of the command. -/
theorem Talks.execute {c : KvClient} {pc : ClientPc} (h : Talks acts w) (hc : w.clients i = some ⟨c, pc⟩)
    (hpc : pc ≠ .receiving ∧ pc ≠ .parsing ∧ pc ≠ .freeing ∧ pc ≠ .sending)
    (hclients : w'.clients = Function.update w.clients i (some ⟨c', .freeing⟩))
    (hdone : ∀ args, Request args → Parsed args c → Executes args e ∧ ∃ sent, Replies args e sent ∧ Holding sent c') :
    Talks (acts ++ [.execute i e]) w' := by
  obtain ⟨phase, hconv, hmatch⟩ := h i
  rw [hc] at hmatch
  cases hmatch with
  | @called c pc args hreq hparsed =>
    obtain ⟨he, sent, hs, hhold⟩ := hdone args hreq hparsed
    refine h.put hclients (fun j hj => if_neg (Ne.symm hj)) ?_ (.freeing hs hhold)
    rw [filterMap_snoc_some (if_pos rfl)]
    exact .execute hconv he
  | receiving => exact absurd rfl hpc.1
  | parsing => exact absurd rfl hpc.2.1
  | freeing => exact absurd rfl hpc.2.2.1
  | sending => exact absurd rfl hpc.2.2.2

/-- The name of a parsed request. -/
theorem Parsed.name {name : Msg} (h : Parsed args c) (hname : c.arg 0 = some name) :
    ∃ b more, args = b :: more ∧ name = Msg.ofBytes b := by
  obtain ⟨b, hb, rfl⟩ := h.of_arg hname
  cases args with
  | nil => cases hb
  | cons b' more => exact ⟨b', more, rfl, by rw [Option.some.inj hb]⟩

/-- **What a step does to the store** is a step of the node, or nothing. -/
theorem WireStep.node (hs : WireStep crc mode d w a w') :
    match a.effect with
    | none => w'.node = w.node
    | some b => NodeStep crc mode d w.node b w'.node := by
  cases hs with
  | connect | receive | parse | check | call | nothing | other | free | send | close => rfl
  | evict _ _ _ hs => exact .server hs
  | evictAll hc ha hs =>
    cases hs with
    | evict hi hr => exact .server (.evict hr)
    | leave | look => rfl
    | bworker | writer => simp at ha
  | set _ _ _ _ _ hs => exact .server hs
  | get _ _ _ _ hfree hr _ _ _ hblocked => exact .server (.get hfree hr hblocked)
  | block _ _ _ _ hs => exact .server hs
  | background _ hs => exact hs
  | crash hs => exact hs

/-- A step that is considered is one of the node that is. -/
theorem WireAct.Within.effect {b : NodeAct} (ha : a.Within mode w) (hb : a.effect = some b) : b.Within mode w.node := by
  cases a with
  | evict | block => cases hb; trivial
  | evictAll _ a =>
    cases a with
    | evict => cases hb; trivial
    | leave | look | bworker | writer => cases hb
  | execute _ e =>
    cases e with
    | set | get => cases hb; trivial
    | nothing => cases hb
  | background => cases hb; exact ha
  | crash => cases hb; exact ha
  | connect | receive | parse | check | call | free | send | close => cases hb

variable {opt : FlashCacheConfig} {size : UInt64}

/-- What GET has found is what it finds in the history of the store. -/
theorem WireStep.found {key : Bytes} {env : Environment} {found : Found}
    (hs : WireStep crc mode d w (.execute i (.get key env found)) w') : ∃ r db,
      (w.node.server.db.touch d key).getCommand crc mode env key = .ok (r, db) ∧ FoundBy w.node.server.db key r found := by
  cases hs with
  | get hc hname hcmd hkey hfree hr hfound => exact ⟨_, _, hr, hfound⟩

/-! ### Rounds -/

@[simp] theorem Wire.put_put (w : Wire) (i : ℕ) (b c : Option Connection) : (w.put i b).put i c = w.put i c := by
  simp [Wire.put]

@[simp] theorem Wire.node_put (w : Wire) (i : ℕ) (b : Option Connection) : (w.put i b).node = w.node := rfl

@[simp] theorem Wire.serve_put (w : Wire) (i : ℕ) (b : Option Connection) (t : Server) :
    (w.put i b).serve t = (w.serve t).put i b := rfl

theorem Wire.clients_put (w : Wire) (i : ℕ) (b : Option Connection) : (w.put i b).clients i = b :=
  Function.update_self ..

/-- The runs that are considered. -/
abbrev WireRun (crc : Bytes → UInt32) (mode : FlashcacheMode) (d : DeadNode) : Wire → List WireAct → Wire → Prop :=
  Run (WireStep crc mode d) fun _ => WireAct.Within mode

variable {w₀ : Wire}

/-- **A request is received and parsed.** -/
theorem WireRun.asked (h : WireRun crc mode d w₀ acts w) (hc : w.clients i = some ⟨c, .receiving⟩)
    (hlen : c.querybuf.buf.length = kvIobufLen) (hreq : Request args) : ∃ c₁, Parsed args c₁ ∧
      WireRun crc mode d w₀ (acts ++ [.receive i (encode args)] ++ [.parse i]) (w.put i (some ⟨c₁, .called⟩)) := by
  have h₁ := h.snoc (a := WireAct.receive i (encode args)) ⟨args, hreq, rfl⟩ (.receive hc hreq.fits)
  have hlen₁ : (c.recv (encode args)).querybuf.buf.length = kvIobufLen := by
    rw [KvClient.length_buf_recv c (by rw [hlen]; exact hreq.fits), hlen]
  have hparse := parsingMessage_parsed hreq.few hreq.ne_nil hreq.fits
    (show (c.recv (encode args)).querybuf.buf = encode args ++ c.querybuf.buf.drop (encode args).length from rfl)
  have h₂ := h₁.snoc (a := WireAct.parse i) trivial (.parse (w.clients_put i _) hparse)
  rw [Wire.put_put] at h₂
  exact ⟨_, parsed_of_received hreq hlen₁ rfl hparse, h₂⟩

/-- **A reply is sent.** -/
theorem WireRun.answered (h : WireRun crc mode d w₀ acts w) (hc : w.clients i = some ⟨c', .freeing⟩)
    (hparsed : Parsed args c) (htwo : 2 ≤ args.length) {text : Bytes} (hr : c.putReply text = .ok c') :
    ∃ c₂, c₂.querybuf.buf.length = kvIobufLen ∧
      WireRun crc mode d w₀ (acts ++ [.free i] ++ [.send i text]) (w.put i (some ⟨c₂, .receiving⟩)) := by
  obtain ⟨hargv, -, -, hbuf⟩ := KvClient.frame_putReply hr
  have harg : ∀ j, j < args.length → ∃ msg, c'.arg j = some msg := by
    intro j hj
    refine ⟨Msg.ofBytes args[j], ?_⟩
    rw [show c'.arg j = c.arg j by rw [KvClient.arg, KvClient.arg, hargv], hparsed.arg, List.getElem?_eq_getElem hj]
    rfl
  obtain ⟨c₁, hfree₀, hfree₁⟩ := KvClient.released_iff.mpr ⟨harg 0 (by omega), harg 1 (by omega), rfl⟩
  have hhold := (hparsed.holding_putReply hr).free hfree₀ |>.free hfree₁
  have hfit : c'.released.querybuf.len.toNat ≤ c'.released.querybuf.buf.length :=
    (KvClient.take_putReply hr hparsed.length).1
  have h₁ := h.snoc (a := WireAct.free i) trivial (.free hc hfree₀ hfree₁)
  have h₂ := h₁.snoc (a := WireAct.send i (c'.released.querybuf.buf.take c'.released.querybuf.len.toNat)) trivial
    (.send ((w.clients_put i _)) hfit)
  rw [Wire.put_put, hhold.reply hfit] at h₂
  exact ⟨_, hhold.length, h₂⟩

/-- **SET is served** when the mutex is free. -/
theorem WireRun.set (h : WireRun crc mode d w₀ acts w) (hc : w.clients i = some ⟨c, .called⟩) {name key val : Bytes}
    (hreq : Request [name, key, val]) (hparsed : Parsed [name, key, val] c) (hcmd : command (.ofBytes name) = .set)
    {t : Server} (hs : ServerStep crc mode d w.node.server (.set key val) t) : ∃ c₂, c₂.querybuf.buf.length = kvIobufLen ∧
      WireRun crc mode d w₀ (acts ++ [.check i] ++ [.execute i (.set key val)] ++ [.free i] ++ [.send i okReply])
        ((w.serve t).put i (some ⟨c₂, .receiving⟩)) := by
  have h₁ := h.snoc (a := WireAct.check i) trivial (.check hc (.inl rfl) (hparsed.arg 0) hcmd)
  obtain ⟨c', hr⟩ := (KvClient.putReply_ok_iff (c := c)).mpr
    (show okReply.length < c.querybuf.buf.length by rw [hparsed.length]; decide)
  have hstep := WireStep.set (w := w.put i (some ⟨c, .checked⟩)) (w.clients_put i _) (hparsed.arg 0) hcmd (hparsed.arg 1)
    (hparsed.arg 2) (by rw [hreq.bytes (by simp), hreq.bytes (by simp)]; exact hs) hr
  rw [hreq.bytes (by simp), hreq.bytes (by simp), Wire.serve_put, Wire.put_put] at hstep
  have h₂ := h₁.snoc (a := WireAct.execute i (.set key val)) trivial hstep
  obtain ⟨c₂, hlen, h₃⟩ := WireRun.answered h₂ (Wire.clients_put _ i _) hparsed (by simp) hr
  rw [Wire.put_put] at h₃
  exact ⟨c₂, hlen, h₃⟩

end EmbeddedKv.Net
