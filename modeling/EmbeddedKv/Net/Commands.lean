import EmbeddedKv.Net.Query

/-!
# Commands

`processCMD` of `command.c`, with the replies that `setCommand` and `getCommand` put into
the query buffer, and the loop of `bworkerRecvJobs` around it.

## The model

What the commands do to the store is a parameter, a `Storage`: the two memory modes have
different ones, and other threads change the store in between. A command may have several
outcomes, or none if it does not return.

A command reads its arguments from places of `argv` that hold an object; for others there
is no outcome. `KvClient.uses` lists the places that a request uses. The replies are
printed with `%s`, up to the first zero byte of the memory they are in. `write` sends all
bytes.
-/

namespace EmbeddedKv.Net

open EmbeddedKv.Library EmbeddedKv.Flash

variable {σ : Type*}

/-! ### The commands -/

/-- `tolower`. -/
def toLower (b : UInt8) : UInt8 := if 65 ≤ b ∧ b ≤ 90 then b + 32 else b

/-- `msgcmp(s, dest)`, for a `dest` in lower case. -/
def msgcmp (s : Msg) (dest : Bytes) : Bool := decide ((cstr s.buf).map toLower = dest)

/-- The branches of `processCMD`. -/
inductive Command where
  /-- `"set"`. -/
  | set
  /-- `"get"`. -/
  | get
  /-- `"scan"`. -/
  | scan
  /-- `"kill"`. -/
  | kill
  /-- `"evict"`. -/
  | evict
  /-- Any other name. -/
  | other
  deriving DecidableEq, Repr

/-- The branch for a name. -/
def command (name : Msg) : Command :=
  if msgcmp name [115, 101, 116] then .set
  else if msgcmp name [103, 101, 116] then .get
  else if msgcmp name [115, 99, 97, 110] then .scan
  else if msgcmp name [107, 105, 108, 108] then .kill
  else if msgcmp name [101, 118, 105, 99, 116] then .evict
  else .other

/-- The places of `argv` that a branch reads, after the name. -/
def Command.args : Command → List ℕ
  | .set => [1, 2]
  | .get => [1]
  | _ => []

/-! ### The store -/

/-- What `getCommand` finds. -/
inductive Found where
  /-- An object in memory, of these bytes. -/
  | memory (val : Bytes)
  /-- The array that the flash cache returns, and the memory behind it. -/
  | flash (val beyond : Bytes)
  /-- Nothing. -/
  | absent

/-- What the commands do to the store. -/
structure Storage (σ : Type*) where
  /-- `memUsedCheck(c)`, and `setCommand(c, key, val)` up to its reply. -/
  setCommand : σ → Msg → Msg → σ → Prop
  /-- `getCommand(c, key)` up to its reply. -/
  getCommand : σ → Msg → Found → σ → Prop
  /-- `flashCacheDestroy(server.db->flashCache)`. -/
  flashCacheDestroy : σ → σ → Prop
  /-- `evictAllCommand()`. -/
  evictAllCommand : σ → σ → Prop

/-! ### The replies -/

/-- `"+OK\r\n"`. -/
def okReply : Bytes := [43, 79, 75, cr, lf]

/-- `"$7\r\n+Empty!\r\n"`. -/
def emptyReply : Bytes := [dollar, 55, cr, lf, 43, 69, 109, 112, 116, 121, 33, cr, lf]

/-- `"$%d\r\n%s\r\n"`. -/
def bulkReply (n : ℕ) (text : Bytes) : Bytes := dollar :: decimal n ++ cr :: lf :: (text ++ [cr, lf])

/-- What `getCommand` prints. A length is an `int`, and a string has to end. -/
def Found.reply : Found → Except Stop Bytes
  | .absent => .ok emptyReply
  | .memory val => if 2 ^ 31 ≤ val.length then .error .undefined else .ok (bulkReply val.length (cstr (val ++ [0])))
  | .flash val beyond =>
    if 2 ^ 31 ≤ val.length ∨ 0 ∉ val ++ beyond then .error .undefined
    else .ok (bulkReply val.length (cstr (val ++ beyond)))

namespace KvClient

/-- The text, a zero byte behind it, and its length are put into the query buffer. -/
def putReply (c : KvClient) (text : Bytes) : Except Stop KvClient :=
  if c.querybuf.buf.length ≤ text.length then .error .undefined
  else .ok { c with querybuf := ⟨UInt32.ofNat text.length, text ++ 0 :: c.querybuf.buf.drop (text.length + 1)⟩ }

/-- The reply to any other name: the zero byte falls onto the last byte of the text. -/
def putOther (c : KvClient) : Except Stop KvClient :=
  if c.querybuf.buf.length < 5 then .error .undefined
  else .ok { c with querybuf := ⟨5, [43, 79, 75, cr, 0] ++ c.querybuf.buf.drop 5⟩ }

/-! ### `processCMD` -/

/-- The object at a place of `argv`. -/
def arg (c : KvClient) (i : ℕ) : Option Msg :=
  match c.argv[i]? with
  | some (.object _ msg) => some msg
  | _ => none

/-- **`processCMD(c)`.** -/
inductive ProcessCMD (B : Storage σ) (c : KvClient) (s : σ) : KvClient → σ → Prop where
  /-- `set`. -/
  | set {name key val : Msg} {s' : σ} {c' : KvClient} (hname : c.arg 0 = some name) (hcmd : command name = .set)
      (hkey : c.arg 1 = some key) (hval : c.arg 2 = some val) (hset : B.setCommand s key val s')
      (hreply : c.putReply okReply = .ok c') : ProcessCMD B c s c' s'
  /-- `get`. -/
  | get {name key : Msg} {found : Found} {text : Bytes} {s' : σ} {c' : KvClient} (hname : c.arg 0 = some name)
      (hcmd : command name = .get) (hkey : c.arg 1 = some key) (hget : B.getCommand s key found s')
      (htext : found.reply = .ok text) (hreply : c.putReply text = .ok c') : ProcessCMD B c s c' s'
  /-- `scan`, which does nothing. -/
  | scan {name : Msg} (hname : c.arg 0 = some name) (hcmd : command name = .scan) : ProcessCMD B c s c s
  /-- `kill`. -/
  | kill {name : Msg} {s' : σ} (hname : c.arg 0 = some name) (hcmd : command name = .kill)
      (hkill : B.flashCacheDestroy s s') : ProcessCMD B c s c s'
  /-- `evict`. -/
  | evict {name : Msg} {s' : σ} (hname : c.arg 0 = some name) (hcmd : command name = .evict)
      (hevict : B.evictAllCommand s s') : ProcessCMD B c s c s'
  /-- Any other name. -/
  | other {name : Msg} {c' : KvClient} (hname : c.arg 0 = some name) (hcmd : command name = .other)
      (hreply : c.putOther = .ok c') : ProcessCMD B c s c' s

/-- **What `processCMD` does** for a name. -/
theorem ProcessCMD.inv {B : Storage σ} {c c' : KvClient} {s s' : σ} {name : Msg} (h : c.ProcessCMD B s c' s')
    (hname : c.arg 0 = some name) :
    match command name with
    | .set => ∃ key val, c.arg 1 = some key ∧ c.arg 2 = some val ∧ B.setCommand s key val s' ∧
        c.putReply okReply = .ok c'
    | .get => ∃ key found text, c.arg 1 = some key ∧ B.getCommand s key found s' ∧ found.reply = .ok text ∧
        c.putReply text = .ok c'
    | .scan => c' = c ∧ s' = s
    | .kill => c' = c ∧ B.flashCacheDestroy s s'
    | .evict => c' = c ∧ B.evictAllCommand s s'
    | .other => c.putOther = .ok c' ∧ s' = s := by
  have hsame : ∀ {name' : Msg} {cmd : Command}, c.arg 0 = some name' → command name' = cmd → command name = cmd :=
    fun hname' hcmd => Option.some.inj (hname'.symm.trans hname) ▸ hcmd
  cases h with
  | set hname' hcmd hkey hval hset hreply =>
    rw [hsame hname' hcmd]
    exact ⟨_, _, hkey, hval, hset, hreply⟩
  | get hname' hcmd hkey hget htext hreply =>
    rw [hsame hname' hcmd]
    exact ⟨_, _, _, hkey, hget, htext, hreply⟩
  | scan hname' hcmd =>
    rw [hsame hname' hcmd]
    exact ⟨rfl, rfl⟩
  | kill hname' hcmd hkill =>
    rw [hsame hname' hcmd]
    exact ⟨rfl, hkill⟩
  | evict hname' hcmd hevict =>
    rw [hsame hname' hcmd]
    exact ⟨rfl, hevict⟩
  | other hname' hcmd hreply =>
    rw [hsame hname' hcmd]
    exact ⟨hreply, rfl⟩

/-! ### The loop -/

/-- `tcpRecv(c)`, when `read` returns these bytes; for none of them, when it fails. -/
def recv (c : KvClient) (received : Bytes) : KvClient :=
  { c with querybuf := { c.querybuf with buf := received ++ c.querybuf.buf.drop received.length }
           requests := c.requests + 1 }

/-- `chfree(c->argv[i])`. -/
def free (c : KvClient) (i : ℕ) : Except Stop KvClient :=
  match c.arg i with
  | none => .error .undefined
  | some _ => .ok { c with argv := c.argv.set i .freed }

/-- The places of `argv` that `processCMD` and the loop after it use. The first one has to
hold an object, or there is no name. -/
def uses (c : KvClient) : List ℕ :=
  match c.arg 0 with
  | none => [0]
  | some name => 0 :: (command name).args ++ [0, 1]

/-- The object at this place was created from the last request, and counts. -/
def Own (c : KvClient) (i : ℕ) : Prop := i < c.argc ∧ ∃ msg, c.argv[i]? = some (.object c.requests msg)

end KvClient

/-- **One round of `bworkerRecvJobs`**: `received` is read, and `sent` is written. -/
inductive Round (B : Storage σ) : KvClient × σ → Bytes → Bytes → KvClient × σ → Prop where
  /-- The request is parsed and executed, two arguments are freed, and the reply is sent. -/
  | round {c c₁ c₂ c₃ c₄ : KvClient} {s s' : σ} {received : Bytes} (hrecv : received.length ≤ kvIobufLen)
      (hparse : (c.recv received).parsingMessage = .ok c₁) (hcmd : c₁.ProcessCMD B s c₂ s')
      (hfree₀ : c₂.free 0 = .ok c₃) (hfree₁ : c₃.free 1 = .ok c₄)
      (hsend : c₄.querybuf.len.toNat ≤ c₄.querybuf.buf.length) :
      Round B (c, s) received (c₄.querybuf.buf.take c₄.querybuf.len.toNat) (c₄, s')

/-- What happens around a connection. -/
inductive LoopAct where
  /-- A request is received. -/
  | request (received : Bytes)
  /-- Other threads change the store. -/
  | others

/-- **One step of a connection.** -/
inductive LoopStep (B : Storage σ) : KvClient × σ → LoopAct → KvClient × σ → Prop where
  /-- A round. -/
  | request {t t' : KvClient × σ} {received sent : Bytes} (h : Round B t received sent t') :
      LoopStep B t (.request received) t'
  /-- The store is another one. -/
  | others {c : KvClient} {s s' : σ} : LoopStep B (c, s) .others (c, s')

/-- A client that has just connected: `argv` was not allocated yet. -/
def KvClient.Connected (c : KvClient) : Prop := c.querybuf.buf.length = kvIobufLen ∧ c.argv = []

end EmbeddedKv.Net
