import EmbeddedKv.Net.CString

/-!
# Requests

The client of `server.h` and `parsingMessage` of `util.c`, which finds the arguments of
a request in the query buffer.

## The model

A position in the buffer is an index; reading or writing behind its end is undefined, and
so is the difference of `NULL` and a pointer. `char` is signed. An object is its message;
its other fields are left out, and so are the log messages. Allocations succeed, up to the
sizes that no allocation can have: those of a negative count or length.

Which request an object was created from is noted in `argv`; the code has no such note.
-/

namespace EmbeddedKv.Net

open EmbeddedKv.Library EmbeddedKv.Flash

/-- `KV_IOBUF_LEN`. -/
def kvIobufLen : ℕ := 1024 * 16

theorem kvIobufLen_lt {k : ℕ} (hk : 15 ≤ k) : kvIobufLen < 2 ^ k :=
  Nat.lt_of_lt_of_le (show kvIobufLen < 2 ^ 15 by decide) (Nat.pow_le_pow_right Nat.zero_lt_two hk)

/-- `'*'`. -/
abbrev star : UInt8 := 42

/-- `'$'`. -/
abbrev dollar : UInt8 := 36

/-! ### The client -/

/-- `struct msg`. -/
structure Msg where
  /-- `len`. -/
  len : UInt32
  /-- `buf`: the bytes that are allocated. -/
  buf : Bytes
  deriving DecidableEq, Repr

/-- A place in `argv`. -/
inductive Arg where
  /-- It was not written since its allocation. -/
  | unwritten
  /-- An object, which was created from the request of this number. -/
  | object (request : ℕ) (msg : Msg)
  /-- An object that was freed. -/
  | freed
  deriving DecidableEq, Repr

/-- `struct kvClient`. -/
structure KvClient where
  /-- `querybuf`. -/
  querybuf : Msg
  /-- `argc`. -/
  argc : ℕ
  /-- `argv`. -/
  argv : List Arg
  /-- The number of requests received so far. -/
  requests : ℕ
  deriving DecidableEq, Repr

/-- `createObject(ptr, len)`, for the memory from `ptr` on. -/
def createObject (ptr : Bytes) (len : ℕ) : Except Stop Msg :=
  if ptr.length < len then .error .undefined else .ok ⟨UInt32.ofNat len, ptr.take len ++ [0]⟩

namespace KvClient

/-! ### `parsingMessage` -/

/-- The end of a round of the loop: the zero byte behind the argument, its object, and
the length in the query buffer. -/
def addArg (c : KvClient) (pos : ℕ) (len : Int64) : Except Stop KvClient :=
  -- a negative length is either out of range here or more than `createObject` can allocate
  if len.toInt < 0 ∨ c.querybuf.buf.length ≤ pos + len.toInt.toNat then .error .undefined
  else
    let buf := c.querybuf.buf.set (pos + len.toInt.toNat) 0
    match createObject (buf.drop pos) len.toInt.toNat with
    | .error e => .error e
    | .ok msg =>
      if c.argc < c.argv.length then
        .ok { c with querybuf := ⟨UInt32.ofNat len.toInt.toNat, buf⟩
                     argv := c.argv.set c.argc (.object c.requests msg)
                     argc := c.argc + 1 }
      else .error .undefined

/-- The loop of `parsingMessage`, with `n` arguments to come. -/
def parsingLoop : ℕ → ℕ → Int64 → KvClient → Except Stop KvClient
  | 0, _, _, c => .ok c
  | n + 1, pos, len, c =>
    match strchr cr (c.querybuf.buf.drop pos) with
    | .error e => .error e
    | .ok newline =>
      if c.querybuf.buf[pos]? ≠ some dollar then .ok c
      else
        match newline with
        | none => .error .undefined
        | some newline =>
          match string2ll (c.querybuf.buf.drop (pos + 1)) (newline + 1) with
          | .error e => .error e
          | .ok value =>
            -- `len` stays what it was if there is no number
            let len := value.getD len
            match c.addArg (pos + newline + 2) len with
            | .error e => .error e
            | .ok c => parsingLoop n (pos + newline + 2 + (len.toInt.toNat + 2)) len c

/-- `parsingMessage(c)`. -/
def parsingMessage (c : KvClient) : Except Stop KvClient :=
  match c.querybuf.buf[0]? with
  | none => .error .undefined
  | some b =>
    if b ≠ star then .ok c
    else
      match strchr cr c.querybuf.buf with
      | .error e => .error e
      | .ok none => .ok c
      | .ok (some newline) =>
        match c.querybuf.buf[1]? with
        | none => .error .undefined
        | some count =>
          let msgLen := count.toInt8.toInt - 48
          if msgLen < 0 then .error .undefined
          else
            parsingLoop msgLen.toNat (newline + 2) 0
              { c with argc := 0, argv := List.replicate msgLen.toNat .unwritten }

end KvClient

end EmbeddedKv.Net
