import EmbeddedKv.Net.BinarySafe

/-!
# Replies from memory fit

GET prints a value into the query buffer without a bound. A value in memory was set by a
request, though, which had a place in a buffer of the same length: the headers of three
arguments, and the first line, take more of it than what the reply has around the value.

## What is proved

* `Items.total_le`: arguments and their headers do not overlap.
* `get_reply_fits`: the reply with a value that was set fits, with its zero byte.
-/

namespace EmbeddedKv.Net

open EmbeddedKv.Library EmbeddedKv.Flash EmbeddedKv.Store EmbeddedKv.Tiers

variable {σ : Type*} {B : Storage σ} {c c' : KvClient} {s s' : σ} {buf mem mem' front val : Bytes} {args : List Bytes}
  {n : ℕ} {len : Int64}

/-- An argument takes four bytes more than it has: `$`, the end of its line, and the zero
byte behind it. -/
theorem Items.total_le (h : Items n len mem args mem') : (args.map fun a => a.length + 4).sum ≤ mem.length := by
  induction h with
  | done => exact Nat.zero_le _
  | broken => exact Nat.zero_le _
  | @item n k len line body s' x args _ _ hin _ ih =>
    rw [List.length_drop] at ih
    rw [List.map_cons, List.sum_cons, List.length_take, Nat.min_eq_left (Nat.le_of_lt hin), List.length_append,
      List.length_cons, List.length_cons, List.length_cons]
    omega

/-- The first line takes two bytes. -/
theorem Announces.length_le (h : Announces buf n front mem) : mem.length + 2 ≤ buf.length := by
  have hlen := h.length_eq
  obtain ⟨line, rest, count, -, -, -, -, rfl, rfl⟩ := h
  simp only [List.length_append, List.length_cons] at hlen
  omega

/-- What is printed of a value, with the zero byte behind it. -/
theorem length_bulkReply_le (hval : val.length < 10 ^ 5) :
    (bulkReply val.length (cString val)).length + 1 ≤ val.length + 11 := by
  have hdigits := length_decimal_le (by omega) hval
  have hstring := length_cString_le val
  simp only [bulkReply, List.length_cons, List.length_append, List.length_nil]
  omega

/-- **The buffer is a request to set this value**: `parsingMessage` stays in the buffer,
and `processCMD` takes the branch of `set` with this value. -/
def KvClient.IsSet (c : KvClient) (val : Msg) : Prop :=
  ∃ c₁ name, ¬ NoRequest c.querybuf.buf ∧ c.parsingMessage = .ok c₁ ∧ c₁.arg 0 = some name ∧ command name = .set ∧
    c₁.arg 2 = some val

/-- The value is shorter than its request. -/
theorem KvClient.IsSet.length_le {val : Msg} (h : c.IsSet val) :
    ∃ bytes, val = .ofBytes bytes ∧ bytes.length + 14 ≤ c.querybuf.buf.length := by
  obtain ⟨c₁, name, hreq, hparse, hname, -, hval⟩ := h
  obtain ⟨hno, -⟩ | ⟨n, front, mem, args, mem', ha, hi, rfl⟩ := parsingMessage_iff.mp hparse
  · exact absurd hno hreq
  · rw [arg_parsed c hi.length_le] at hval
    obtain ⟨bytes, hbytes, rfl⟩ := Option.map_eq_some_iff.mp hval
    refine ⟨bytes, rfl, ?_⟩
    have htotal := hi.total_le
    have hfirst := ha.length_le
    match args, hbytes with
    | _ :: _ :: _ :: more, rfl =>
      simp only [List.map_cons, List.sum_cons] at htotal
      omega

/-- **GET of a value in memory never overflows the query buffer**: if the value was set by
a request whose buffer `parsingMessage` does not leave, then a GET that finds it, later and
on any connection, comes to its end, and what it prints fits with its zero byte. -/
theorem get_reply_fits {val name key : Msg} (hbuf : c.querybuf.buf.length ≤ kvIobufLen) (hset : c.IsSet val)
    (hlen : c'.querybuf.buf.length = kvIobufLen) (hname : c'.arg 0 = some name) (hcmd : command name = .get)
    (hkey : c'.arg 1 = some key) (hget : B.getCommand s key (.memory val.bytes) s') :
    ∃ text c'', (Found.memory val.bytes).reply = .ok text ∧ text.length + 1 ≤ kvIobufLen ∧
      c'.putReply text = .ok c'' ∧ c'.ProcessCMD B s c'' s' := by
  obtain ⟨bytes, rfl, hle⟩ := hset.length_le
  have hsize : bytes.length < 2 ^ 14 := by
    have hmax : kvIobufLen = 2 ^ 14 := rfl
    omega
  have hbytes : (Msg.ofBytes bytes).bytes = bytes := Msg.bytes_ofBytes (by omega)
  rw [hbytes] at hget ⊢
  have hfit := length_bulkReply_le (show bytes.length < 10 ^ 5 by omega)
  have hreply : (Found.memory bytes).reply = .ok (bulkReply bytes.length (cString bytes)) := if_neg (by omega)
  obtain ⟨c'', hput⟩ := (KvClient.putReply_ok_iff (c := c')).mpr
    (show (bulkReply bytes.length (cString bytes)).length < c'.querybuf.buf.length by omega)
  exact ⟨_, c'', hreply, by omega, hput, .get hname hcmd hkey hget hreply hput⟩

/-- `set a b`, and `get a` on another connection. -/
theorem get_reply_fits_text : (KvClient.fresh.recv (encode [[115, 101, 116], [97], [98]])).IsSet (.ofBytes [98]) ∧
    ∃ c c' s s', (KvClient.fresh.recv (encode [[103, 101, 116], [97]])).parsingMessage = .ok c ∧
      c.putReply (bulkReply 1 [98]) = .ok c' ∧ c.ProcessCMD (memLru (fun _ => 0) .direct .undefined False) s c' s' := by
  have hlen := KvClient.connected_fresh.1
  have hset : command (.ofBytes [115, 101, 116]) = .set := rfl
  have hget : command (.ofBytes [103, 101, 116]) = .get := rfl
  -- the value is in memory after the round of `set`
  obtain ⟨hends, hafter⟩ := sets (fun _ => 0) .direct .undefined (Server.unevicted_start ⟨20, 0, 1000⟩ 0) hlen
    hset (show [97] ≠ [] by simp) (show [98] ≠ [] by simp) (by decide)
  obtain ⟨⟨_, s⟩, hround⟩ := hends rfl
  obtain ⟨-, hblocked, -, hs, -, hvalue⟩ := hafter _ s okReply hround
  obtain ⟨s', hfound⟩ : ∃ s', (memLru (fun _ => 0) .direct .undefined False).getCommand s (.ofBytes [97])
      (.memory [98]) s' :=
    (memLru_getCommand_iff hs hblocked _).mpr (show finds s [97] = some (.memory [98]) by rw [finds, hvalue]; rfl)
  obtain ⟨buf, -, hparse⟩ := parsed_encode hlen (show [[115, 101, 116], [97], [98]].length ≤ 9 by simp) (by simp) (by decide)
  obtain ⟨buf', hbuf', hparse'⟩ := parsed_encode hlen (show [[103, 101, 116], [97]].length ≤ 9 by simp) (by simp) (by decide)
  have hreq : ¬ NoRequest (KvClient.fresh.recv (encode [[115, 101, 116], [97], [98]])).querybuf.buf := fun hno =>
    not_announces_of_noRequest hno (announces_encode (by simp) _)
  have hisSet : (KvClient.fresh.recv (encode [[115, 101, 116], [97], [98]])).IsSet (.ofBytes [98]) :=
    ⟨_, _, hreq, hparse, KvClient.arg_parsed _ (Nat.le_refl _) buf 0, hset, KvClient.arg_parsed _ (Nat.le_refl _) buf 2⟩
  have harg := KvClient.arg_parsed (KvClient.fresh.recv (encode [[103, 101, 116], [97]]))
    (Nat.le_refl [[103, 101, 116], [97]].length) buf'
  have hfits : (KvClient.fresh.recv (encode [[115, 101, 116], [97], [98]])).querybuf.buf.length ≤ kvIobufLen := by
    rw [KvClient.length_buf_recv _ (hlen ▸ by decide), hlen]
  obtain ⟨text, c', htext, -, hput, hcmd⟩ := get_reply_fits hfits hisSet hbuf' (harg 0) hget (harg 1) hfound
  obtain rfl : bulkReply 1 [98] = text := Except.ok.inj htext
  exact ⟨hisSet, _, c', s, s', hparse', hput, hcmd⟩

end EmbeddedKv.Net
