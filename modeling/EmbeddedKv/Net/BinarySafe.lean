import EmbeddedKv.Net.Reply
import EmbeddedKv.Tiers.Unevicted

/-!
# SET and GET of arbitrary bytes

The arguments of a request and the values in memory have a length, but keys go to the LRU
cache as zero-terminated strings, and replies are printed as such. SET and GET are about
the bytes that were sent exactly if the value has no zero byte, and the keys are not the
same string (`set_get_binary_iff`).
-/

namespace EmbeddedKv.Net

open EmbeddedKv.Library EmbeddedKv.Flash EmbeddedKv.Store EmbeddedKv.Tiers Relation

variable {crc : Bytes → UInt32} {mode : FlashcacheMode} {d : DeadNode} {s t : Server} {c c' : KvClient}
  {opt : FlashCacheConfig} {size : UInt64} {key val sent name : Bytes} {found : Found}

/-! ### The commands without evictions -/

/-- `memUsedCheck` changes nothing. -/
theorem memUsedCheck_eq (h : s.Unevicted) (hs : MemUsedCheck crc mode d False s t) : t = s := by
  obtain ⟨s₁, rfl | ⟨hfalse, -⟩, hsteps⟩ := hs
  · rcases hsteps.cases_head with heq | ⟨_, ⟨a, hstep⟩, -⟩
    · exact heq.symm
    · exact absurd hstep h.not_bworker
  · exact hfalse.elim

variable (crc mode d) in
/-- **SET** comes to its end unless a GET waits, and writes the value. -/
theorem memLru_setCommand (h : s.Unevicted) (k v : Msg) : ∃ db,
    (s.blocked = false → ({ s with db } : Server).Unevicted) ∧ db.flashCache = s.db.flashCache ∧
      (∀ j, db.value j = if j = cString k.bytes then some v.bytes else s.db.value j) ∧
      ∀ t, (memLru crc mode d False).setCommand s k v t ↔ s.blocked = false ∧ t = { s with db } := by
  obtain ⟨db, hr, hflash, hvalue⟩ := h.value_set k.bytes v.bytes
  have hfree : s.bworker.holdsMutex = false := by rw [h.waiting]; rfl
  have htouch := h.touch_eq (h.not_pending (cString k.bytes)) d
  have hstep : s.blocked = false → ServerStep crc mode d s (.set k.bytes v.bytes) { s with db } :=
    .set hfree (htouch.symm ▸ hr)
  refine ⟨db, fun hblocked => (hstep hblocked).unevicted (by nofun) h, hflash, hvalue, fun t => ⟨?_, ?_⟩⟩
  · rintro ⟨s₁, hcheck, hset⟩
    obtain rfl := memUsedCheck_eq h hcheck
    cases hset with
    | set _ hr' hblocked =>
      rw [htouch] at hr'
      rw [Except.ok.inj (hr'.symm.trans hr)]
      exact ⟨hblocked, rfl⟩
  · rintro ⟨hblocked, rfl⟩
    exact ⟨s, ⟨s, .inl rfl, .refl⟩, hstep hblocked⟩

/-- What GET finds under a string, if it comes to its end. -/
def finds (s : Server) (k : Bytes) : Option Found :=
  match s.db.value k with
  | some val => some (.memory val)
  | none => if s.db.flashCache.fcacheMutex then none else some .absent

/-- **GET** finds the value in memory, unless another one waits. -/
theorem memLru_getCommand_iff (h : s.Unevicted) (hblocked : s.blocked = false) (k : Msg) :
    (∃ t, (memLru crc mode d False).getCommand s k found t) ↔ finds s (cString k.bytes) = some found := by
  have hfree : s.bworker.holdsMutex = false := by rw [h.waiting]; rfl
  have htouch := h.touch_eq (h.not_pending (cString k.bytes)) d
  have hcases := h.getCommand_cases crc mode
  have hmem : ∀ {val : Bytes}, s.db.value (cString k.bytes) = some val → s.db.memLRU.find (cString k.bytes) ≠ none := by
    intro val hval hnone
    rw [(h.find_eq_none _).mp hnone] at hval
    cases hval
  constructor
  · rintro ⟨t, -, -, env, r, db, hr, -, hfound⟩
    rw [htouch] at hr
    obtain ⟨val, lru, hval, heq⟩ | ⟨-, -, heq⟩ | ⟨lru, hnone, hm, heq⟩ := hcases env k.bytes
    · cases hr.symm.trans heq
      simp only [if_neg (hmem hval)] at hfound
      rw [finds, hval]
      exact congrArg some hfound.symm
    · cases hr.symm.trans heq
    · cases hr.symm.trans heq
      rw [finds, hnone, hm]
      exact congrArg some hfound.symm
  · intro hfinds
    obtain ⟨val, lru, hval, heq⟩ | ⟨hnone, hm, -⟩ | ⟨lru, hnone, hm, heq⟩ := hcases ⟨[], [], false, []⟩ k.bytes
    · rw [finds, hval] at hfinds
      refine ⟨_, hfree, hblocked, _, _, _, htouch.symm ▸ heq, rfl, ?_⟩
      simp only [if_neg (hmem hval)]
      exact (Option.some.inj hfinds).symm
    · rw [finds, hnone, hm] at hfinds
      cases hfinds
    · rw [finds, hnone, hm] at hfinds
      exact ⟨_, hfree, hblocked, _, _, _, htouch.symm ▸ heq, rfl, (Option.some.inj hfinds).symm⟩

/-! ### What is read -/

/-- `"+Empty!"`. -/
def emptyText : Bytes := [43, 69, 109, 112, 116, 121, 33]

/-- GET prints the value: it is there, or GET answers what it answers for no value. -/
def Reads (s : Server) (k val : Bytes) : Prop :=
  s.db.value k = some val ∨ s.db.value k = none ∧ s.db.flashCache.fcacheMutex = false ∧ val = emptyText

/-- A string of the bytes' number has no zero byte. -/
theorem cString_eq_self_iff : cString val = val ↔ NulFree val := by
  constructor
  · intro h
    exact ((length_cstr_append_iff (show 0 ∈ val ++ [0] by simp)).mp (congrArg List.length h)).1
  · exact cString_of_nulFree

theorem length_cString_le (val : Bytes) : (cString val).length ≤ val.length := by
  by_cases h : 0 ∈ val
  · exact Nat.le_of_lt (length_cstr_lt h [0])
  · rw [cString_of_nulFree fun b hb hzero => h (hzero ▸ hb)]

/-- What GET prints of a value in memory. -/
theorem reply_memory_iff (hfit : (bulkReply val.length val).length < kvIobufLen) :
    (Found.memory val).reply = .ok sent ∧ sent.length < kvIobufLen ↔ sent = bulkReply val.length (cString val) := by
  have hlt := lt_length_bulkReply val.length val
  have hsize : kvIobufLen < 2 ^ 31 := kvIobufLen_lt (by omega)
  have hreply : (Found.memory val).reply = .ok (bulkReply val.length (cString val)) := if_neg (by omega)
  rw [hreply]
  constructor
  · rintro ⟨h, -⟩
    exact (Except.ok.inj h).symm
  · rintro rfl
    refine ⟨rfl, ?_⟩
    have hle := length_cString_le val
    simp only [bulkReply, List.length_cons, List.length_append] at hfit ⊢
    omega

/-- **GET sends the value**, and nothing else, exactly if it reads it. -/
theorem reads_iff {k : Bytes} (hval : NulFree val) (hfit : (bulkReply val.length val).length < kvIobufLen) :
    (∀ sent, (∃ found, finds s k = some found ∧ found.reply = .ok sent ∧ sent.length < kvIobufLen) ↔
      sent = bulkReply val.length val) ↔ Reads s k val := by
  have hself : ∀ {sent : Bytes}, (Found.memory val).reply = .ok sent ∧ sent.length < kvIobufLen ↔
      sent = bulkReply val.length val := by
    intro sent
    rw [reply_memory_iff hfit, cString_of_nulFree hval]
  rw [finds, Reads]
  cases hv : s.db.value k with
  | some w =>
    simp only [Option.some.injEq, exists_eq_left', reduceCtorEq, false_and, or_false]
    constructor
    · intro h
      obtain ⟨hreply, -⟩ := (h _).mpr rfl
      simp only [Found.reply] at hreply
      split_ifs at hreply
      obtain ⟨hlen, htext⟩ := bulkReply_inj (Except.ok.inj hreply)
      have hw : NulFree w := ((length_cstr_append_iff (show 0 ∈ w ++ [0] by simp)).mp (by rw [htext, hlen])).1
      rw [← htext, cstr_terminated hw]
    · rintro rfl sent
      exact hself
  | none =>
    simp only [reduceCtorEq, false_or, true_and]
    cases s.db.flashCache.fcacheMutex with
    | true =>
      simp only [if_true, reduceCtorEq, false_and, exists_false, false_iff, iff_false]
      exact fun h => h _ rfl
    | false =>
      simp only [Bool.false_eq_true, if_false, Option.some.injEq, exists_eq_left', true_and]
      constructor
      · intro h
        obtain ⟨hreply, -⟩ := (h _).mpr rfl
        exact (bulkReply_inj (show bulkReply emptyText.length emptyText = _ from Except.ok.inj hreply)).2.symm
      · rintro rfl sent
        exact ⟨fun h => (Except.ok.inj h.1).symm, fun h => h ▸ ⟨rfl, hfit⟩⟩

/-! ### Requests -/

/-- GET of the key may send this. -/
def Gets {σ : Type*} (B : Storage σ) (c : KvClient) (s : σ) (name key sent : Bytes) : Prop :=
  ∃ t, Round B (c, s) (encode [name, key]) sent t

/-- A name of a command has bytes. -/
theorem name_ne_nil {cmd : Command} (hcmd : command (.ofBytes name) = cmd) (hne : cmd ≠ .other) : name ≠ [] := by
  rintro rfl
  exact hne hcmd.symm

/-- An encoded request is parsed. -/
theorem parsed_encode {args : List Bytes} (hlen : c.querybuf.buf.length = kvIobufLen) (h9 : args.length ≤ 9)
    (hne : ∀ a ∈ args, a ≠ []) (hfit : (encode args).length ≤ kvIobufLen) : ∃ buf, buf.length = kvIobufLen ∧
      (c.recv (encode args)).parsingMessage = .ok ((c.recv (encode args)).parsed args.length args buf) := by
  have hparse := parsingMessage_parsed (c := c.recv (encode args)) h9 hne hfit rfl
  exact ⟨_, KvClient.length_buf_parsed hlen hfit hparse, hparse⟩

theorem gets_iff {σ : Type*} {B : Storage σ} {s : σ} (hlen : c.querybuf.buf.length = kvIobufLen)
    (hcmd : command (.ofBytes name) = .get) (hkey : key ≠ []) (hfit : (encode [name, key]).length ≤ kvIobufLen) :
    Gets B c s name key sent ↔
      ∃ found, (∃ t, B.getCommand s (.ofBytes key) found t) ∧ found.reply = .ok sent ∧ sent.length < kvIobufLen := by
  obtain ⟨buf, hbuf, hparse⟩ := parsed_encode hlen (show [name, key].length ≤ 9 by simp)
    (by simp [name_ne_nil hcmd (by simp), hkey]) hfit
  have hput : ∀ text : Bytes, (∃ c₂, ((c.recv (encode [name, key])).parsed [name, key].length [name, key] buf).putReply
      text = .ok c₂) ↔ text.length < kvIobufLen := fun text => hbuf ▸ KvClient.putReply_ok_iff
  constructor
  · rintro ⟨⟨c', t⟩, hround⟩
    obtain ⟨found, hget, hreply, c₂, hfits, -⟩ :=
      (round_get_iff hfit (Nat.le_refl _) hparse hbuf rfl hcmd).mp hround
    exact ⟨found, ⟨t, hget⟩, hreply, (hput sent).mp ⟨c₂, hfits⟩⟩
  · rintro ⟨found, ⟨t, hget⟩, hreply, hshort⟩
    obtain ⟨c₂, hfits⟩ := (hput sent).mpr hshort
    exact ⟨_, (round_get_iff hfit (Nat.le_refl _) hparse hbuf rfl hcmd).mpr ⟨found, hget, hreply, c₂, hfits, rfl⟩⟩

variable (crc mode d) in
/-- **A round of SET** without evictions: it comes to its end unless a GET waits, the buffer keeps
its length, and the value is written. -/
theorem sets (h : s.Unevicted) (hlen : c.querybuf.buf.length = kvIobufLen) (hcmd : command (.ofBytes name) = .set)
    (hkey : key ≠ []) (hval : val ≠ []) (hfit : (encode [name, key, val]).length ≤ kvIobufLen) :
    (s.blocked = false → ∃ t, Round (memLru crc mode d False) (c, s) (encode [name, key, val]) okReply t) ∧
      ∀ c' s' sent, Round (memLru crc mode d False) (c, s) (encode [name, key, val]) sent (c', s') →
        s.blocked = false ∧ s'.blocked = false ∧ c'.querybuf.buf.length = kvIobufLen ∧ s'.Unevicted ∧
          s'.db.flashCache = s.db.flashCache ∧ ∀ k, s'.db.value k = if k = cString key then some val else s.db.value k := by
  obtain ⟨buf, hbuf, hparse⟩ := parsed_encode hlen (show [name, key, val].length ≤ 9 by simp)
    (by simp [name_ne_nil hcmd (by simp), hkey, hval]) hfit
  have hbytes : ∀ a ∈ [name, key, val], (Msg.ofBytes a).bytes = a := fun a ha =>
    Msg.bytes_ofBytes ((length_lt_of_mem ha hfit).trans (kvIobufLen_lt (by omega)))
  obtain ⟨db, hgood, hflash, hvalue, hset⟩ := memLru_setCommand crc mode d h (.ofBytes key) (.ofBytes val)
  rw [hbytes key (by simp), hbytes val (by simp)] at hvalue
  constructor
  · intro hblocked
    obtain ⟨c₂, hput⟩ := (KvClient.putReply_ok_iff
      (c := (c.recv (encode [name, key, val])).parsed [name, key, val].length [name, key, val] buf)).mpr
        (show okReply.length < buf.length by rw [hbuf]; decide)
    exact ⟨_, (round_set_iff hfit (Nat.le_refl _) hparse hbuf rfl hcmd).mpr
      ⟨rfl, (hset _).mpr ⟨hblocked, rfl⟩, c₂, hput, rfl⟩⟩
  · intro c' s' sent hround
    obtain ⟨-, hs', c₂, hput, rfl⟩ := (round_set_iff hfit (Nat.le_refl _) hparse hbuf rfl hcmd).mp hround
    obtain ⟨hblocked, rfl⟩ := (hset s').mp hs'
    exact ⟨hblocked, hblocked, (KvClient.frame_putReply hput).2.2.2.trans hbuf, hgood hblocked, hflash, hvalue⟩

/-- **GET** without evictions sends what it finds in memory. -/
theorem gets_memLru_iff (h : s.Unevicted) (hblocked : s.blocked = false) (hlen : c.querybuf.buf.length = kvIobufLen)
    (hcmd : command (.ofBytes name) = .get) (hkey : key ≠ []) (hfit : (encode [name, key]).length ≤ kvIobufLen) :
    Gets (memLru crc mode d False) c s name key sent ↔
      ∃ found, finds s (cString key) = some found ∧ found.reply = .ok sent ∧ sent.length < kvIobufLen := by
  have hbytes : (Msg.ofBytes key).bytes = key :=
    Msg.bytes_ofBytes ((length_lt_of_mem (by simp) hfit).trans (kvIobufLen_lt (by omega)))
  simp only [gets_iff hlen hcmd hkey hfit, memLru_getCommand_iff h hblocked, hbytes]

/-- The reply to GET is shorter than the request that set the value. -/
theorem length_bulkReply_lt (hfit : (encode [name, key, val]).length ≤ kvIobufLen) :
    (bulkReply val.length val).length < kvIobufLen := by
  simp only [encode, encodeArg, bulkReply, List.flatMap_cons, List.length_cons, List.length_append] at hfit ⊢
  omega

/-! ### SET and GET -/

variable {key' set get : Bytes}

/-- **SET and GET are binary safe** for a value without a zero byte, and for keys that are
not the same string, or of which the other has the value already: exactly then GET sends
the value that was set, and SET changes no reply to GET of another key. SET comes to its end
exactly if no GET waits for the mutex of the flash cache. -/
theorem set_get_binary_iff
    (h : Reach (ServerStep crc mode d) (fun _ a => a ≠ .evict) (.start (.openEmpty opt size)) s)
    (hlen : c.querybuf.buf.length = kvIobufLen) (hset : command (.ofBytes set) = .set)
    (hget : command (.ofBytes get) = .get) (hkey : key ≠ []) (hval : val ≠ []) (hkey' : key' ≠ [])
    (hfit : (encode [set, key, val]).length ≤ kvIobufLen) (hfit₁ : (encode [get, key]).length ≤ kvIobufLen)
    (hfit₂ : (encode [get, key']).length ≤ kvIobufLen) :
    ((∃ t, Round (memLru crc mode d False) (c, s) (encode [set, key, val]) okReply t) ↔ s.blocked = false) ∧
    ∀ c' s' sent, Round (memLru crc mode d False) (c, s) (encode [set, key, val]) sent (c', s') →
      ((∀ reply, Gets (memLru crc mode d False) c' s' get key reply ↔ reply = bulkReply val.length val) ∧
        (key' ≠ key → ∀ reply, Gets (memLru crc mode d False) c' s' get key' reply ↔
          Gets (memLru crc mode d False) c s get key' reply) ↔
      NulFree val ∧ (key' ≠ key → cString key' = cString key → Reads s (cString key) val)) := by
  have hs := reach_unevicted h
  have hshort := length_bulkReply_lt hfit
  obtain ⟨hround, hafter⟩ := sets crc mode d hs hlen hset hkey hval hfit
  refine ⟨⟨fun ⟨⟨c', s'⟩, hsent⟩ => (hafter c' s' _ hsent).1, hround⟩, fun c' s' sent hsent => ?_⟩
  obtain ⟨hblocked, hblocked', hlen', hs', hflash, hvalue⟩ := hafter c' s' sent hsent
  have hfinds : ∀ {k}, k = cString key → finds s' k = some (.memory val) := by
    rintro k rfl
    rw [finds, hvalue, if_pos rfl]
  have hother : ∀ {k}, k ≠ cString key → finds s' k = finds s k := by
    intro k hk
    rw [finds, finds, hvalue, if_neg hk, hflash]
  have hsame : (∀ reply, reply = bulkReply val.length (cString val) ↔ reply = bulkReply val.length val) ↔ NulFree val := by
    rw [← cString_eq_self_iff]
    exact ⟨fun heq => (bulkReply_inj ((heq _).mp rfl)).2, fun heq reply => by rw [heq]⟩
  simp only [gets_memLru_iff hs' hblocked' hlen' hget hkey hfit₁, gets_memLru_iff hs' hblocked' hlen' hget hkey' hfit₂,
    gets_memLru_iff hs hblocked hlen hget hkey' hfit₂, hfinds rfl, Option.some.injEq, exists_eq_left',
    reply_memory_iff hshort]
  rw [hsame]
  refine and_congr_right fun hfree => imp_congr_right fun _ => ?_
  by_cases hk : cString key' = cString key
  · -- the two keys are one to the cache
    rw [← reads_iff hfree hshort, hk]
    simp only [hfinds rfl, Option.some.injEq, exists_eq_left', reply_memory_iff hshort, cString_of_nulFree hfree,
      true_imp_iff]
    exact forall_congr' fun _ => Iff.comm
  · exact iff_of_true (fun reply => by rw [hother hk]) fun heq => absurd heq hk

/-- `SET a b`, and GET of `a` and of `c`. -/
theorem set_get_binary_iff_text : ∃ c' s',
    Round (memLru (fun _ => 0) .direct .undefined False) (.fresh, .start (.openEmpty ⟨20, 0, 1000⟩ 0))
      (encode [[115, 101, 116], [97], [98]]) okReply (c', s') ∧
    (∀ reply, Gets (memLru (fun _ => 0) .direct .undefined False) c' s' [103, 101, 116] [97] reply ↔
      reply = bulkReply 1 [98]) ∧
    ∀ reply, Gets (memLru (fun _ => 0) .direct .undefined False) c' s' [103, 101, 116] [99] reply ↔
      Gets (memLru (fun _ => 0) .direct .undefined False) .fresh (.start (.openEmpty ⟨20, 0, 1000⟩ 0))
        [103, 101, 116] [99] reply := by
  obtain ⟨hends, hiff⟩ := set_get_binary_iff
    (.refl (R := ServerStep (fun _ => 0) .direct .undefined) (Server.start (.openEmpty ⟨20, 0, 1000⟩ 0)))
    KvClient.connected_fresh.1 (show command (.ofBytes [115, 101, 116]) = .set from rfl)
    (show command (.ofBytes [103, 101, 116]) = .get from rfl) (show [97] ≠ [] by simp) (show [98] ≠ [] by simp)
    (show [99] ≠ [] by simp) (by decide) (by decide) (by decide)
  obtain ⟨⟨c', s'⟩, hround⟩ := hends.mpr rfl
  obtain ⟨hself, hother⟩ := (hiff c' s' okReply hround).mpr ⟨by simp [NulFree], fun _ heq => by cases heq⟩
  exact ⟨c', s', hround, hself, hother (by simp)⟩

/-- A value of a zero byte is not sent back, and the keys `a0b` and `a0c`, with a zero byte
in the middle, are one. -/
theorem zero_byte_ends :
    (∃ c' s', Round (memLru (fun _ => 0) .direct .undefined False) (.fresh, .start (.openEmpty ⟨20, 0, 1000⟩ 0))
        (encode [[115, 101, 116], [97], [0]]) okReply (c', s') ∧
      ¬ Gets (memLru (fun _ => 0) .direct .undefined False) c' s' [103, 101, 116] [97] (bulkReply 1 [0])) ∧
    ∃ c' s', Round (memLru (fun _ => 0) .direct .undefined False) (.fresh, .start (.openEmpty ⟨20, 0, 1000⟩ 0))
        (encode [[115, 101, 116], [97, 0, 98], [49]]) okReply (c', s') ∧
      Gets (memLru (fun _ => 0) .direct .undefined False) c' s' [103, 101, 116] [97, 0, 99] (bulkReply 1 [49]) ∧
      ¬ Gets (memLru (fun _ => 0) .direct .undefined False) .fresh (.start (.openEmpty ⟨20, 0, 1000⟩ 0))
        [103, 101, 116] [97, 0, 99] (bulkReply 1 [49]) := by
  have hs := Server.unevicted_start ⟨20, 0, 1000⟩ 0
  have hlen := KvClient.connected_fresh.1
  have hget : command (.ofBytes [103, 101, 116]) = .get := rfl
  constructor
  · obtain ⟨hends, hafter⟩ := sets (fun _ => 0) .direct .undefined hs hlen
      (show command (.ofBytes [115, 101, 116]) = .set from rfl) (show [97] ≠ [] by simp) (show [0] ≠ [] by simp)
      (by decide)
    obtain ⟨⟨c', s'⟩, hround⟩ := hends rfl
    obtain ⟨-, hblocked, hlen', hs', -, hvalue⟩ := hafter c' s' okReply hround
    have hfinds : finds s' [97] = some (.memory [0]) := by rw [finds, hvalue]; rfl
    refine ⟨c', s', hround, fun hgets => ?_⟩
    obtain ⟨found, hfound, hreply⟩ := (gets_memLru_iff hs' hblocked hlen' hget (by simp) (by decide)).mp hgets
    obtain rfl : Found.memory [0] = found := Option.some.inj (hfinds.symm.trans hfound)
    cases (bulkReply_inj ((reply_memory_iff (by decide)).mp hreply)).2
  · obtain ⟨hends, hafter⟩ := sets (fun _ => 0) .direct .undefined hs hlen
      (show command (.ofBytes [115, 101, 116]) = .set from rfl) (show [97, 0, 98] ≠ [] by simp)
      (show [49] ≠ [] by simp) (by decide)
    obtain ⟨⟨c', s'⟩, hround⟩ := hends rfl
    obtain ⟨-, hblocked, hlen', hs', -, hvalue⟩ := hafter c' s' okReply hround
    have hfinds : finds s' [97] = some (.memory [49]) := by rw [finds, hvalue]; rfl
    refine ⟨c', s', hround, (gets_memLru_iff hs' hblocked hlen' hget (by simp) (by decide)).mpr
      ⟨_, hfinds, (reply_memory_iff (by decide)).mpr rfl⟩, fun hgets => ?_⟩
    obtain ⟨found, hfound, hreply, -⟩ := (gets_memLru_iff hs rfl hlen hget (by simp) (by decide)).mp hgets
    obtain rfl : Found.absent = found := Option.some.inj hfound
    cases hreply

end EmbeddedKv.Net
