import EmbeddedKv.Flash.Record
import EmbeddedKv.Library.Runs

/-!
# Slots for clients

One thread accepts connections and gives each client a slot of `server.clients` and a
thread of its own; the thread of a client frees it when the connection is closed.

## The model

`acceptRound` is a round of the loop of `bworkerProcessBackgroundJobs` with the type
`BPB_TCP_WORKER`, with what `accept` answers. A client is a pointer to its `kvClient`;
`none` behind a pointer is one that is freed. Freeing it is all that the end of a client
does (`disconnect`): the pointer stays in `server.clients`, and no counter changes.

A round is one step: the two counters belong to the accepting thread. `accept` that fails
ends the server, and so does `pthread_create`. Left out are the fields of a client that
only its own thread looks at, and the table of the threads but for its length.

## What is proved

`slots_reusable_iff`: the connections of a run are all served exactly if none comes after
eight clients were accepted and one of them has left (`InTime`). Then eight clients have
been there for ever: the counters count the clients that were ever accepted (`Counted`).
-/

namespace EmbeddedKv.Net

open EmbeddedKv.Library EmbeddedKv.Flash

/-! ### The accepting thread -/

/-- `MAX_NUM_CLIENT`. -/
def maxNumClient : ℕ := 8

/-- `NUM_BWORKER`. -/
def numBworker : ℕ := 2

/-- `MAX_BWORKER`. -/
def maxBworker : ℕ := 10

/-- What `accept` answers. -/
inductive AcceptResult where
  /-- A descriptor. -/
  | connected (fd : ℕ)
  /-- `-1` with `errno == EINTR`. -/
  | interrupted
  /-- `-1` with another `errno`. -/
  | failed

/-- `tcpAccept(server_fd)`. -/
def tcpAccept : AcceptResult → Except Stop ℤ
  | .connected fd => .ok fd
  | .interrupted => .ok 0
  | .failed => .error .exit

/-- A `kvClient`, as the accepting thread makes it. -/
structure Session where
  /-- `fd`. -/
  fd : ℤ
  /-- `id`. -/
  id : ℕ
  deriving DecidableEq, Repr

/-- The accepting thread, and the clients. -/
structure Acceptor where
  /-- `num_client`. -/
  numClient : ℕ := 0
  /-- `server.num_connected_client`. -/
  numConnectedClient : ℕ := 0
  /-- `server.clients`: pointers, `none` where there is none yet. -/
  clients : List (Option ℕ) := List.replicate maxNumClient none
  /-- The clients behind the pointers; `none` for one that is freed. -/
  heap : List (Option Session) := []
  deriving DecidableEq, Repr

/-- What becomes of a connection. -/
inductive Outcome where
  /-- It is closed at once. -/
  | refused
  /-- There is none. -/
  | ignored
  /-- It gets a slot. -/
  | accepted (slot : ℕ)
  deriving DecidableEq, Repr

namespace Acceptor

/-- A round of the loop of the accepting thread. -/
def acceptRound (s : Acceptor) (r : AcceptResult) : Except Stop (Outcome × Acceptor) :=
  match tcpAccept r with
  | .error e => .error e
  | .ok cfd =>
    if s.numClient = maxNumClient then .ok (.refused, s)
    else if cfd < 0 then .ok (.ignored, s)
    -- `server.clients`, `c_tid` and `bworker_threads` have places for the client
    else if maxNumClient ≤ s.numConnectedClient ∨ maxNumClient ≤ s.numClient ∨
        maxBworker ≤ numBworker + s.numConnectedClient then .error .undefined
    else
      .ok (.accepted s.numConnectedClient,
        { numClient := s.numClient + 1
          numConnectedClient := s.numConnectedClient + 1
          clients := s.clients.set s.numConnectedClient (some s.heap.length)
          heap := s.heap ++ [some ⟨cfd, s.numConnectedClient⟩] })

/-- The client behind a pointer is connected. -/
def Live (s : Acceptor) (p : ℕ) : Prop := ∃ c, s.heap[p]? = some (some c)

/-- How many clients are connected. -/
def connected (s : Acceptor) : ℕ := s.heap.countP Option.isSome

/-- A connected client has the slot. -/
def Occupied (s : Acceptor) (slot : ℕ) : Prop := ∃ p, s.clients[slot]? = some (some p) ∧ s.Live p

end Acceptor

/-! ### Connections -/

/-- What clients do. -/
inductive ClientAct where
  /-- A client connects. -/
  | connect (fd : ℕ)
  /-- A client closes its connection. -/
  | disconnect (p : ℕ)

/-- **A client comes or goes.** -/
inductive ClientStep : Acceptor → ClientAct → Acceptor → Prop where
  /-- The accepting thread goes round with a new connection. -/
  | connect {s s' : Acceptor} {fd : ℕ} {o : Outcome} (hr : s.acceptRound (.connected fd) = .ok (o, s')) :
      ClientStep s (.connect fd) s'
  /-- `tcpRecv` returns 0, and the thread of the client frees it and ends. -/
  | disconnect {s : Acceptor} {p : ℕ} (hp : s.Live p) : ClientStep s (.disconnect p) { s with heap := s.heap.set p none }

/-- **A connection is served as it should be**: it is refused only if as many clients are
connected as there can be, and if not it gets a slot that no connected client has. -/
def Acceptor.Served (s : Acceptor) : ClientAct → Prop
  | .connect fd => ∃ o s', s.acceptRound (.connected fd) = .ok (o, s') ∧ o ≠ .ignored ∧
      (o = .refused → s.connected = maxNumClient) ∧
      ∀ slot, o = .accepted slot → slot < maxNumClient ∧ ¬ s.Occupied slot
  | .disconnect _ => True

/-- How many connections there were. -/
def connects (as : List ClientAct) : ℕ := as.countP fun | .connect _ => true | .disconnect _ => false

/-- How many connections were closed. -/
def leaves (as : List ClientAct) : ℕ := as.countP fun | .connect _ => false | .disconnect _ => true

/-- **A connection comes in time**: before there were `MAX_NUM_CLIENT` connections, or
before the first one was closed. -/
def InTime (as : List ClientAct) : ClientAct → Prop
  | .connect _ => connects as < maxNumClient ∨ leaves as = 0
  | .disconnect _ => True

variable {s s' : Acceptor} {as : List ClientAct} {a : ClientAct} {fd p : ℕ}

/-- **The counters count all clients that were ever accepted**, whether they are connected
or not. -/
structure Counted (as : List ClientAct) (s : Acceptor) : Prop where
  /-- Of the connections the first `MAX_NUM_CLIENT` were accepted. -/
  accepted : s.heap.length = min (connects as) maxNumClient
  /-- `num_client` counts them. -/
  numClient : s.numClient = s.heap.length
  /-- So does `num_connected_client`. -/
  numConnectedClient : s.numConnectedClient = s.heap.length
  /-- Those that are not connected have left. -/
  connected : s.connected + leaves as = s.heap.length
  /-- Slots are given away one after the other. -/
  slots : ∀ (slot q : ℕ), s.clients[slot]? = some (some q) → slot < s.heap.length

theorem counted_start : Counted [] {} where
  accepted := rfl
  numClient := rfl
  numConnectedClient := rfl
  connected := rfl
  slots slot q h := by
    rw [List.getElem?_replicate] at h
    split_ifs at h
    cases h

/-- A connection is accepted if there were fewer than `MAX_NUM_CLIENT`, and refused
otherwise. -/
theorem Counted.acceptRound (h : Counted as s) (fd : ℕ) : s.acceptRound (.connected fd) =
    if connects as < maxNumClient then
      .ok (.accepted s.heap.length,
        { numClient := s.numClient + 1
          numConnectedClient := s.numConnectedClient + 1
          clients := s.clients.set s.numConnectedClient (some s.heap.length)
          heap := s.heap ++ [some ⟨fd, s.numConnectedClient⟩] })
    else .ok (.refused, s) := by
  have hlen := h.accepted
  have hnum := h.numClient
  have hconn := h.numConnectedClient
  rw [Acceptor.acceptRound, tcpAccept]
  simp only
  by_cases hlt : connects as < maxNumClient
  · rw [Nat.min_eq_left (Nat.le_of_lt hlt)] at hlen
    rw [if_pos hlt, if_neg (by omega), if_neg (by omega), if_neg]
    · rw [hconn]
    · rw [hconn, hnum, hlen]
      simp only [maxNumClient, maxBworker, numBworker] at hlt ⊢
      omega
  · rw [if_neg hlt, if_pos (by omega)]

theorem Counted.step (h : Counted as s) (hs : ClientStep s a s') : Counted (as ++ [a]) s' := by
  cases hs with
  | connect hr =>
    have hc : ∀ fd, connects (as ++ [.connect fd]) = connects as + 1 := fun _ => by simp [connects]
    have hl : ∀ fd, leaves (as ++ [.connect fd]) = leaves as := fun _ => by simp [leaves]
    have hlen := h.accepted
    rw [h.acceptRound] at hr
    split_ifs at hr with hlt <;> cases hr
    · rw [Nat.min_eq_left (Nat.le_of_lt hlt)] at hlen
      refine ⟨?_, ?_, ?_, ?_, fun slot q hq => ?_⟩
      · rw [List.length_append, List.length_singleton, hc, Nat.min_eq_left hlt, hlen]
      · rw [List.length_append, List.length_singleton, h.numClient]
      · rw [List.length_append, List.length_singleton, h.numConnectedClient]
      · have hconn := h.connected
        rw [Acceptor.connected] at hconn
        rw [Acceptor.connected, List.countP_append, List.length_append, hl]
        simp only [List.countP_singleton, Option.isSome_some, if_true, List.length_singleton]
        omega
      · rw [List.length_append, List.length_singleton]
        rw [List.getElem?_set] at hq
        split_ifs at hq with heq
        · rw [← heq, h.numConnectedClient]
          omega
        · exact Nat.lt_succ_of_lt (h.slots slot q hq)
    · refine ⟨?_, h.numClient, h.numConnectedClient, by rw [hl]; exact h.connected, h.slots⟩
      rw [hc, hlen, Nat.min_eq_right (Nat.not_lt.mp hlt), Nat.min_eq_right (by omega)]
  | @disconnect p hp =>
    have hc : connects (as ++ [.disconnect p]) = connects as := by simp [connects]
    have hl : leaves (as ++ [.disconnect p]) = leaves as + 1 := by simp [leaves]
    obtain ⟨c, hp⟩ := hp
    obtain ⟨hlt, hget⟩ := List.getElem?_eq_some_iff.mp hp
    refine ⟨by rw [List.length_set, hc]; exact h.accepted, by rw [List.length_set]; exact h.numClient,
      by rw [List.length_set]; exact h.numConnectedClient, ?_, fun slot q hq => by
        rw [List.length_set]
        exact h.slots slot q hq⟩
    have hconn := h.connected
    rw [Acceptor.connected] at hconn
    have hpos : 0 < s.heap.countP Option.isSome :=
      List.countP_pos_iff.mpr ⟨some c, List.mem_of_getElem? hp, rfl⟩
    rw [Acceptor.connected, List.countP_set hlt, List.length_set, hl, hget]
    simp only [Option.isSome_some, if_true, Option.isSome_none, Bool.false_eq_true, if_false]
    omega

/-- **A connection is served exactly if it comes in time.** -/
theorem Counted.served_iff (h : Counted as s) : s.Served a ↔ InTime as a := by
  cases a with
  | disconnect p => exact Iff.rfl
  | connect fd =>
    have hlen := h.accepted
    have hconn := h.connected
    rw [InTime, Acceptor.Served, h.acceptRound]
    by_cases hlt : connects as < maxNumClient
    · simp only [hlt, if_true, true_or, iff_true]
      refine ⟨_, _, rfl, by simp, by simp, ?_⟩
      rintro slot ⟨⟩
      rw [Nat.min_eq_left (Nat.le_of_lt hlt)] at hlen
      refine ⟨by omega, ?_⟩
      rintro ⟨q, hq, -⟩
      exact Nat.lt_irrefl _ (h.slots _ q hq)
    · rw [Nat.min_eq_right (Nat.not_lt.mp hlt)] at hlen
      simp only [hlt, if_false, false_or]
      constructor
      · rintro ⟨o, s', heq, -, href, -⟩
        cases heq
        have := href rfl
        omega
      · intro hleft
        refine ⟨_, _, rfl, by simp, fun _ => by omega, ?_⟩
        rintro slot ⟨⟩

/-- **Slots are reusable** only as long as they need not be: the connections of a run are
all served as they should be exactly if each comes before there were `MAX_NUM_CLIENT`
connections, or before the first one was closed. -/
theorem slots_reusable_iff (as : List ClientAct) (s : Acceptor) :
    Run ClientStep (fun _ s a => s.Served a) {} as s ↔ Run ClientStep (fun as _ a => InTime as a) {} as s := by
  constructor
  · intro h
    exact h.congr (P := Counted) counted_start (fun _ _ _ _ hc hs => hc.step hs) fun _ _ _ hc => hc.served_iff.mp
  · intro h
    exact h.congr (P := Counted) counted_start (fun _ _ _ _ hc hs => hc.step hs) fun _ _ _ hc => hc.served_iff.mpr

/-- Eight clients connect, the first one leaves, and the next one is refused although seven
are connected. -/
theorem slot_not_reusable : ∃ (as : List ClientAct) (s : Acceptor), Run ClientStep (fun _ _ _ => True) {} as s ∧
    s.connected = 7 ∧ s.acceptRound (.connected 12) = .ok (.refused, s) ∧ ¬ s.Served (.connect 12) := by
  have more : ∀ {as s s' o} (fd : ℕ), Run ClientStep (fun _ _ _ => True) {} as s →
      s.acceptRound (.connected fd) = .ok (o, s') → Run ClientStep (fun _ _ _ => True) {} (as ++ [.connect fd]) s' :=
    fun fd h hr => h.snoc trivial (.connect hr)
  have h8 := more 11 (more 10 (more 9 (more 8 (more 7 (more 6 (more 5 (more 4 (.nil _) rfl) rfl) rfl) rfl) rfl) rfl) rfl) rfl
  have h9 := h8.snoc trivial (.disconnect (p := 0) ⟨⟨4, 0⟩, rfl⟩)
  refine ⟨_, _, h9, rfl, rfl, ?_⟩
  rintro ⟨o, s', heq, -, href, -⟩
  cases heq
  exact absurd (href rfl) (by decide)

end EmbeddedKv.Net
