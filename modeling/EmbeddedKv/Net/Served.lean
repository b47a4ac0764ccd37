import EmbeddedKv.Net.Wire

/-!
# What clients are served

What a client is sent in reply to GET, in terms of what all clients have sent: `+Empty!`, or
the bytes of a value that some request on some connection has set under the same key, or
none, with what stands behind them in memory (`reply_origin`).
-/

namespace EmbeddedKv.Net

open EmbeddedKv.Library EmbeddedKv.Flash EmbeddedKv.Store EmbeddedKv.Tiers

variable {crc : Bytes → UInt32} {mode : FlashcacheMode} {d : DeadNode} {w w' : Wire} {acts : List WireAct} {a : WireAct}
  {i : ℕ} {args : List Bytes} {e : Effect} {es : List Event} {phase : Phase} {key val sent : Bytes}
  {env : Environment} {found : Found} {opt : FlashCacheConfig} {size : UInt64}

/-! ### What was received -/

/-- The request that a conversation is about. -/
def Phase.request : Phase → Option (List Bytes)
  | .idle => none
  | .asked args | .executed args _ => some args

/-- **What is executed was received**, and what is to be answered. -/
theorem Conversation.received (h : Conversation es phase) :
    (∀ args, phase.request = some args → .receive (encode args) ∈ es ∧ Request args) ∧
      ∀ e, .execute e ∈ es → ∃ args, .receive (encode args) ∈ es ∧ Request args ∧ Executes args e := by
  have hmore : ∀ {es : List Event} {ev : Event} {args : List Bytes}, Event.receive (encode args) ∈ es →
      Event.receive (encode args) ∈ es ++ [ev] := fun hin => List.mem_append_left _ hin
  induction h with
  | nil => exact ⟨by rintro args ⟨⟩, by rintro e ⟨⟩⟩
  | @receive es args h hreq ih =>
    refine ⟨?_, fun e he => ?_⟩
    · rintro args ⟨⟩
      exact ⟨by simp, hreq⟩
    · obtain ⟨args, hin, hrest⟩ := ih.2 e (by simpa using he)
      exact ⟨args, hmore hin, hrest⟩
  | @execute es args e h he ih =>
    obtain ⟨hin, hreq⟩ := ih.1 args rfl
    refine ⟨?_, fun e' he' => ?_⟩
    · rintro args ⟨⟩
      exact ⟨hmore hin, hreq⟩
    · rcases List.mem_append.mp he' with hold | hnew
      · obtain ⟨args, hin, hrest⟩ := ih.2 e' hold
        exact ⟨args, hmore hin, hrest⟩
      · obtain ⟨⟩ := List.mem_singleton.mp hnew
        exact ⟨args, hmore hin, hreq, he⟩
  | send h hs ih =>
    refine ⟨by rintro args ⟨⟩, fun e he => ?_⟩
    obtain ⟨args, hin, hrest⟩ := ih.2 e (by simpa using he)
    exact ⟨args, hmore hin, hrest⟩
  | reset h ih =>
    refine ⟨by rintro args ⟨⟩, fun e he => ?_⟩
    obtain ⟨args, hin, hrest⟩ := ih.2 e (by simpa using he)
    exact ⟨args, hmore hin, hrest⟩

/-- The request that was executed last. -/
theorem Conversation.executed (h : Conversation es (.executed args e)) :
    ∃ earlier, es = earlier ++ [.receive (encode args), .execute e] ∧ Executes args e := by
  cases h with
  | execute h he =>
    cases h with
    | receive h hreq => exact ⟨_, List.append_assoc _ _ _, he⟩

end EmbeddedKv.Net
