import MachFormal.Library.Loop

/-!
# What a loop logs

A loop that keeps a log as it goes on, whether it ends or not.  Two loops log the same if
whatever one of them has logged at some time the other has logged at some time.
-/

namespace MachFormal.Library.Loop

variable {σ ρ ε : Type}

/-- A log that only grows, of the states and of the result. -/
structure Logger (turn : σ → σ ⊕ ρ) (ε : Type) where
  log : σ → List ε
  final : ρ → List ε
  grows : ∀ {s s'}, turn s = .inl s' → log s <+: log s'
  ends : ∀ {s r}, turn s = .inr r → log s <+: final r

variable {turn : σ → σ ⊕ ρ} (logger : Logger turn ε)

/-- The log begins with this at some time. -/
inductive Logs (s : σ) (p : List ε) : Prop where
  | running {n : Nat} {s' : σ} (leads : Leads turn n s s') (begins : p <+: logger.log s')
  | ended {n : Nat} {s' : σ} {r : ρ} (leads : Leads turn n s s') (leaves : turn s' = .inr r)
      (begins : p <+: logger.final r)

variable {logger}

theorem Leads.grows {n : Nat} {s s' : σ} (leads : Leads turn n s s') :
    logger.log s <+: logger.log s' := by
  induction leads with
  | refl s => exact List.prefix_rfl
  | step here _ ih => exact (logger.grows here).trans ih

theorem Leads.logs {n : Nat} {s s' : σ} (leads : Leads turn n s s') {p : List ε}
    (logs : Logs logger s' p) : Logs logger s p := by
  cases logs with
  | running later begins => exact .running (leads.trans later) begins
  | ended later leaves begins => exact .ended (leads.trans later) leaves begins

theorem logs_of_turn {s s' : σ} (here : turn s = .inl s') {p : List ε} :
    Logs logger s p ↔ Logs logger s' p := by
  refine ⟨fun logs => ?_, (Leads.one here).logs⟩
  cases logs with
  | running leads begins =>
      cases leads with
      | refl _ => exact .running (.refl s') (begins.trans (logger.grows here))
      | step here' later =>
          rw [here] at here'
          cases here'
          exact .running later begins
  | ended leads leaves begins =>
      cases leads with
      | refl _ =>
          rw [here] at leaves
          cases leaves
      | step here' later =>
          rw [here] at here'
          cases here'
          exact .ended later leaves begins

theorem Leads.logs_iff {n : Nat} {s s' : σ} (leads : Leads turn n s s') {p : List ε} :
    Logs logger s p ↔ Logs logger s' p := by
  induction leads with
  | refl s => exact Iff.rfl
  | step here _ ih => exact (logs_of_turn here).trans ih

theorem logs_of_result {s : σ} {r : ρ} (here : turn s = .inr r) {p : List ε} :
    Logs logger s p ↔ p <+: logger.final r := by
  refine ⟨fun logs => ?_, fun begins => .ended (.refl s) here begins⟩
  cases logs with
  | running leads begins =>
      cases leads with
      | refl _ => exact begins.trans (logger.ends here)
      | step here' _ =>
          rw [here] at here'
          cases here'
  | ended leads leaves begins =>
      cases leads with
      | refl _ =>
          rw [here] at leaves
          cases leaves
          exact begins
      | step here' _ =>
          rw [here] at here'
          cases here'

theorem logs_congr {s t : σ} (same : turn s = turn t) {p : List ε} :
    Logs logger s p ↔ Logs logger t p := by
  cases here : turn s with
  | inl s' => exact (logs_of_turn here).trans (logs_of_turn (same ▸ here)).symm
  | inr r => exact (logs_of_result here).trans (logs_of_result (same ▸ here)).symm

theorem Logs.comparable {s : σ} {p : List ε} (logs : Logs logger s p) :
    p <+: logger.log s ∨ logger.log s <+: p := by
  cases logs with
  | running leads begins => exact List.prefix_or_prefix_of_prefix begins leads.grows
  | ended leads leaves begins =>
      exact List.prefix_or_prefix_of_prefix begins (leads.grows.trans (logger.ends leaves))

theorem not_logs {s : σ} {p : List ε} (length : p.length = (logger.log s).length)
    (different : p ≠ logger.log s) : ¬ Logs logger s p := by
  intro logs
  rcases logs.comparable with less | more
  · exact different (less.eq_of_length length)
  · exact different (more.eq_of_length length.symm).symm

end MachFormal.Library.Loop
