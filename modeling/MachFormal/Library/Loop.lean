import Mathlib.Algebra.Order.BigOperators.Group.List
import Mathlib.Algebra.Order.Group.Nat

/-!
# Loops that may not end

A loop is given by one turn: from a state it goes on to another, or leaves with a result.
A loop that passes through an endless sequence of states never leaves, even if only some
of its states are known.  A step that shrinks whatever it changes cannot lead from a finite
set onto all of it.
-/

namespace MachFormal.Library.Loop

variable {σ ρ : Type} (turn : σ → σ ⊕ ρ)

/-- The result, if it is there after so many turns. -/
def run : Nat → σ → Option ρ
  | 0, _ => none
  | turns + 1, s =>
      match turn s with
      | .inl s' => run turns s'
      | .inr r => some r

/-- The loop leaves with this result. -/
def Ends (s : σ) (r : ρ) : Prop := ∃ turns, run turn turns s = some r

/-- So many turns lead from one state to another. -/
inductive Leads : Nat → σ → σ → Prop where
  | refl (s : σ) : Leads 0 s s
  | step {n : Nat} {s s' s'' : σ} (here : turn s = .inl s') (later : Leads n s' s'') :
      Leads (n + 1) s s''

variable {turn}

theorem ends_of_turn {s : σ} {r : ρ} (here : turn s = .inr r) : Ends turn s r :=
  ⟨1, by rw [run, here]⟩

theorem Leads.one {s s' : σ} (here : turn s = .inl s') : Leads turn 1 s s' :=
  .step here (.refl s')

theorem Leads.trans {m n : Nat} {s s' s'' : σ} (first : Leads turn m s s')
    (second : Leads turn n s' s'') : Leads turn (m + n) s s'' := by
  induction first with
  | refl s => rwa [Nat.zero_add]
  | step here _ ih =>
      rw [Nat.add_right_comm]
      exact .step here (ih second)

theorem Leads.run_add {n : Nat} {s s' : σ} (leads : Leads turn n s s') (turns : Nat) :
    run turn (n + turns) s = run turn turns s' := by
  induction leads with
  | refl s => rw [Nat.zero_add]
  | step here _ ih =>
      rw [Nat.add_right_comm, run, here]
      exact ih

theorem Leads.run_eq_none {n : Nat} {s s' : σ} (leads : Leads turn n s s') {turns : Nat}
    (early : turns ≤ n) : run turn turns s = none := by
  induction leads generalizing turns with
  | refl s =>
      rw [Nat.le_zero.mp early]
      rfl
  | step here _ ih =>
      cases turns with
      | zero => rfl
      | succ turns =>
          rw [run, here]
          exact ih (Nat.le_of_succ_le_succ early)

theorem Leads.ends_iff {n : Nat} {s s' : σ} (leads : Leads turn n s s') (r : ρ) :
    Ends turn s r ↔ Ends turn s' r := by
  constructor
  · rintro ⟨turns, left⟩
    rcases Nat.lt_or_ge turns n with early | late
    · rw [leads.run_eq_none (Nat.le_of_lt early)] at left
      cases left
    · obtain ⟨more, rfl⟩ := Nat.exists_eq_add_of_le late
      exact ⟨more, by rw [← leads.run_add, left]⟩
  · rintro ⟨turns, left⟩
    exact ⟨n + turns, by rw [leads.run_add, left]⟩

theorem Ends.invariant {P : σ → Prop} {Q : ρ → Prop}
    (kept : ∀ s s', P s → turn s = .inl s' → P s') (left : ∀ s r, P s → turn s = .inr r → Q r)
    {s : σ} {r : ρ} (ends : Ends turn s r) (initially : P s) : Q r := by
  obtain ⟨turns, ran⟩ := ends
  induction turns generalizing s with
  | zero => cases ran
  | succ turns ih =>
      rw [run] at ran
      cases here : turn s with
      | inl s' =>
          rw [here] at ran
          exact ih (kept s s' initially here) ran
      | inr r' =>
          rw [here] at ran
          exact Option.some.inj ran ▸ left s r' initially here

theorem Ends.unique {s : σ} {r r' : ρ} (ends : Ends turn s r) (ends' : Ends turn s r') : r = r' := by
  obtain ⟨turns, left⟩ := ends
  induction turns generalizing s with
  | zero => cases left
  | succ turns ih =>
      rw [run] at left
      cases here : turn s with
      | inl s' =>
          rw [here] at left
          exact ih (((Leads.one here).ends_iff r').mp ends') left
      | inr r'' =>
          rw [here] at left
          obtain ⟨turns', left'⟩ := ends'
          cases turns' with
          | zero => cases left'
          | succ turns' =>
              rw [run, here] at left'
              exact Option.some.inj (left.symm.trans left')

theorem run_of_decreasing {size : σ → Nat}
    (decreases : ∀ s s', turn s = .inl s' → size s' < size s) (turns : Nat) (s : σ)
    (enough : size s < turns) : ∃ r, run turn turns s = some r := by
  induction turns generalizing s with
  | zero => exact absurd enough (Nat.not_lt_zero _)
  | succ turns ih =>
      rw [run]
      cases here : turn s with
      | inl s' =>
          have smaller := decreases s s' here
          exact ih s' (by omega)
      | inr r => exact ⟨r, rfl⟩

theorem not_ends {path : Nat → σ} (goesOn : ∀ k, ∃ n, 0 < n ∧ Leads turn n (path k) (path (k + 1)))
    (r : ρ) : ¬Ends turn (path 0) r := by
  have none : ∀ turns k, run turn turns (path k) = none := by
    intro turns
    induction turns using Nat.strongRecOn with
    | ind turns ih =>
        intro k
        obtain ⟨n, positive, leads⟩ := goesOn k
        rcases Nat.lt_or_ge turns n with early | late
        · exact leads.run_eq_none (Nat.le_of_lt early)
        · obtain ⟨more, rfl⟩ := Nat.exists_eq_add_of_le late
          rw [leads.run_add]
          exact ih more (by omega) (k + 1)
  rintro ⟨turns, left⟩
  rw [none turns 0] at left
  cases left

/-! ## Steps that shrink -/

/-- A step that makes smaller what it changes, and that leads from a list onto the list, changes
nothing in it. -/
theorem eq_self_of_onto {α : Type} {f : α → α} (size : α → Nat)
    (shrinks : ∀ a, f a = a ∨ size (f a) < size a) {s : List α}
    (onto : ∀ a ∈ s, ∃ b ∈ s, f b = a) : ∀ a ∈ s, f a = a := by
  intro a member
  refine Classical.byContradiction fun moved => ?_
  -- going back from an element that changes, all of them change and grow
  have larger : ∀ n, ∃ b ∈ s, f b ≠ b ∧ n ≤ size b := by
    intro n
    induction n with
    | zero => exact ⟨a, member, moved, Nat.zero_le _⟩
    | succ n ih =>
        obtain ⟨b, inside, moves, large⟩ := ih
        obtain ⟨c, inside', rfl⟩ := onto b inside
        have moves' : f c ≠ c := fun same => moves (congrArg f same)
        have smaller := (shrinks c).resolve_left moves'
        exact ⟨c, inside', moves', by omega⟩
  obtain ⟨b, inside, -, large⟩ := larger ((s.map size).sum + 1)
  have bounded := List.le_sum_of_mem (List.mem_map_of_mem (f := size) inside)
  omega

end MachFormal.Library.Loop
