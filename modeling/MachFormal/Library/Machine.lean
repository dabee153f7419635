import Mathlib.Data.Option.Basic

/-!
# Labelled machines and their reachable states

A machine is a partial step function over labelled inputs.  Everything an
environment may choose is part of the label, so a run is a finite list of
labels.  The reachable states of a machine are taken with respect to a guard:
only runs all of whose steps meet the guard count.  The trivial guard gives
the ordinary reachable states.
-/

namespace MachFormal.Library

/-- A partial step function together with its initial states. -/
structure Machine (σ ι : Type) where
  init : σ → Prop
  step : σ → ι → Option σ

namespace Machine

variable {σ ι : Type} {M : Machine σ ι} {ok : σ → ι → Prop}

/-- Execute a finite list of labels. -/
def run (M : Machine σ ι) : σ → List ι → Option σ
  | s, [] => some s
  | s, i :: rest => (M.step s i).bind (fun s' => M.run s' rest)

/-- The guard that every step meets. -/
def always : σ → ι → Prop := fun _ _ => True

/-- States reached by runs all of whose steps meet the guard. -/
inductive Reachable (M : Machine σ ι) (ok : σ → ι → Prop) : σ → Prop where
  | init {s : σ} (hinit : M.init s) : Reachable M ok s
  | step {s s' : σ} {i : ι} (hreach : Reachable M ok s) (hok : ok s i)
      (hstep : M.step s i = some s') : Reachable M ok s'

/-- An initial property kept by every guarded step holds in every reached state. -/
theorem Reachable.invariant {P : σ → Prop}
    (hinit : ∀ s, M.init s → P s)
    (hstep : ∀ s i s', P s → ok s i → M.step s i = some s' → P s')
    {s : σ} (hreach : M.Reachable ok s) : P s := by
  induction hreach with
  | init h => exact hinit _ h
  | step _ hok hs ih => exact hstep _ _ _ ih hok hs

theorem Reachable.mono {ok' : σ → ι → Prop} (himp : ∀ s i, ok s i → ok' s i)
    {s : σ} (hreach : M.Reachable ok s) : M.Reachable ok' s := by
  induction hreach with
  | init h => exact .init h
  | step _ hok hs ih => exact .step ih (himp _ _ hok) hs

/-- Every step of a run meets the guard. -/
def Meets (M : Machine σ ι) (ok : σ → ι → Prop) : σ → List ι → Prop
  | _, [] => True
  | s, i :: rest =>
      ok s i ∧ match M.step s i with
        | none => True
        | some s' => M.Meets ok s' rest

/-- A guard that looks at the label alone is met by every run of such labels. -/
theorem meets_of_forall {s : σ} {labels : List ι} (hok : ∀ i ∈ labels, ∀ s, ok s i) :
    M.Meets ok s labels := by
  induction labels generalizing s with
  | nil => trivial
  | cons i rest ih =>
      refine ⟨hok i List.mem_cons_self s, ?_⟩
      cases M.step s i with
      | none => trivial
      | some s' => exact ih (fun j hj => hok j (List.mem_cons_of_mem i hj))

theorem Reachable.of_run {s s' : σ} (labels : List ι)
    (hreach : M.Reachable ok s) (hrun : M.run s labels = some s')
    (hmeets : M.Meets ok s labels) : M.Reachable ok s' := by
  induction labels generalizing s with
  | nil =>
      cases hrun
      exact hreach
  | cons i rest ih =>
      obtain ⟨middle, hstep, hrest⟩ := Option.bind_eq_some_iff.mp hrun
      obtain ⟨hok, hmeets⟩ := hmeets
      rw [hstep] at hmeets
      exact ih (.step hreach hok hstep) hrest hmeets

end Machine

end MachFormal.Library
