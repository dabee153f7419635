import Mathlib.Data.List.Basic

/-!
# Programs over a byte stream

A transport delivers the symbols written to it in order and cuts them where it
likes. `Stream` keeps the symbols still under way and the sizes of the pieces in
which they will be handed out, so a statement about every `frag` is a statement
about every way of cutting.

`Consumes` and `Produces` are the two specifications a stream program can have:
the first says that the program takes exactly the given symbols from what is
pending and returns the given value, the second that it appends exactly the given
symbols to what has been emitted. Both compose along `bind`, so a round trip is
proved one call at a time. `Rejects` is the failing counterpart of `Consumes`.
-/

namespace MachFormal.Library.Wire

/-- Symbols under way, and the sizes of the pieces still to be delivered. -/
structure Stream (β : Type) where
  bytes : List β
  frag : Nat → Nat

namespace Stream

variable {β : Type}

/-- One read of at most `size` symbols: a nonempty piece of what is under way, if
any symbol is. -/
def read (net : Stream β) (size : Nat) : List β × Stream β :=
  let piece := min size (net.frag 0 + 1)
  (net.bytes.take piece, ⟨net.bytes.drop piece, fun call => net.frag (call + 1)⟩)

theorem read_append (net : Stream β) (size : Nat) :
    (net.read size).1 ++ (net.read size).2.bytes = net.bytes :=
  List.take_append_drop _ _

theorem read_length_le (net : Stream β) (size : Nat) : (net.read size).1.length ≤ size := by
  simp only [read, List.length_take]
  omega

theorem read_length_pos {net : Stream β} {size : Nat} (room : 0 < size)
    (more : 0 < net.bytes.length) : 0 < (net.read size).1.length := by
  simp only [read, List.length_take]
  omega

end Stream

section Specifications

variable {σ ε β α γ : Type} {pending emitted : σ → List β} {before between after : σ → Prop}

/-- A sequence that succeeds has succeeded in both parts. -/
theorem bind_eq_ok {program : StateT σ (Except ε) α} {next : α → StateT σ (Except ε) γ}
    {state : σ} {result : γ × σ} (ran : (program >>= next) state = .ok result) :
    ∃ value middle, program state = .ok (value, middle) ∧ next value middle = .ok result := by
  change (program state >>= fun p => next p.1 p.2) = _ at ran
  cases head : program state with
  | error failure =>
      rw [head] at ran
      cases ran
  | ok p =>
      rw [head] at ran
      exact ⟨p.1, p.2, rfl, ran⟩

/-- Wherever `bytes` come next, `program` takes them and returns `value`. -/
def Consumes (pending : σ → List β) (program : StateT σ (Except ε) α) (bytes : List β)
    (value : α) : Prop :=
  ∀ state rest, pending state = bytes ++ rest →
    ∃ state', program state = .ok (value, state') ∧ pending state' = rest

/-- Wherever `bytes` come next, `program` fails. -/
def Rejects (pending : σ → List β) (program : StateT σ (Except ε) α) (bytes : List β) : Prop :=
  ∀ state rest, pending state = bytes ++ rest → ∃ failure, program state = .error failure

theorem Consumes.pure (value : α) :
    Consumes pending (Pure.pure value : StateT σ (Except ε) α) [] value :=
  fun state _ next => ⟨state, rfl, next⟩

theorem Consumes.bind {program : StateT σ (Except ε) α} {next : α → StateT σ (Except ε) γ}
    {first second : List β} {value : α} {result : γ}
    (head : Consumes pending program first value)
    (tail : Consumes pending (next value) second result) :
    Consumes pending (program >>= next) (first ++ second) result := by
  intro state rest here
  rw [List.append_assoc] at here
  obtain ⟨middle, ran, there⟩ := head state (second ++ rest) here
  obtain ⟨final, ended, left⟩ := tail middle rest there
  refine ⟨final, ?_, left⟩
  change (program state >>= fun p => next p.1 p.2) = _
  rw [ran]
  exact ended

/-- A last step that only computes takes nothing more. -/
theorem Consumes.map {program : StateT σ (Except ε) α} {bytes : List β} {value : α}
    (head : Consumes pending program bytes value) (result : α → γ) :
    Consumes pending (program >>= fun value => Pure.pure (result value)) bytes (result value) := by
  have both := @Consumes.bind _ _ _ _ _ _ _ (fun value => Pure.pure (result value)) _ _ _ _ head (.pure _)
  rwa [List.append_nil] at both

theorem Consumes.bind_rejects {program : StateT σ (Except ε) α}
    {next : α → StateT σ (Except ε) γ} {first second : List β} {value : α}
    (head : Consumes pending program first value) (tail : Rejects pending (next value) second) :
    Rejects pending (program >>= next) (first ++ second) := by
  intro state rest here
  rw [List.append_assoc] at here
  obtain ⟨middle, ran, there⟩ := head state (second ++ rest) here
  obtain ⟨failure, failed⟩ := tail middle rest there
  refine ⟨failure, ?_⟩
  change (program state >>= fun p => next p.1 p.2) = _
  rw [ran]
  exact failed

theorem Rejects.bind {program : StateT σ (Except ε) α} {bytes : List β}
    (head : Rejects pending program bytes) (next : α → StateT σ (Except ε) γ) :
    Rejects pending (program >>= next) bytes := by
  intro state rest here
  obtain ⟨failure, failed⟩ := head state rest here
  refine ⟨failure, ?_⟩
  change (program state >>= fun p => next p.1 p.2) = _
  rw [failed]
  rfl

/-- From any state with `before`, `program` emits `bytes`, returns `value` and ends with
`after`. -/
def Produces (before after : σ → Prop) (emitted : σ → List β) (program : StateT σ (Except ε) α)
    (bytes : List β) (value : α) : Prop :=
  ∀ state, before state →
    ∃ state', program state = .ok (value, state') ∧ after state' ∧
      emitted state' = emitted state ++ bytes

theorem Produces.pure (value : α) :
    Produces before before emitted (Pure.pure value : StateT σ (Except ε) α) [] value :=
  fun state here => ⟨state, rfl, here, (List.append_nil _).symm⟩

theorem Produces.bind {program : StateT σ (Except ε) α} {next : α → StateT σ (Except ε) γ}
    {first second : List β} {value : α} {result : γ}
    (head : Produces before between emitted program first value)
    (tail : Produces between after emitted (next value) second result) :
    Produces before after emitted (program >>= next) (first ++ second) result := by
  intro state here
  obtain ⟨middle, ran, there, sent⟩ := head state here
  obtain ⟨final, ended, last, sentAll⟩ := tail middle there
  refine ⟨final, ?_, last, ?_⟩
  · change (program state >>= fun p => next p.1 p.2) = _
    rw [ran]
    exact ended
  · rw [sentAll, sent, List.append_assoc]

end Specifications

end MachFormal.Library.Wire
