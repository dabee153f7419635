/-!
# Computations that hand out items

A run hands out items one after the other and then returns a value, or it ends in one of two
ways from which nothing returns: it leaves the memory that it may use, or it is given up
because its steps have run out.  The items reach a buffer with room for some of them.
-/

namespace MachFormal.Library

/-- How a run ends. -/
inductive Ending (α : Type) where
  | done (value : α)
  | beyond
  | unfinished
  deriving DecidableEq, Repr

/-- The items of a run and its ending. -/
structure Run (ω α : Type) where
  items : List ω
  ending : Ending α
  deriving DecidableEq, Repr

namespace Run

variable {ω α β γ : Type}

/-- A run that leaves its memory. -/
def beyond : Run ω α := ⟨[], .beyond⟩

/-- A run that is given up. -/
def unfinished : Run ω α := ⟨[], .unfinished⟩

/-- One item is handed out. -/
def emit (item : ω) : Run ω Unit := ⟨[item], .done ()⟩

/-- A run followed by another one, if it returns. -/
protected def bind (r : Run ω α) (f : α → Run ω β) : Run ω β :=
  match r.ending with
  | .done value => ⟨r.items ++ (f value).items, (f value).ending⟩
  | .beyond => ⟨r.items, .beyond⟩
  | .unfinished => ⟨r.items, .unfinished⟩

instance : Monad (Run ω) where
  pure value := ⟨[], .done value⟩
  bind := Run.bind

theorem pure_def (value : α) : (pure value : Run ω α) = ⟨[], .done value⟩ := rfl

/-- A run that returns hands out its items before those of the next one. -/
@[simp] theorem done_bind (items : List ω) (value : α) (f : α → Run ω β) :
    ((⟨items, .done value⟩ : Run ω α) >>= f) = ⟨items ++ (f value).items, (f value).ending⟩ := rfl

@[simp] theorem beyond_bind (f : α → Run ω β) : ((beyond : Run ω α) >>= f) = beyond := rfl

@[simp] theorem emit_bind (item : ω) (f : Unit → Run ω β) :
    (emit item >>= f) = ⟨item :: (f ()).items, (f ()).ending⟩ := rfl

theorem id_bind (r : Run ω α) : (id <$> r) = r := by
  obtain ⟨items, ending⟩ := r
  cases ending with
  | done value => exact congrArg (fun l => (⟨l, .done value⟩ : Run ω α)) (List.append_nil items)
  | beyond => rfl
  | unfinished => rfl

theorem bind_bind (r : Run ω α) (f : α → Run ω β) (g : β → Run ω γ) :
    (r >>= f >>= g) = r >>= fun value => f value >>= g := by
  obtain ⟨items, ending⟩ := r
  cases ending with
  | beyond => rfl
  | unfinished => rfl
  | done value =>
      rw [done_bind, done_bind]
      cases h : f value with
      | mk more ending =>
          cases ending with
          | done value => simp only [done_bind, List.append_assoc]
          | beyond => rfl
          | unfinished => rfl

instance : LawfulMonad (Run ω) := LawfulMonad.mk' _ id_bind (fun _ _ => rfl) bind_bind

end Run

/-! ## The buffer -/

/-- What becomes of a run whose items are put in a buffer. -/
inductive Collected (ω : Type) where
  | returned (count : Nat) (buffer : List ω)
  | beyond
  | unfinished
  deriving DecidableEq, Repr

/-- The items are put behind those of the buffer.  The first one that does not fit ends the
run, and the count that is returned is one more than there is room for. -/
def collect {ω α : Type} (room : Nat) (ending : Ending α) : List ω → List ω → Collected ω
  | [], buffer =>
      match ending with
      | .done _ => .returned buffer.length buffer
      | .beyond => .beyond
      | .unfinished => .unfinished
  | item :: items, buffer =>
      if buffer.length ≥ room then .returned (room + 1) buffer
      else collect room ending items (buffer ++ [item])

/-- A buffer ends up with the items of a run that returns, or with as many as it has room
for. -/
theorem collect_done {ω α : Type} (room : Nat) (value : α) (items buffer : List ω)
    (fits : buffer.length ≤ room) :
    collect room (.done value) items buffer =
      if (buffer ++ items).length ≤ room then
        .returned (buffer ++ items).length (buffer ++ items)
      else .returned (room + 1) ((buffer ++ items).take room) := by
  induction items generalizing buffer with
  | nil => rw [collect, List.append_nil, if_pos fits]
  | cons item items ih =>
      rw [collect]
      by_cases full : buffer.length ≥ room
      · have exact_fit : buffer.length = room := Nat.le_antisymm fits full
        rw [if_pos full, if_neg (by rw [List.length_append, List.length_cons]; omega),
          ← exact_fit, List.take_left]
      · have more : (buffer ++ [item]).length ≤ room := by
          rw [List.length_append, List.length_singleton]
          omega
        rw [if_neg full, ih _ more, List.append_assoc, List.singleton_append]

end MachFormal.Library
