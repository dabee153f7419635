import Mathlib.Data.List.Basic

/-!
# Writing a list in pieces

A list is written in pieces of one size, and of every piece only a beginning may be
stored: a full disk takes as much as it has room for.  Whoever does not look at the
answers goes on with the next piece, and stores all of the list only if no piece was cut.
-/

namespace MachFormal.Library.Chunks

variable {α : Type} (size : Nat) (limit : Nat → Nat)

/-- What is stored when the pieces are written one after the other, from the `i`-th write on. -/
def kept : Nat → Nat → List α → List α
  | 0, _, _ => []
  | fuel + 1, i, xs =>
      if xs = [] then []
      else (xs.take size).take (limit i) ++ kept fuel (i + 1) (xs.drop size)

/-- No piece is cut. -/
def Complete (i : Nat) (xs : List α) : Prop :=
  ∀ k, k * size < xs.length → min size (xs.length - k * size) ≤ limit (i + k)

variable {size} {limit}

theorem kept_nil (fuel i : Nat) : kept size limit fuel i ([] : List α) = [] := by
  cases fuel with
  | zero => rfl
  | succ fuel => exact if_pos rfl

theorem length_kept_le (fuel i : Nat) (xs : List α) :
    (kept size limit fuel i xs).length ≤ xs.length := by
  induction fuel generalizing i xs with
  | zero => exact Nat.zero_le _
  | succ fuel ih =>
      rw [kept]
      split
      · exact Nat.zero_le _
      · have rest := ih (i + 1) (xs.drop size)
        rw [List.length_append, List.length_take, List.length_take]
        rw [List.length_drop] at rest
        omega

theorem complete_drop {i : Nat} {xs : List α} :
    Complete size limit i xs ↔
      (xs ≠ [] → min size xs.length ≤ limit i) ∧ Complete size limit (i + 1) (xs.drop size) := by
  constructor
  · intro complete
    refine ⟨fun some => ?_, fun k inside => ?_⟩
    · have first := complete 0 (by simpa using List.length_pos_of_ne_nil some)
      simpa using first
    · rw [List.length_drop] at inside ⊢
      have next := complete (k + 1) (by rw [Nat.succ_mul]; omega)
      rw [Nat.succ_mul, Nat.add_comm (k * size), ← Nat.sub_sub, ← Nat.add_assoc,
        Nat.add_right_comm] at next
      exact next
  · rintro ⟨first, later⟩ k inside
    cases k with
    | zero =>
        rw [Nat.zero_mul] at inside ⊢
        exact first (List.ne_nil_of_length_pos inside)
    | succ k =>
        rw [Nat.succ_mul] at inside
        have next := later k (by rw [List.length_drop]; omega)
        rw [List.length_drop] at next
        rw [Nat.succ_mul, Nat.add_comm (k * size), ← Nat.sub_sub, ← Nat.add_assoc,
          Nat.add_right_comm]
        exact next

/-- All is stored exactly if no piece is cut. -/
theorem kept_eq_iff (positive : 0 < size) (fuel i : Nat) (xs : List α)
    (enough : xs.length < fuel) :
    kept size limit fuel i xs = xs ↔ Complete size limit i xs := by
  induction fuel generalizing i xs with
  | zero => exact absurd enough (Nat.not_lt_zero _)
  | succ fuel ih =>
      rw [complete_drop, kept]
      by_cases empty : xs = []
      · subst empty
        rw [if_pos rfl, List.drop_nil]
        exact iff_of_true rfl ⟨fun some => absurd rfl some, fun k inside => absurd inside (by simp)⟩
      · have long := List.length_pos_of_ne_nil empty
        have shorter : (xs.drop size).length < fuel := by
          rw [List.length_drop]
          omega
        rw [if_neg empty, ← ih (i + 1) (xs.drop size) shorter, List.take_take]
        constructor
        · intro all
          have whole := congrArg List.length all
          have rest := @length_kept_le _ size limit fuel (i + 1) (xs.drop size)
          rw [List.length_append, List.length_take] at whole
          rw [List.length_drop] at rest
          have uncut : min size xs.length ≤ limit i := by omega
          refine ⟨fun _ => uncut, ?_⟩
          have split := all.trans (List.take_append_drop size xs).symm
          have first : xs.take (min (limit i) size) = xs.take size := by
            rw [List.take_eq_take_iff]
            omega
          rw [first] at split
          exact List.append_cancel_left split
        · rintro ⟨uncut, rest⟩
          have first : xs.take (min (limit i) size) = xs.take size := by
            rw [List.take_eq_take_iff]
            have := uncut empty
            omega
          rw [first, rest, List.take_append_drop]

/-- The pieces of a beginning that ends with a piece. -/
theorem kept_take_add {xs : List α} (fuel i n : Nat) (some : xs ≠ []) (positive : 0 < size) :
    kept size limit (fuel + 1) i (xs.take (size + n)) =
      (xs.take size).take (limit i) ++ kept size limit fuel (i + 1) ((xs.drop size).take n) := by
  have nonempty : xs.take (size + n) ≠ [] := by
    rw [ne_eq, List.take_eq_nil_iff, not_or]
    exact ⟨by omega, some⟩
  have first : (xs.take (size + n)).take size = xs.take size := by
    rw [List.take_take, Nat.min_eq_left (Nat.le_add_right _ _)]
  rw [kept, if_neg nonempty, first, List.drop_take, Nat.add_sub_cancel_left]

end MachFormal.Library.Chunks
