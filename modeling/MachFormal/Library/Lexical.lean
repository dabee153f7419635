import MachFormal.Library.Paths

/-!
# Names read lexically

A directory is the list of the names that lead to it from the root, and the way up from the
root leads to the root.  What a name denotes is found from its components alone.
-/

namespace MachFormal.Library.Lexical

open Paths

variable {α : Type} [DecidableEq α] (sep dot : α)

/-- The directory that a component leads to. -/
def enter (x : List (List α)) (c : List α) : List (List α) :=
  if c = [] ∨ c = [dot] then x else if c = [dot, dot] then x.dropLast else x ++ [c]

def follow (x cs : List (List α)) : List (List α) := cs.foldl (enter dot) x

/-- What a name denotes in a directory. -/
def denotes (x : List (List α)) (s : List α) : List (List α) :=
  follow dot (if s.head? = some sep then [] else x) (components sep s)

variable {sep dot} {x y cs ds : List (List α)} {c : List α}

@[simp] theorem follow_nil (x : List (List α)) : follow dot x [] = x := rfl

theorem follow_cons (x : List (List α)) (c : List α) (cs : List (List α)) :
    follow dot x (c :: cs) = follow dot (enter dot x c) cs := rfl

theorem follow_append (x cs ds : List (List α)) :
    follow dot x (cs ++ ds) = follow dot (follow dot x cs) ds :=
  List.foldl_append

theorem enter_down (x : List (List α)) (down : Down dot c) : enter dot x c = x ++ [c] := by
  rw [enter, if_neg (not_or.mpr ⟨down.1, down.2.1⟩), if_neg down.2.2]

theorem enter_up (x : List (List α)) : enter dot x [dot, dot] = x.dropLast := by
  rw [enter, if_neg (by simp), if_pos rfl]

theorem enter_same (x : List (List α)) (still : c = [] ∨ c = [dot]) : enter dot x c = x :=
  if_pos still

theorem follow_down (x : List (List α)) (down : ∀ c ∈ cs, Down dot c) :
    follow dot x cs = x ++ cs := by
  induction cs generalizing x with
  | nil => exact (List.append_nil x).symm
  | cons c cs ih =>
      rw [follow_cons, enter_down x (down c List.mem_cons_self),
        ih _ fun d inside => down d (List.mem_cons_of_mem c inside), List.append_assoc]
      rfl

theorem follow_ups (x : List (List α)) (n : Nat) :
    follow dot x (List.replicate n [dot, dot]) = x.take (x.length - n) := by
  induction n generalizing x with
  | zero => exact (List.take_length).symm
  | succ n ih =>
      rw [List.replicate_succ, follow_cons, enter_up, ih, List.length_dropLast,
        List.dropLast_eq_take, List.take_take, Nat.sub_sub, Nat.add_comm 1 n,
        Nat.min_eq_left (by omega)]

/-! ## Superfluous components -/

theorem follow_push (settled : Settled dot cs) (c : List α) :
    follow dot x (push dot cs c) = enter dot (follow dot x cs) c := by
  by_cases down : Down dot c
  · rw [push_down cs down, follow_append]
    rfl
  · by_cases still : c = [] ∨ c = [dot]
    · rw [push, if_pos still, enter_same _ still]
    · obtain rfl : c = [dot, dot] := by
        by_contra other
        exact down ⟨fun h => still (Or.inl h), fun h => still (Or.inr h), other⟩
      obtain ⟨ups, downs, rfl, all⟩ := settled
      cases downs using List.reverseRecOn with
      | nil =>
          rw [List.append_nil, push_up, List.replicate_succ', follow_append]
          rfl
      | append_singleton downs d =>
          have last := all d (List.mem_append_right downs List.mem_cons_self)
          rw [← List.append_assoc, push_back _ last, enter_up, follow_append _ _ [d], follow_cons,
            enter_down _ last, follow_nil, List.dropLast_concat]

/-- What remains of the components leads to the same directory. -/
theorem follow_settle (x cs : List (List α)) : follow dot x (settle dot cs) = follow dot x cs := by
  have general : ∀ kept, Settled dot kept →
      follow dot x (cs.foldl (push dot) kept) = follow dot (follow dot x kept) cs := by
    induction cs with
    | nil => exact fun kept _ => rfl
    | cons c cs ih =>
        intro kept settled
        rw [List.foldl_cons, ih _ (settled.push c), follow_push settled, follow_cons]
  exact general [] ⟨0, [], rfl, List.forall_mem_nil _⟩

/-! ## From one directory to another -/

/-- The length of the longest common front. -/
def common : List (List α) → List (List α) → Nat
  | a :: x, b :: y => if a = b then common x y + 1 else 0
  | _, _ => 0

theorem take_common (x y : List (List α)) : x.take (common x y) = y.take (common x y) := by
  induction x generalizing y with
  | nil => cases y <;> rfl
  | cons a x ih =>
      cases y with
      | nil => rfl
      | cons b y =>
          rw [common]
          split
          · rename_i same
            rw [List.take_succ_cons, List.take_succ_cons, ih, same]
          · rfl

/-- The relative path from a directory to another, up to the last common one and down. -/
def way (dot : α) (x y : List (List α)) : List (List α) :=
  List.replicate (x.length - common x y) [dot, dot] ++ y.drop (common x y)

theorem common_le (x y : List (List α)) : common x y ≤ x.length := by
  induction x generalizing y with
  | nil => cases y <;> exact Nat.le_refl _
  | cons a x ih =>
      cases y with
      | nil => exact Nat.zero_le _
      | cons b y =>
          rw [common]
          split
          · exact Nat.succ_le_succ (ih y)
          · exact Nat.zero_le _

theorem follow_way (x : List (List α)) (down : ∀ c ∈ y, Down dot c) :
    follow dot x (way dot x y) = y := by
  have up : x.length - (x.length - common x y) = common x y :=
    Nat.sub_sub_self (common_le x y)
  rw [way, follow_append, follow_ups, up,
    follow_down _ fun c inside => down c (List.mem_of_mem_drop inside), take_common,
    List.take_append_drop]

theorem common_self (x : List (List α)) : common x x = x.length := by
  induction x with
  | nil => rfl
  | cons a x ih => rw [common, if_pos rfl, ih, List.length_cons]

theorem way_self (x : List (List α)) : way dot x x = [] := by
  rw [way, common_self, Nat.sub_self, List.drop_length]
  rfl

theorem common_comm (x y : List (List α)) : common x y = common y x := by
  induction x generalizing y with
  | nil => cases y <;> rfl
  | cons a x ih =>
      cases y with
      | nil => rfl
      | cons b y =>
          rw [common, common, ih]
          exact if_congr eq_comm rfl rfl

end MachFormal.Library.Lexical
