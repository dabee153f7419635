import Mathlib.Data.List.Nodup
import Mathlib.Logic.Function.Basic

/-!
# Doubly linked rings

Every node has a successor and a predecessor.  The nodes of a ring follow each other from
its header around to the header again, forwards and backwards.  A node is linked in behind
another one by four stores; rings that do not have these nodes are left as they are.
-/

namespace MachFormal.Library

structure Links (ν : Type*) where
  next : ν → ν
  prev : ν → ν

namespace Links

variable {ν : Type*}

/-- From a node on, these nodes follow, and each points back to the one before it. -/
def Trail (l : Links ν) : ν → List ν → Prop
  | _, [] => True
  | a, b :: more => l.next a = b ∧ l.prev b = a ∧ Trail l b more

/-- The nodes of a ring behind its header. -/
def Ring (l : Links ν) (header : ν) (nodes : List ν) : Prop := l.Trail header (nodes ++ [header])

/-- `x` is put behind `sp`, in the order of the stores. -/
def insertAfter [DecidableEq ν] (l : Links ν) (sp x : ν) : Links ν :=
  let l : Links ν := { l with next := Function.update l.next x (l.next sp) }
  let l : Links ν := { l with prev := Function.update l.prev x sp }
  let l : Links ν := { l with prev := Function.update l.prev (l.next sp) x }
  { l with next := Function.update l.next sp x }

section Trails

variable {l l' : Links ν} {a b header : ν} {front back nodes : List ν}

theorem trail_append : l.Trail a (front ++ back) ↔
    l.Trail a front ∧ l.Trail (front.getLastD a) back := by
  induction front generalizing a with
  | nil => exact ⟨fun trail => ⟨trivial, trail⟩, And.right⟩
  | cons b front ih =>
      rw [List.cons_append, Trail, Trail, ih, List.getLastD_cons, and_assoc, and_assoc]

/-- A trail depends only on the successors of its nodes before the last, and on the
predecessors of those behind the first. -/
theorem Trail.congr (trail : l.Trail a nodes)
    (next : ∀ x ∈ (a :: nodes).dropLast, l'.next x = l.next x)
    (prev : ∀ x ∈ nodes, l'.prev x = l.prev x) : l'.Trail a nodes := by
  induction nodes generalizing a with
  | nil => trivial
  | cons b nodes ih =>
      obtain ⟨forward, backward, rest⟩ := trail
      rw [List.dropLast_cons_of_ne_nil (List.cons_ne_nil b nodes)] at next
      refine ⟨?_, ?_, ih rest ?_ ?_⟩
      · rw [next a List.mem_cons_self, forward]
      · rw [prev b List.mem_cons_self, backward]
      · exact fun x member => next x (List.mem_cons_of_mem a member)
      · exact fun x member => prev x (List.mem_cons_of_mem b member)

theorem Ring.congr (ring : l.Ring header nodes)
    (next : ∀ x ∈ header :: nodes, l'.next x = l.next x)
    (prev : ∀ x ∈ header :: nodes, l'.prev x = l.prev x) : l'.Ring header nodes := by
  refine Trail.congr ring (fun x member => ?_) (fun x member => ?_)
  · rw [← List.cons_append, List.dropLast_concat] at member
    exact next x member
  · rcases List.mem_append.mp member with inside | last
    · exact prev x (List.mem_cons_of_mem header inside)
    · exact prev x (by simp [List.mem_singleton.mp last])

theorem Ring.prev_header (ring : l.Ring header nodes) :
    l.prev header = nodes.getLastD header :=
  (trail_append.mp ring).2.2.1

theorem Ring.next_header (ring : l.Ring header nodes) :
    l.next header = nodes.headD header := by
  cases nodes with
  | nil => exact ring.1
  | cons x nodes => exact ring.1

theorem Ring.at_node (ring : l.Ring header (front ++ b :: back)) :
    l.prev b = front.getLastD header ∧ l.next b = back.headD header := by
  rw [Ring, List.append_assoc, List.cons_append] at ring
  obtain ⟨-, -, backward, rest⟩ := trail_append.mp ring
  refine ⟨backward, ?_⟩
  cases back with
  | nil => exact rest.1
  | cons x back => exact rest.1

theorem getLastD_mem (a : ν) (nodes : List ν) : nodes.getLastD a ∈ a :: nodes := by
  cases nodes with
  | nil => exact List.mem_cons_self
  | cons b nodes =>
      rw [List.getLastD_cons]
      exact List.mem_cons_of_mem a (getLastD_mem b nodes)

theorem ne_getLastD {a : ν} {nodes : List ν} (nodup : (a :: nodes).Nodup)
    (member : b ∈ (a :: nodes).dropLast) : b ≠ nodes.getLastD a := by
  rintro rfl
  induction nodes generalizing a with
  | nil => exact List.not_mem_nil member
  | cons c nodes ih =>
      rw [List.dropLast_cons_of_ne_nil (List.cons_ne_nil c nodes), List.getLastD_cons] at member
      rcases List.mem_cons.mp member with same | inside
      · exact (List.nodup_cons.mp nodup).1 (same ▸ getLastD_mem c nodes)
      · exact ih (List.nodup_cons.mp nodup).2 inside

theorem Trail.next_mem (trail : l.Trail a nodes) (member : b ∈ (a :: nodes).dropLast) :
    l.next b ∈ nodes := by
  induction nodes generalizing a with
  | nil => cases member
  | cons c nodes ih =>
      obtain ⟨forward, -, rest⟩ := trail
      rw [List.dropLast_cons_of_ne_nil (List.cons_ne_nil c nodes)] at member
      rcases List.mem_cons.mp member with rfl | inside
      · rw [forward]
        exact List.mem_cons_self
      · exact List.mem_cons_of_mem c (ih rest inside)

theorem Ring.next_mem (ring : l.Ring header nodes) (member : b ∈ header :: nodes) :
    l.next b ∈ header :: nodes := by
  have around : b ∈ (header :: (nodes ++ [header])).dropLast := by
    rw [← List.cons_append, List.dropLast_concat]
    exact member
  rcases List.mem_append.mp (Trail.next_mem ring around) with inside | last
  · exact List.mem_cons_of_mem header inside
  · rw [List.mem_singleton.mp last]
    exact List.mem_cons_self

end Trails

section Insertion

variable [DecidableEq ν] {l : Links ν} {sp x y header : ν} {front back : List ν}

theorem insertAfter_next : (l.insertAfter sp x).next =
    Function.update (Function.update l.next x (l.next sp)) sp x := rfl

theorem insertAfter_prev (new : x ≠ sp) : (l.insertAfter sp x).prev =
    Function.update (Function.update l.prev x sp) (l.next sp) x := by
  simp only [insertAfter, Function.update_of_ne (Ne.symm new)]

theorem Ring.insert (ring : l.Ring header (front ++ back))
    (nodup : (header :: (front ++ back)).Nodup) (new : x ∉ header :: (front ++ back)) :
    (l.insertAfter (front.getLastD header) x).Ring header (front ++ x :: back) := by
  obtain ⟨nx, rest, split⟩ : ∃ nx rest, back ++ [header] = nx :: rest := by
    cases back with
    | nil => exact ⟨header, [], rfl⟩
    | cons b back => exact ⟨b, back ++ [header], rfl⟩
  have last := getLastD_mem header front
  have differ : x ≠ front.getLastD header := fun same =>
    new (by rw [same, ← List.cons_append]; exact List.mem_append_left back last)
  rw [Ring, List.append_assoc, split] at ring
  obtain ⟨before, forward, backward, behind⟩ := trail_append.mp ring
  have inside : nx ∈ back ++ [header] := split ▸ List.mem_cons_self
  have other : x ≠ nx := by
    rintro rfl
    rcases List.mem_append.mp inside with found | found
    · exact new (List.mem_cons_of_mem header (List.mem_append_right front found))
    · exact new (by simp [List.mem_singleton.mp found])
  rw [← List.cons_append] at nodup new
  obtain ⟨firsts, -, apart⟩ := List.nodup_append.mp nodup
  have turned : (front ++ (back ++ [header])).Nodup := by
    rw [← List.append_assoc]
    exact (List.perm_append_comm.nodup_iff).mp nodup
  obtain ⟨-, lasts, apart'⟩ := List.nodup_append.mp turned
  rw [Ring, List.append_assoc, List.cons_append, split]
  refine trail_append.mpr ⟨before.congr ?_ ?_, ?_, ?_, ?_, ?_, behind.congr ?_ ?_⟩
  · intro y member
    have old : y ≠ x := fun same => new
      (same ▸ List.mem_append_left back (List.dropLast_subset _ member))
    rw [insertAfter_next, Function.update_of_ne (ne_getLastD firsts member),
      Function.update_of_ne old]
  · intro y member
    have old : y ≠ x := fun same =>
      new (same ▸ List.mem_append_left back (List.mem_cons_of_mem header member))
    rw [insertAfter_prev differ, forward, Function.update_of_ne (apart' y member nx inside),
      Function.update_of_ne old]
  · rw [insertAfter_next, Function.update_self]
  · rw [insertAfter_prev differ, forward, Function.update_of_ne other, Function.update_self]
  · rw [insertAfter_next, Function.update_of_ne differ, Function.update_self, forward]
  · rw [insertAfter_prev differ, forward, Function.update_self]
  · intro y member
    rw [← split, List.dropLast_concat] at member
    have old : y ≠ x := fun same => new (same ▸ List.mem_append_right (header :: front) member)
    rw [insertAfter_next, Function.update_of_ne (apart _ last y member).symm,
      Function.update_of_ne old]
  · intro y member
    rw [split] at lasts
    have old : y ≠ x := by
      rintro rfl
      rcases List.mem_append.mp (split ▸ List.mem_cons_of_mem nx member) with found | found
      · exact new (List.mem_append_right (header :: front) found)
      · exact new (by simp [List.mem_singleton.mp found])
    have fresh : y ≠ nx := fun same => (List.nodup_cons.mp lasts).1 (same ▸ member)
    rw [insertAfter_prev differ, forward, Function.update_of_ne fresh,
      Function.update_of_ne old]

theorem Ring.insert_other {other : ν} {nodes : List ν} (ring : l.Ring other nodes)
    (new : x ∉ other :: nodes) (differ : x ≠ sp) (behind : sp ∉ other :: nodes)
    (before : l.next sp ∉ other :: nodes) : (l.insertAfter sp x).Ring other nodes := by
  refine ring.congr (fun y member => ?_) (fun y member => ?_)
  · rw [insertAfter_next, Function.update_of_ne (ne_of_mem_of_not_mem member behind),
      Function.update_of_ne (ne_of_mem_of_not_mem member new)]
  · rw [insertAfter_prev differ, Function.update_of_ne (ne_of_mem_of_not_mem member before),
      Function.update_of_ne (ne_of_mem_of_not_mem member new)]

end Insertion

end Links

end MachFormal.Library
