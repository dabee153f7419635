import Mathlib.Data.List.Nodup
import Mathlib.Logic.Function.Basic

/-!
# Singly linked lists and queues in memory

A node is named by its address, and `next` gives the successor of every node.
A list in memory is described by the sequence of its nodes.  Changing the
successor of one node does not change a list without that node; that is what
the proofs about several lists with one link field rest on.
-/

namespace MachFormal.Library

/-- The nodes from `start` to the null pointer are exactly those listed. -/
def Linked (next : Nat → Option Nat) : Option Nat → List Nat → Prop
  | start, [] => start = none
  | start, x :: xs => start = some x ∧ Linked next (next x) xs

section Lists

variable {next next' : Nat → Option Nat} {start : Option Nat} {xs ys : List Nat} {x y : Nat}

@[simp] theorem linked_nil : Linked next start [] ↔ start = none := Iff.rfl

theorem Linked.head_eq (h : Linked next start xs) : start = xs.head? := by
  cases xs with
  | nil => exact h
  | cons x xs => exact h.1

/-- A list does not depend on the successors of other nodes. -/
theorem Linked.congr (h : Linked next start xs) (hnext : ∀ x ∈ xs, next' x = next x) :
    Linked next' start xs := by
  induction xs generalizing start with
  | nil => exact h
  | cons x xs ih =>
      obtain ⟨hstart, hrest⟩ := h
      refine ⟨hstart, ?_⟩
      rw [hnext x List.mem_cons_self]
      exact ih hrest (fun y hy => hnext y (List.mem_cons_of_mem x hy))

theorem Linked.update (h : Linked next start xs) (hy : y ∉ xs) (v : Option Nat) :
    Linked (Function.update next y v) start xs := by
  refine h.congr (fun x hx => ?_)
  have hne : x ≠ y := fun heq => hy (heq ▸ hx)
  rw [Function.update_of_ne hne]

/-- The part of a list behind one of its nodes. -/
theorem Linked.tail (h : Linked next start (xs ++ x :: ys)) : Linked next (next x) ys := by
  induction xs generalizing start with
  | nil => exact h.2
  | cons y xs ih => exact ih h.2

/-- Bypassing a node takes it out of the list. -/
theorem Linked.unlink (h : Linked next start (xs ++ y :: x :: ys))
    (hnodup : (xs ++ y :: x :: ys).Nodup) :
    Linked (Function.update next y (next x)) start (xs ++ y :: ys) := by
  induction xs generalizing start with
  | nil =>
      obtain ⟨hstart, -, hrest⟩ := h
      have hy : y ∉ ys :=
        fun hin => (List.nodup_cons.mp hnodup).1 (List.mem_cons_of_mem x hin)
      refine ⟨hstart, ?_⟩
      rw [Function.update_self]
      exact hrest.update hy _
  | cons z xs ih =>
      obtain ⟨hz, hnodup⟩ := List.nodup_cons.mp hnodup
      have hne : z ≠ y := fun heq => hz (heq ▸ by simp)
      refine ⟨h.1, ?_⟩
      rw [Function.update_of_ne hne]
      exact ih h.2 hnodup

/-- Appending a node behind the last one. -/
theorem Linked.snoc (h : Linked next start (xs ++ [y])) (hnodup : (xs ++ [y]).Nodup)
    (hx : x ∉ xs ++ [y]) (hend : next x = none) :
    Linked (Function.update next y (some x)) start (xs ++ [y] ++ [x]) := by
  have hne : x ≠ y := fun heq => hx (heq ▸ by simp)
  induction xs generalizing start with
  | nil =>
      refine ⟨h.1, ?_⟩
      rw [Function.update_self]
      refine ⟨rfl, ?_⟩
      rw [Function.update_of_ne hne]
      exact hend
  | cons z xs ih =>
      obtain ⟨hz, hnodup⟩ := List.nodup_cons.mp hnodup
      have hzy : z ≠ y := fun heq => hz (heq ▸ by simp)
      refine ⟨h.1, ?_⟩
      rw [Function.update_of_ne hzy]
      exact ih h.2 hnodup (fun hin => hx (List.mem_cons_of_mem z hin))

end Lists

/-! ## Queues with a head and a tail pointer -/

structure Queue where
  head : Option Nat := none
  tail : Option Nat := none
  deriving DecidableEq, Repr

namespace Queue

/-- The queue holds the listed nodes. -/
structure Holds (next : Nat → Option Nat) (q : Queue) (xs : List Nat) : Prop where
  linked : Linked next q.head xs
  last : q.tail = xs.getLast?
  nodup : xs.Nodup

/-- Append a node: its successor is cleared first. -/
def enq (next : Nat → Option Nat) (q : Queue) (x : Nat) : (Nat → Option Nat) × Queue :=
  let next := Function.update next x none
  match q.tail with
  | none => (next, ⟨some x, some x⟩)
  | some t => (Function.update next t (some x), ⟨q.head, some x⟩)

/-- Put a node in front. -/
def preq (next : Nat → Option Nat) (q : Queue) (x : Nat) : (Nat → Option Nat) × Queue :=
  (Function.update next x q.head, ⟨some x, if q.tail = none then some x else q.tail⟩)

/-- Take the first node off; its successor is left as it is. -/
def deq (next : Nat → Option Nat) (q : Queue) : Option Nat × Queue :=
  match q.head with
  | none => (none, q)
  | some x => (some x, ⟨next x, if next x = none then none else q.tail⟩)

variable {next next' : Nat → Option Nat} {q : Queue} {xs : List Nat} {x y : Nat}

theorem holds_nil : Holds next {} [] :=
  ⟨rfl, rfl, List.nodup_nil⟩

theorem Holds.congr (h : Holds next q xs) (hnext : ∀ x ∈ xs, next' x = next x) :
    Holds next' q xs :=
  ⟨h.linked.congr hnext, h.last, h.nodup⟩

theorem Holds.head_eq (h : Holds next q xs) : q.head = xs.head? :=
  h.linked.head_eq

/-- Appending changes the links of the node and of the last one only. -/
theorem enq_frame (h : Holds next q xs) (hx : y ≠ x) (hy : y ∉ xs) :
    (enq next q x).1 y = next y := by
  unfold enq
  cases hlast : q.tail with
  | none => exact Function.update_of_ne hx _ _
  | some t =>
      have ht : t ∈ xs := List.mem_of_getLast? (h.last.symm.trans hlast)
      have hne : y ≠ t := fun heq => hy (heq ▸ ht)
      simp only [Function.update_of_ne hne, Function.update_of_ne hx]

theorem Holds.enq (h : Holds next q xs) (hx : x ∉ xs) :
    Holds (enq next q x).1 (enq next q x).2 (xs ++ [x]) := by
  have hnodup : (xs ++ [x]).Nodup := by
    rw [List.nodup_append_comm]
    exact List.nodup_cons.mpr ⟨hx, h.nodup⟩
  refine ⟨?_, ?_, hnodup⟩
  · unfold Queue.enq
    cases hlast : q.tail with
    | none =>
        obtain rfl : xs = [] := List.getLast?_eq_none_iff.mp (h.last.symm.trans hlast)
        refine ⟨rfl, ?_⟩
        simp
    | some t =>
        obtain ⟨zs, rfl⟩ := List.getLast?_eq_some_iff.mp (h.last.symm.trans hlast)
        exact (h.linked.update hx none).snoc h.nodup hx (Function.update_self _ _ _)
  · unfold Queue.enq
    cases q.tail <;> simp

theorem Holds.preq (h : Holds next q xs) (hx : x ∉ xs) :
    Holds (preq next q x).1 (preq next q x).2 (x :: xs) := by
  refine ⟨⟨rfl, ?_⟩, ?_, List.nodup_cons.mpr ⟨hx, h.nodup⟩⟩
  · simp only [Queue.preq, Function.update_self]
    exact h.linked.update hx _
  · unfold Queue.preq
    rw [h.last]
    cases xs with
    | nil => simp
    | cons z zs => simp [List.getLast?_cons]

/-- Putting a node in front changes the link of that node only. -/
theorem preq_frame (hx : y ≠ x) : (preq next q x).1 y = next y :=
  Function.update_of_ne hx _ _

theorem Holds.deq_nil (h : Holds next q []) : deq next q = (none, q) := by
  have hhead : q.head = none := h.linked
  simp only [Queue.deq, hhead]

theorem Holds.deq_cons (h : Holds next q (x :: xs)) :
    (deq next q).1 = some x ∧ Holds next (deq next q).2 xs := by
  obtain ⟨hhead, hrest⟩ := h.linked
  simp only [Queue.deq, hhead, true_and]
  refine ⟨hrest, ?_, (List.nodup_cons.mp h.nodup).2⟩
  cases xs with
  | nil =>
      have hend : next x = none := hrest
      simp [hend]
  | cons z zs =>
      have hnext : next x = some z := hrest.1
      simp [hnext, h.last, List.getLast?_cons]

end Queue

end MachFormal.Library
