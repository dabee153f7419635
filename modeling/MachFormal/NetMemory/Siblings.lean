import MachFormal.NetMemory.Sizes
import MachFormal.NetMemory.OneSize.Fifo
import Mathlib.Data.Set.Card
import Mathlib.Tactic.IntervalCases

/-!
# Sibling chains

A request for a page that a queued request for a larger page covers becomes a
sibling of the requests that follow the larger one.  While all kernels have
pages of one size there is nothing to nest and every queue is a plain list.
With a second size requests are lost, and with a third sibling the search for
its place in the chain runs over the end.
-/

namespace MachFormal.NetMemory.Siblings

open Library OneSize

/-! ## What is kept -/

/-- The links lead from the request to `r`. -/
inductive Along (next : Nat → Option Nat) : Option Nat → Nat → Prop
  | here (r : Nat) : Along next (some r) r
  | further {x r : Nat} (rest : Along next (next x) r) : Along next (some x) r

/-- The request was given back by `req_free`. -/
def Freed (object : Object) : Nat → Prop :=
  Along (fun r => (object.requests r).follow) object.freeRequests

def Queued (object : Object) (r : Nat) : Prop := r < object.allocated ∧ ¬Freed object r

/-- The requests that follow `x`: one by its `follow` link, the others as its siblings. -/
def InChain (object : Object) (x : Nat) : Nat → Prop :=
  Along (fun r => (object.requests r).sibling) (object.requests x).follow

/-- The queued requests with a `follow` link to `r`. -/
def followers (object : Object) (r : Nat) : Set Nat :=
  fun x => Queued object x ∧ (object.requests x).follow = some r

/-- Request `f` is for a larger page than `x`, as `satisfy_request` tells. -/
def Bigger (object : Object) (f x : Nat) : Prop :=
  (object.requests f).firstPage < (object.requests x).firstPage ∨
    (object.requests f).lastPage > (object.requests x).lastPage

/-- The chain of `x` that starts with `f` is sorted, its requests do not overlap, and they are
inside of the request they follow. -/
def Sorted (object : Object) (x f : Nat) : Prop :=
  ∃ chain, Linked (fun r => (object.requests r).sibling) (some f) chain ∧
    chain.Pairwise (fun a b =>
      (object.requests a).firstPage < (object.requests b).firstPage ∧
        (object.requests a).lastPage < (object.requests b).firstPage) ∧
    ∀ r ∈ chain, (object.requests x).firstPage ≤ (object.requests r).firstPage ∧
      (object.requests r).lastPage ≤ (object.requests x).lastPage

/-- A minimal page of the object has the request as its head. -/
def Headed (object : Object) (r : Nat) : Prop :=
  ∃ page < object.numMinPages, (object.minPages page).head = some r

/-- The request is let through by `memory_object_request`, and it is one for `add_sleeping` if
it has to wait. -/
def Sleeps (object : Object) (port offset length : Nat) : Prop :=
  port ≠ 0 ∧ ∃ kernel, object.portToKernel port = some kernel ∧
    length = (object.kerninfo kernel).realPageSize ∧
    ¬(Object.misaligned offset length ∨ offset ≥ object.objectSize) ∧
    if length < minPageSize then
      object.haveExpecting (offsetToPage (offset - offset % minPageSize))
        (offsetToPage (offset - offset % minPageSize + minPageSize) - 1)
    else object.haveExpecting (offsetToPage offset) (offsetToPage (offset + length) - 1)

/-- No null pointer is followed to queue a request, the chains are in order, and no request is
lost. -/
structure Kept (object : Object) : Prop where
  queues : ∀ port offset length write needsData, offset % length = 0 →
    Sleeps object port offset length →
    object.memoryObjectRequest port offset length write needsData ≠ none
  chains : ∀ x f, Queued object x → (object.requests x).follow = some f →
    Bigger object f x ∧ (object.requests f).sibling = none ∨ Sorted object x f
  pointed : ∀ r, Queued object r → Headed object r ∨
    0 < (object.requests r).count ∧
      ((followers object r).ncard : Int) = (object.requests r).count ∨
    ∃! x, Queued object x ∧ InChain object x r

/-! ## Pages of one size -/

/-- The kernels that are let in have pages of `u` minimal pages, a size that a `short` holds. -/
def OneSize (u maxPageSize : Nat) : System → Event → Prop
  | _, .attach _ pageSize =>
      pageSize ≤ maxPageSize → Object.isPowerOfTwo pageSize = true →
        pageSize < 2 ^ 15 ∧ max pageSize minPageSize = u * minPageSize
  | _, .request .. => True
  | _, .lockCompleted .. => True

section Lists

variable {next : Nat → Option Nat} {start : Option Nat} {xs : List Nat} {x y r : Nat}

theorem along_iff_mem (linked : Linked next start xs) : Along next start r ↔ r ∈ xs := by
  induction xs generalizing start with
  | nil =>
      obtain rfl := linked
      exact ⟨nofun, nofun⟩
  | cons x xs ih =>
      obtain ⟨rfl, rest⟩ := linked
      rw [List.mem_cons, ← ih rest]
      constructor
      · rintro (_ | along)
        · exact Or.inl rfl
        · exact Or.inr along
      · rintro (rfl | along)
        · exact .here r
        · exact .further along

theorem follow_mem (linked : Linked next start xs) (inside : x ∈ xs) (follows : next x = some r) :
    r ∈ xs := by
  induction xs generalizing start with
  | nil => cases inside
  | cons y xs ih =>
      rcases List.mem_cons.mp inside with rfl | inside
      · have head := linked.2.head_eq
        rw [follows] at head
        exact List.mem_cons_of_mem _ (List.mem_of_head? head.symm)
      · exact List.mem_cons_of_mem _ (ih linked.2 inside)

/-- The node before another one of a list. -/
theorem split_before (linked : Linked next start xs) (nodup : xs.Nodup) (inside : x ∈ xs)
    (follows : next x = some r) :
    ∃ front back, xs = front ++ x :: r :: back ∧ xs.idxOf r = front.length + 1 := by
  obtain ⟨front, back, rfl⟩ := List.append_of_mem inside
  have head := linked.tail.head_eq
  rw [follows] at head
  obtain ⟨back, rfl⟩ : ∃ rest, back = r :: rest := by
    cases back with
    | nil => cases head
    | cons y back =>
        rw [Option.some.inj head]
        exact ⟨back, rfl⟩
  refine ⟨front, back, rfl, ?_⟩
  have whole : front ++ x :: r :: back = (front ++ [x]) ++ r :: back := by simp
  rw [whole] at nodup ⊢
  have before : r ∉ front ++ [x] := fun member =>
    (List.nodup_append.mp nodup).2.2 r member r List.mem_cons_self rfl
  rw [List.idxOf_append_of_notMem before, List.idxOf_cons_self, List.length_append]
  rfl

theorem follow_injective (linked : Linked next start xs) (nodup : xs.Nodup) (first : x ∈ xs)
    (second : y ∈ xs) (follows : next x = some r) (follows' : next y = some r) : x = y := by
  obtain ⟨front, back, split, place⟩ := split_before linked nodup first follows
  obtain ⟨front', back', split', place'⟩ := split_before linked nodup second follows'
  have same := List.append_inj_right (split.symm.trans split') (by omega)
  exact (List.cons.inj same).1

end Lists

section OneSize

variable {u maxPageSize : Nat} {object : Object} {lists : Lists} {acked : List Nat}
  {locks : List Lock} {j x r : Nat}

/-- The queues have exactly the queued requests. -/
theorem queued_iff (good : Good u object lists acked locks) (settled : lists.loose = []) :
    Queued object r ↔ ∃ j, r ∈ lists.queue j := by
  have pool := good.pool
  have freed : Freed object r ↔ r ∈ lists.free := along_iff_mem pool.free_linked
  rw [Queued, freed]
  constructor
  · rintro ⟨allocated, used⟩
    rcases pool.covers r allocated with free | loose | queued
    · exact absurd free used
    · rw [settled] at loose
      cases loose
    · exact queued
  · rintro ⟨j, member⟩
    exact ⟨pool.bound_queue j r member, fun free => pool.free_apart r free j member⟩

theorem inChain_iff (good : Good u object lists acked locks) :
    InChain object x r ↔ (object.requests x).follow = some r := by
  have single : ∀ f, Along (fun r => (object.requests r).sibling) (some f) r ↔ r = f := by
    intro f
    have linked : Linked (fun r => (object.requests r).sibling) (some f) [f] :=
      ⟨rfl, good.pool.siblings f⟩
    rw [along_iff_mem linked, List.mem_singleton]
  rw [InChain]
  cases (object.requests x).follow with
  | none => exact ⟨nofun, nofun⟩
  | some f =>
      rw [single, Option.some.injEq]
      exact eq_comm

theorem sorted_of_good (good : Good u object lists acked locks) (member : x ∈ lists.queue j)
    (follows : (object.requests x).follow = some r) : Sorted object x r := by
  have waits := good.waits j
  have member' := follow_mem waits.linked member follows
  refine ⟨[r], ⟨rfl, good.pool.siblings r⟩, List.pairwise_singleton _ _, fun y inside => ?_⟩
  obtain rfl := List.mem_singleton.mp inside
  rw [waits.first x member, waits.first y member', waits.last x member, waits.last y member']
  exact ⟨Nat.le_refl _, Nat.le_refl _⟩

/-- The first request of a queue is the head of its page, any other follows the one before. -/
theorem pointed_of_good (good : Good u object lists acked locks) (settled : lists.loose = [])
    (whole : minPageSize ∣ object.objectSize) (member : r ∈ lists.queue j) :
    Headed object r ∨ ∃! x, Queued object x ∧ InChain object x r := by
  have waits := good.waits j
  obtain ⟨front, back, split⟩ := List.append_of_mem member
  rcases List.eq_nil_or_concat front with rfl | ⟨front, x, rfl⟩
  · refine Or.inl ⟨u * j, ?_, ?_⟩
    · have inside := good.inside j (List.ne_nil_of_mem member)
      rw [Object.numMinPages]
      rw [pageToOffset, Nat.mul_comm] at inside
      exact (Nat.lt_div_iff_mul_lt' whole _).mpr inside
    · obtain ⟨use, user, looks, -, -, -⟩ := good.units j
      rw [looks.head, split]
      rfl
  · have inside : x ∈ lists.queue j := by
      rw [split]
      simp
    have follows : (object.requests x).follow = some r := by
      have linked := waits.linked
      rw [split, List.concat_eq_append, List.append_assoc] at linked
      exact linked.tail.1
    refine Or.inr ⟨x, ⟨(queued_iff good settled).mpr ⟨j, inside⟩,
      (inChain_iff good).mpr follows⟩, ?_⟩
    rintro y ⟨queued, chain⟩
    obtain ⟨j', member'⟩ := (queued_iff good settled).mp queued
    have follows' := (inChain_iff good).mp chain
    obtain rfl := good.pool.apart _ _ r
      (follow_mem (good.waits j').linked member' follows') member
    exact follow_injective waits.linked waits.nodup member' inside follows' follows

theorem kept_of_locked (locked : Locked u object lists acked locks) (settled : lists.loose = [])
    (rounded : Rounded u object) (whole : minPageSize ∣ object.objectSize) : Kept object where
  queues := by
    rintro port offset length write needsData aligned ⟨known, kernel, found, rfl, fits, -⟩
    obtain ⟨-, j, object', -, -, served, -⟩ :=
      locked.accepted write needsData rounded known found aligned fits
    rw [served]
    exact Option.some_ne_none object'
  chains := by
    intro x f queued follows
    obtain ⟨j, member⟩ := (queued_iff locked.good settled).mp queued
    exact Or.inr (sorted_of_good locked.good member follows)
  pointed := by
    intro r queued
    obtain ⟨j, member⟩ := (queued_iff locked.good settled).mp queued
    exact (pointed_of_good locked.good settled whole member).imp_right Or.inr

/-- What holds while the kernels have pages of `u` minimal pages. -/
def Held (u : Nat) (s : System) : Prop :=
  ∃ lists locks, Locked u s.object lists s.acked locks ∧ lists.loose = [] ∧ Rounded u s.object ∧
    minPageSize ∣ s.object.objectSize

theorem held_create (pos : 0 < u) (whole : minPageSize ∣ maxPageSize) (size : Nat) :
    Held u { object := Object.createUpTo maxPageSize size } :=
  ⟨_, _, locked_new pos _, rfl, fun _ attached => absurd rfl attached.2,
    whole.trans (Nat.dvd_mul_left _ _)⟩

theorem held_init {port pageSize : Nat} {s : System} (held : Held u s)
    (ok : OneSize u maxPageSize s (.attach port pageSize)) :
    Held u { s with object := s.object.memoryObjectInitUpTo maxPageSize port pageSize } := by
  obtain ⟨lists, locks, locked, settled, rounded, whole⟩ := held
  have unchanged : Held u { s with object := s.object } :=
    ⟨lists, locks, locked, settled, rounded, whole⟩
  unfold Object.memoryObjectInitUpTo
  split
  · exact unchanged
  split
  · exact unchanged
  split
  · exact unchanged
  split
  · exact unchanged
  next small power unknown =>
  obtain ⟨short, size⟩ := ok (Nat.not_lt.mp small) (by simpa using power)
  have stored : shortSize (if pageSize < minPageSize then minPageSize else pageSize) =
      u * minPageSize := by
    rw [Object.shortSize_eq, rounded_size size]
    split
    · decide
    · exact short
  cases slot : s.object.portToKernel 0 with
  | none => exact unchanged
  | some kernel =>
      have real : max (shortSize pageSize) minPageSize = u * minPageSize := by
        rw [Object.shortSize_eq short]
        exact size
      refine ⟨lists, locks, ?_, settled, ?_, whole⟩
      · exact (locked.letIn rounded slot (not_not.mp unknown) stored real).1
      · exact (locked.letIn rounded slot (not_not.mp unknown) stored real).2

theorem length_of_request {port offset length : Nat} {write needsData : Bool} {object' : Object}
    (served : object.memoryObjectRequest port offset length write needsData = some object') :
    ∃ kernel, object.portToKernel port = some kernel ∧
      length = (object.kerninfo kernel).realPageSize := by
  unfold Object.memoryObjectRequest at served
  split at served
  · cases served
  obtain ⟨kernel, found, served⟩ := Option.bind_eq_some_iff.mp served
  dsimp only at served
  split at served
  · cases served
  next fits =>
  exact ⟨kernel, found, of_not_not fun other => fits (Or.inr (Or.inl other))⟩

theorem held_step {event : Event} {s s' : System} (held : Held u s)
    (ok : OneSize u maxPageSize s event) (ran : stepUpTo maxPageSize s event = some s') :
    Held u s' := by
  cases event with
  | attach port pageSize =>
      obtain rfl := Option.some.inj ran
      exact held_init held ok
  | request port offset length write needsData =>
      obtain ⟨lists, locks, locked, settled, rounded, whole⟩ := held
      rw [stepUpTo] at ran
      split at ran
      · cases ran
      next aligned =>
      obtain ⟨object, served, result⟩ := Option.bind_eq_some_iff.mp ran
      obtain rfl := Option.some.inj result
      obtain ⟨kernel, found, rfl⟩ := length_of_request served
      obtain ⟨lists', locks', locked', loose, after⟩ :=
        locked.memoryObjectRequest write needsData rounded found (not_not.mp aligned) served
      exact ⟨lists', locks', locked', loose.trans settled, rounded.congr after.kerninfo,
        after.objectSize ▸ whole⟩
  | lockCompleted serial junk =>
      obtain ⟨lists, locks, locked, settled, rounded, whole⟩ := held
      rw [stepUpTo] at ran
      obtain ⟨message, logged, ran⟩ := Option.bind_eq_some_iff.mp ran
      split at ran
      · next pending =>
          obtain ⟨object, served, result⟩ := Option.bind_eq_some_iff.mp ran
          obtain rfl := Option.some.inj result
          obtain ⟨lock, member, rfl, rfl⟩ :=
            locked.good.lock_of_message logged pending.1 pending.2
          obtain ⟨object', lists', locks', same, locked', loose, after⟩ :=
            locked.lockCompleted junk member
          obtain rfl := Option.some.inj (served.symm.trans same)
          exact ⟨lists', locks', locked', loose.trans settled, rounded.congr after.kerninfo,
            after.objectSize ▸ whole⟩
      · cases ran

theorem held_of_reachable {s : System} (pos : 0 < u) (whole : minPageSize ∣ maxPageSize)
    (reach : (machineUpTo maxPageSize).Reachable (OneSize u maxPageSize) s) : Held u s := by
  refine reach.invariant (P := Held u) ?_ fun s event s' held ok ran => held_step held ok ran
  rintro s ⟨size, rfl⟩
  exact held_create pos whole size

/-- No kernel has pages of no size. -/
theorem oneSize_of_zero {s : System} {event : Event} (ok : OneSize 0 maxPageSize s event) :
    OneSize 1 maxPageSize s event := by
  cases event with
  | attach port pageSize =>
      intro small power
      have least := Nat.le_max_right pageSize minPageSize
      rw [(ok small power).2, Nat.zero_mul] at least
      exact absurd least (by decide)
  | request => trivial
  | lockCompleted => trivial

/-- While all kernels have pages of one size, every state is in order. -/
theorem kept_of_oneSize {s : System} (whole : minPageSize ∣ maxPageSize)
    (reach : (machineUpTo maxPageSize).Reachable (OneSize u maxPageSize) s) : Kept s.object := by
  obtain ⟨v, held⟩ : ∃ v, Held v s := by
    rcases Nat.eq_zero_or_pos u with rfl | pos
    · exact ⟨1, held_of_reachable Nat.one_pos whole (reach.mono fun _ _ => oneSize_of_zero)⟩
    · exact ⟨u, held_of_reachable pos whole reach⟩
  obtain ⟨lists, locks, locked, settled, rounded, whole⟩ := held
  exact kept_of_locked locked settled rounded whole

end OneSize

/-! ## Pages of several sizes -/

/-- Nobody reads the uninitialised variables while no kernel is closed. -/
def idle : Nat → Junk := fun _ => {}

/-- An object of four minimal pages. -/
def four : System := { object := { objectSize := 4 * minPageSize } }

section Losing

variable {object : Object} {r : Nat}

/-- Nothing waits for a request but `r` is in use, and no page has it as its head. -/
def abandoned (object : Object) (r : Nat) : Bool :=
  decide (object.freeRequests = none) && decide (r < object.allocated) &&
    (List.range object.numMinPages).all
      (fun page => decide ((object.minPages page).head ≠ some r)) &&
    (List.range object.allocated).all (fun x => decide ((object.requests x).follow = none))

theorem not_kept_of_abandoned (lost : abandoned object r = true) : ¬Kept object := by
  simp only [abandoned, Bool.and_eq_true, decide_eq_true_eq, List.all_eq_true, List.mem_range]
    at lost
  obtain ⟨⟨⟨free, allocated⟩, headless⟩, unfollowed⟩ := lost
  have queued : Queued object r := by
    refine ⟨allocated, ?_⟩
    rw [Freed, free]
    exact nofun
  intro kept
  rcases kept.pointed r queued with ⟨page, inside, head⟩ | ⟨positive, count⟩ | ⟨x, chain, -⟩
  · exact headless page inside head
  · have nobody : followers object r = ∅ := by
      refine Set.eq_empty_iff_forall_notMem.mpr fun x follows => ?_
      have none := unfollowed x follows.1.1
      rw [follows.2] at none
      cases none
    rw [nobody, Set.ncard_empty] at count
    omega
  · have along := chain.2
    rw [InChain, unfollowed x chain.1.1] at along
    cases along

/-- Kernel 14 reads a page while a writer of half of it has been let in again: the bit of the
reader makes kernel 13 the writer of that half, and its pages are of another size.  The lock it
answers begins in the middle of its page and frees a page that a request waits for. -/
def losing : List Event :=
  [.attach 10 4096, .attach 11 4096, .attach 12 4096, .attach 13 8192, .attach 14 8192,
    .request 10 0 4096 true true, .request 14 0 8192 false true,
    .request 11 4096 4096 true true, .request 11 4096 4096 false true,
    .request 10 8192 4096 true true, .request 12 12288 4096 true true,
    .lockCompleted 1 idle, .request 11 8192 4096 false true, .request 10 0 4096 true true,
    .request 14 0 8192 true true, .lockCompleted 12 idle, .request 13 8192 8192 true true,
    .lockCompleted 13 idle, .request 10 8192 4096 true true]

theorem loses : ∃ s, (machineUpTo (2 * minPageSize)).Reachable Machine.always s ∧
    ¬Kept s.object := by
  have ran : ((runInside (2 * minPageSize) four losing).map fun s =>
      decide (s.object.objectSize = 4 * minPageSize) && abandoned s.object 0) = some true := by
    decide +kernel
  obtain ⟨s, reached, lost⟩ := Option.map_eq_some_iff.mp ran
  simp only [Bool.and_eq_true, decide_eq_true_eq] at lost
  have size : (Object.createUpTo (2 * minPageSize) (4 * minPageSize)).objectSize =
      4 * minPageSize := by decide
  have same : s.resize (Object.createUpTo (2 * minPageSize) (4 * minPageSize)).objectSize = s := by
    rw [size, ← lost.1]
    rfl
  refine ⟨s, ?_, not_kept_of_abandoned lost.2⟩
  rw [← same]
  exact reachable_of_runInside (Nat.le_refl _) (Nat.le_of_eq size.symm) reached
    (.init ⟨4 * minPageSize, rfl⟩)

end Losing

section Overrun

/-- A request for four pages waits, and two requests inside of it follow. -/
def overrun : List Event :=
  [.attach 10 4096, .attach 11 16384, .attach 12 4096, .request 10 0 4096 true true,
    .request 10 4096 4096 true true, .request 10 8192 4096 true true,
    .request 11 0 16384 true true, .request 12 0 4096 true true,
    .request 12 4096 4096 true true]

/-- The request of kernel 12 for its third page is let through, has to sleep, and does not
return. -/
def overruns (object : Object) : Bool :=
  decide (object.portToKernel 12 = some 2 ∧ (object.kerninfo 2).realPageSize = 4096 ∧
    8192 < object.objectSize ∧ object.haveExpecting 2 2 = true) &&
    (object.memoryObjectRequest 12 8192 4096 true true).isNone

theorem not_kept_of_overruns {object : Object} {n : Nat} (caught : overruns object = true)
    (larger : object.objectSize ≤ n) : ¬Kept (object.resize n) := by
  simp only [overruns, Bool.and_eq_true, decide_eq_true_eq, Option.isNone_iff_eq_none]
    at caught
  obtain ⟨⟨found, size, inside, expecting⟩, stuck⟩ := caught
  intro kept
  refine kept.queues 12 8192 4096 true true (by decide) ⟨by decide, 2, found, size.symm, ?_, ?_⟩ ?_
  · rintro (misaligned | outside)
    · exact absurd misaligned (by decide)
    · exact absurd outside (Nat.not_le.mpr (inside.trans_le larger))
  · exact expecting
  · rw [Object.memoryObjectRequest_resize _ _ _ _ inside larger, stuck]
    rfl

theorem le_createUpTo {maxPageSize size : Nat} (pos : 0 < maxPageSize) :
    size ≤ (Object.createUpTo maxPageSize size).objectSize := by
  have whole := Nat.lt_div_mul_add pos (a := size + maxPageSize - 1)
  dsimp only [Object.createUpTo]
  omega

/-- With pages of one and of four minimal pages the null pointer behind the last sibling is
followed. -/
theorem overruns_of_large {maxPageSize : Nat} (large : 4 * minPageSize ≤ maxPageSize) :
    ∃ s, (machineUpTo maxPageSize).Reachable Machine.always s ∧ ¬Kept s.object := by
  have ran : ((runInside (4 * minPageSize) four overrun).map fun s =>
      decide (s.object.objectSize = 4 * minPageSize) && overruns s.object) = some true := by
    decide +kernel
  obtain ⟨s, reached, caught⟩ := Option.map_eq_some_iff.mp ran
  simp only [Bool.and_eq_true, decide_eq_true_eq] at caught
  have larger : 4 * minPageSize ≤
      (Object.createUpTo maxPageSize (4 * minPageSize)).objectSize :=
    le_createUpTo (Nat.lt_of_lt_of_le (by decide) large)
  refine ⟨s.resize _, ?_, not_kept_of_overruns caught.2 (caught.1.trans_le larger)⟩
  exact reachable_of_runInside large larger reached (.init ⟨4 * minPageSize, rfl⟩)

end Overrun

/-- A state that is not in order can be reached with every larger ratio. -/
theorem broken_of_ratio {ratio shift : Nat} (sane : sanity (ratio * minPageSize) shift = true)
    (several : ratio ≠ 1) :
    ∃ s, (machineUpTo (ratio * minPageSize)).Reachable Machine.always s ∧ ¬Kept s.object := by
  simp only [sanity, Bool.and_eq_true, decide_eq_true_eq] at sane
  have power : ratio * minPageSize = 2 ^ shift := sane.2
  have pos : 0 < 2 ^ shift := Nat.two_pow_pos shift
  rcases Nat.lt_or_ge ratio 4 with small | large
  · have below : shift < 14 := by
      refine (Nat.pow_lt_pow_iff_right (by decide : 1 < 2)).mp ?_
      rw [← power, minPageSize]
      omega
    have two : ratio = 2 := by
      rw [minPageSize] at power
      interval_cases shift <;> omega
    rw [two]
    exact loses
  · exact overruns_of_large (Nat.mul_le_mul_right _ large)

theorem chains_overrun : ¬∀ ratio shift, sanity (ratio * minPageSize) shift = true →
    ∀ s, (machineUpTo (ratio * minPageSize)).Reachable Machine.always s → Kept s.object := by
  intro all
  obtain ⟨s, reach, broken⟩ := overruns_of_large (Nat.le_refl (4 * minPageSize))
  exact broken (all 4 14 (by decide) s reach)

/-- The chains are in order in every run of kernels with pages of one size.  They are so in
every run, if and only if the configuration has only one size. -/
theorem chains_kept_iff (ratio shift : Nat) (sane : sanity (ratio * minPageSize) shift = true) :
    (∀ u s, (machineUpTo (ratio * minPageSize)).Reachable (OneSize u (ratio * minPageSize)) s →
      Kept s.object) ∧
    ((∀ s, (machineUpTo (ratio * minPageSize)).Reachable Machine.always s → Kept s.object) ↔
      ratio = 1) := by
  have whole : minPageSize ∣ ratio * minPageSize := Nat.dvd_mul_left _ _
  refine ⟨fun u s reach => kept_of_oneSize whole reach, fun all => ?_, ?_⟩
  · by_contra several
    obtain ⟨s, reach, broken⟩ := broken_of_ratio sane several
    exact broken (all s reach)
  · rintro rfl s reach
    refine kept_of_oneSize (u := 1) whole (reach.mono fun s event _ => ?_)
    cases event with
    | attach port pageSize =>
        intro small power
        rw [Nat.one_mul] at small ⊢
        exact ⟨small.trans_lt (by decide), Nat.max_eq_right small⟩
    | request => trivial
    | lockCompleted => trivial

theorem chains_kept_iff_two :
    ¬∀ s, (machineUpTo (2 * minPageSize)).Reachable Machine.always s → Kept s.object :=
  fun all => absurd ((chains_kept_iff 2 13 (by decide)).2.mp all) (by decide)

end MachFormal.NetMemory.Siblings
