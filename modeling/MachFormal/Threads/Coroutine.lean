import Mathlib
import MachFormal.Library.Machine
import MachFormal.Library.Linked

/-!
# The coroutine scheduler

With coroutines one cproc runs at a time and gives up the processor only by a
call.  All cprocs that can run are in the ready queue, the running one at its
head; a cproc that waits for a condition is in the queue of that condition.
One link field of a cproc serves all queues.

The cprocs that waited for a condition and those that were made ready from its
queue are recorded in order.
-/

namespace MachFormal.Threads.Coroutine

open MachFormal.Library

/-- `CPROC_RUNNING` and `CPROC_BLOCKED`; coroutines never spin. -/
inductive CprocState where
  | running
  | blocked
  deriving DecidableEq, Repr

/-- The queues and the cprocs, named by their addresses.  `current` runs user code; it is
`none` once all cprocs are blocked. -/
structure Sched where
  next : Nat → Option Nat
  state : Nat → CprocState
  ready : Queue
  queue : Nat → Queue
  nBlocked : Int
  cprocs : List Nat
  current : Option Nat
  waited : Nat → List Nat
  woken : Nat → List Nat

/-- Append a cproc to the ready queue. -/
def enqReady (s : Sched) (p : Nat) : Sched :=
  { s with next := (Queue.enq s.next s.ready p).1, ready := (Queue.enq s.next s.ready p).2 }

/-- Append a cproc to the queue of a condition. -/
def enqCondition (s : Sched) (c p : Nat) : Sched :=
  { s with
    next := (Queue.enq s.next (s.queue c) p).1
    queue := Function.update s.queue c (Queue.enq s.next (s.queue c) p).2 }

/-- `cproc_create`: the child goes in front of the ready queue and runs first. -/
def cprocCreate (s : Sched) (child : Nat) : Sched :=
  { s with
    cprocs := child :: s.cprocs
    state := Function.update s.state child .running
    next := (Queue.preq s.next s.ready child).1
    ready := (Queue.preq s.next s.ready child).2
    current := some child }

/-- `condition_wait` up to the switch.  An empty ready queue has no result: a null pointer
is put on the queue of the condition. -/
def conditionWait (s : Sched) (c : Nat) : Option Sched :=
  match Queue.deq s.next s.ready with
  | (none, _) => none
  | (some p, ready) =>
      let s := enqCondition { s with ready := ready } c p
      some { s with
        state := Function.update s.state p .blocked
        nBlocked := s.nBlocked + 1
        waited := Function.update s.waited c (s.waited c ++ [p])
        current := s.ready.head }

/-- `cproc_continue`, for a cproc from the queue of condition `c`. -/
def cprocContinue (s : Sched) (c p : Nat) : Sched :=
  let s := enqReady { s with state := Function.update s.state p .running } p
  { s with
    nBlocked := s.nBlocked - 1
    woken := Function.update s.woken c (s.woken c ++ [p]) }

def condSignal (s : Sched) (c : Nat) : Sched :=
  match Queue.deq s.next (s.queue c) with
  | (none, rest) => { s with queue := Function.update s.queue c rest }
  | (some p, rest) => cprocContinue { s with queue := Function.update s.queue c rest } c p

/-- The loop of `cond_broadcast` over its copy of the queue. -/
def continueAll (c : Nat) : Nat → Queue → Sched → Option Sched
  | 0, _, _ => none
  | fuel + 1, queue, s =>
      match Queue.deq s.next queue with
      | (none, _) => some s
      | (some p, rest) => continueAll c fuel rest (cprocContinue s c p)

def condBroadcast (s : Sched) (c : Nat) : Option Sched :=
  continueAll c (s.cprocs.length + 1) (s.queue c)
    { s with queue := Function.update s.queue c {} }

def cthreadYield (s : Sched) : Option Sched :=
  if s.ready.head ≠ s.ready.tail then
    match Queue.deq s.next s.ready with
    | (none, _) => none
    | (some p, ready) =>
        let s := enqReady { s with ready := ready } p
        some { s with current := s.ready.head }
  else some s

/-- A call of the running cproc; `create` comes with the address of the new cproc. -/
inductive Label where
  | create (child : Nat)
  | wait (c : Nat)
  | signal (c : Nat)
  | broadcast (c : Nat)
  | yield
  deriving DecidableEq, Repr

def step (s : Sched) (label : Label) : Option Sched :=
  if s.current = none then none
  else
    match label with
    | .create child => if child ∈ s.cprocs then none else some (cprocCreate s child)
    | .wait c => conditionWait s c
    | .signal c => some (condSignal s c)
    | .broadcast c => condBroadcast s c
    | .yield => cthreadYield s

/-- `cproc_init`: one cproc, alone in the ready queue. -/
def cprocInit (next : Nat → Option Nat) (state : Nat → CprocState) (p : Nat) : Sched :=
  { next := (Queue.enq next {} p).1
    state := Function.update state p .running
    ready := (Queue.enq next {} p).2
    queue := fun _ => {}
    nBlocked := 0
    cprocs := [p]
    current := some p
    waited := fun _ => []
    woken := fun _ => [] }

def machine : Machine Sched Label where
  init s := ∃ next state p, s = cprocInit next state p
  step := step

/-! ## The invariant -/

/-- The number of cprocs in the queues of finitely many conditions. -/
def total (queued : Nat → List Nat) (conditions : Finset Nat) : Nat :=
  ∑ c ∈ conditions, (queued c).length

/-- Every cproc has its place: `ready` lists the ready queue, `queued` those of the
conditions. -/
structure Placed (s : Sched) (ready : List Nat) (queued : Nat → List Nat) : Prop where
  readyHolds : s.ready.Holds s.next ready
  queueHolds : ∀ c, (s.queue c).Holds s.next (queued c)
  apart : ∀ {c p}, p ∈ ready → p ∉ queued c
  single : ∀ {c d p}, p ∈ queued c → p ∈ queued d → c = d
  members : ∀ p, p ∈ s.cprocs ↔ p ∈ ready ∨ ∃ c, p ∈ queued c
  running : ∀ p ∈ ready, s.state p = .running
  blocked : ∀ {c p}, p ∈ queued c → s.state p = .blocked
  counted : ∃ conditions : Finset Nat, (∀ c ∉ conditions, queued c = []) ∧
    s.nBlocked = total queued conditions
  ordered : ∀ c, s.waited c = s.woken c ++ queued c

section Counting

variable {queued : Nat → List Nat} {conditions : Finset Nat} {c : Nat} {s : Sched}

theorem total_update (hc : c ∈ conditions) (ps : List Nat) :
    total (Function.update queued c ps) conditions + (queued c).length =
      total queued conditions + ps.length := by
  have hcomp : (fun d => (Function.update queued c ps d).length) =
      Function.update (fun d => (queued d).length) c ps.length := by
    funext d
    by_cases hd : d = c
    · subst hd
      simp
    · simp [Function.update_of_ne hd]
  have hsplit := Finset.sum_erase_add conditions (fun d => (queued d).length) hc
  simp only [total]
  rw [hcomp, Finset.sum_update_of_mem hc, ← hsplit, Finset.sdiff_singleton_eq_erase]
  omega

theorem total_insert (hempty : ∀ d ∉ conditions, queued d = []) (c : Nat) :
    total queued (insert c conditions) = total queued conditions := by
  by_cases hc : c ∈ conditions
  · rw [Finset.insert_eq_of_mem hc]
  · simp only [total]
    rw [Finset.sum_insert hc, hempty c hc]
    simp

theorem counted_update {n delta : Int} {ps : List Nat}
    (h : ∃ conditions : Finset Nat, (∀ d ∉ conditions, queued d = []) ∧
      n = total queued conditions)
    (hdelta : (ps.length : Int) = (queued c).length + delta) :
    ∃ conditions : Finset Nat, (∀ d ∉ conditions, Function.update queued c ps d = []) ∧
      n + delta = total (Function.update queued c ps) conditions := by
  obtain ⟨conditions, hempty, hn⟩ := h
  refine ⟨insert c conditions, ?_, ?_⟩
  · intro d hd
    rw [Finset.mem_insert, not_or] at hd
    rw [Function.update_of_ne hd.1]
    exact hempty d hd.2
  · have hupdate := @total_update queued (insert c conditions) c (Finset.mem_insert_self c _) ps
    rw [total_insert hempty c] at hupdate
    omega

end Counting

/-! ## Moving a cproc between the queues -/

section Moves

variable {s : Sched} {ready : List Nat} {queued : Nat → List Nat} {c p : Nat}

/-- The running cproc leaves the head of the ready queue for the queue of a condition. -/
theorem Placed.wait (h : Placed s (p :: ready) queued) (c : Nat) :
    ∃ s', conditionWait s c = some s' ∧ s'.current = ready.head? ∧
      Placed s' ready (Function.update queued c (queued c ++ [p])) := by
  obtain ⟨hdeq, hready⟩ := h.readyHolds.deq_cons
  have hp : p ∉ queued c := h.apart List.mem_cons_self
  have hpr : p ∉ ready := (List.nodup_cons.mp h.readyHolds.nodup).1
  have hpair : Queue.deq s.next s.ready = (some p, (Queue.deq s.next s.ready).2) := by
    rw [← hdeq]
  have hmem : ∀ d q, q ∈ Function.update queued c (queued c ++ [p]) d →
      q ∈ queued d ∨ (d = c ∧ q = p) := by
    intro d q hq
    by_cases hd : d = c
    · subst hd
      rw [Function.update_self, List.mem_append, List.mem_singleton] at hq
      exact hq.imp_right (fun hqp => ⟨rfl, hqp⟩)
    · rw [Function.update_of_ne hd] at hq
      exact Or.inl hq
  simp only [conditionWait]
  rw [hpair]
  refine ⟨_, rfl, hready.head_eq, ?_⟩
  constructor
  · refine hready.congr (fun q hq => ?_)
    have hne : q ≠ p := fun heq => hpr (heq ▸ hq)
    exact Queue.enq_frame (h.queueHolds c) hne (h.apart (List.mem_cons_of_mem p hq))
  · intro d
    by_cases hd : d = c
    · subst hd
      simp only [enqCondition, Function.update_self]
      exact (h.queueHolds d).enq hp
    · simp only [enqCondition, Function.update_of_ne hd]
      refine (h.queueHolds d).congr (fun q hq => ?_)
      have hne : q ≠ p := fun heq => h.apart List.mem_cons_self (heq ▸ hq)
      exact Queue.enq_frame (h.queueHolds c) hne (fun hqc => hd (h.single hq hqc))
  · intro d q hq hin
    rcases hmem d q hin with hin | ⟨-, rfl⟩
    · exact h.apart (List.mem_cons_of_mem p hq) hin
    · exact hpr hq
  · intro d e q hqd hqe
    rcases hmem d q hqd with hd | ⟨hd, hqp⟩
    · rcases hmem e q hqe with he | ⟨-, hqp⟩
      · exact h.single hd he
      · exact absurd (hqp ▸ hd) (h.apart List.mem_cons_self)
    · rcases hmem e q hqe with he | ⟨he, -⟩
      · exact absurd (hqp ▸ he) (h.apart List.mem_cons_self)
      · exact hd.trans he.symm
  · intro q
    refine (h.members q).trans ?_
    constructor
    · rintro (hq | ⟨d, hq⟩)
      · rcases List.mem_cons.mp hq with rfl | hq
        · exact Or.inr ⟨c, by simp⟩
        · exact Or.inl hq
      · refine Or.inr ⟨d, ?_⟩
        by_cases hd : d = c
        · subst hd
          simp [hq]
        · rwa [Function.update_of_ne hd]
    · rintro (hq | ⟨d, hq⟩)
      · exact Or.inl (List.mem_cons_of_mem p hq)
      · rcases hmem d q hq with hq | ⟨-, rfl⟩
        · exact Or.inr ⟨d, hq⟩
        · exact Or.inl List.mem_cons_self
  · intro q hq
    have hne : q ≠ p := fun heq => hpr (heq ▸ hq)
    refine (Function.update_of_ne hne _ _).trans ?_
    exact h.running q (List.mem_cons_of_mem p hq)
  · intro d q hq
    by_cases hqp : q = p
    · subst hqp
      exact Function.update_self _ _ _
    · refine (Function.update_of_ne hqp _ _).trans ?_
      rcases hmem d q hq with hq | ⟨-, heq⟩
      · exact h.blocked hq
      · exact absurd heq hqp
  · exact counted_update h.counted (by simp)
  · intro d
    by_cases hd : d = c
    · subst hd
      simp only [Function.update_self, enqCondition]
      rw [h.ordered d, List.append_assoc]
    · simp only [Function.update_of_ne hd, enqCondition]
      exact h.ordered d

/-- A cproc at the head of the queue of a condition goes to the end of the ready queue;
`rest` is what is left of the queue. -/
theorem Placed.continue_ {rest : Queue} {ps : List Nat} (h : Placed s ready queued)
    (hc : queued c = p :: ps) (hrest : rest.Holds s.next ps) :
    Placed (cprocContinue { s with queue := Function.update s.queue c rest } c p)
      (ready ++ [p]) (Function.update queued c ps) := by
  have hpc : p ∈ queued c := hc ▸ List.mem_cons_self
  have hp : p ∉ ready := fun hin => h.apart hin hpc
  have hsub : ∀ {d q}, q ∈ Function.update queued c ps d → q ∈ queued d := by
    intro d q hq
    by_cases hd : d = c
    · subst hd
      rw [Function.update_self] at hq
      exact hc ▸ List.mem_cons_of_mem p hq
    · rwa [Function.update_of_ne hd] at hq
  have hgone : ∀ {d q}, q ∈ Function.update queued c ps d → q ≠ p := by
    intro d q hq heq
    subst heq
    obtain rfl : d = c := h.single (hsub hq) hpc
    rw [Function.update_self] at hq
    have hnodup := (h.queueHolds d).nodup
    rw [hc] at hnodup
    exact (List.nodup_cons.mp hnodup).1 hq
  have hframe : ∀ {d q}, q ∈ Function.update queued c ps d →
      (Queue.enq s.next s.ready p).1 q = s.next q := by
    intro d q hq
    exact Queue.enq_frame h.readyHolds (hgone hq) (fun hin => h.apart hin (hsub hq))
  constructor
  · exact h.readyHolds.enq hp
  · intro d
    by_cases hd : d = c
    · subst hd
      have hholds := hrest.congr (fun q hq => @hframe d q (by rwa [Function.update_self]))
      simpa only [cprocContinue, enqReady, Function.update_self] using hholds
    · have hholds := (h.queueHolds d).congr
        (fun q hq => @hframe d q (by rwa [Function.update_of_ne hd]))
      simpa only [cprocContinue, enqReady, Function.update_of_ne hd] using hholds
  · intro d q hq hin
    rcases List.mem_append.mp hq with hq | hq
    · exact h.apart hq (hsub hin)
    · exact hgone hin (List.mem_singleton.mp hq)
  · intro d e q hqd hqe
    exact h.single (hsub hqd) (hsub hqe)
  · intro q
    refine (h.members q).trans ?_
    rw [List.mem_append, List.mem_singleton]
    constructor
    · rintro (hq | ⟨d, hq⟩)
      · exact Or.inl (Or.inl hq)
      · by_cases hd : d = c
        · subst hd
          rw [hc] at hq
          rcases List.mem_cons.mp hq with rfl | hq
          · exact Or.inl (Or.inr rfl)
          · exact Or.inr ⟨d, by rwa [Function.update_self]⟩
        · exact Or.inr ⟨d, by rwa [Function.update_of_ne hd]⟩
    · rintro ((hq | rfl) | ⟨d, hq⟩)
      · exact Or.inl hq
      · exact Or.inr ⟨c, hpc⟩
      · exact Or.inr ⟨d, hsub hq⟩
  · intro q hq
    by_cases hqp : q = p
    · subst hqp
      exact Function.update_self _ _ _
    · refine (Function.update_of_ne hqp _ _).trans ?_
      rcases List.mem_append.mp hq with hq | hq
      · exact h.running q hq
      · exact absurd (List.mem_singleton.mp hq) hqp
  · intro d q hq
    exact (Function.update_of_ne (hgone hq) _ _).trans (h.blocked (hsub hq))
  · refine counted_update h.counted ?_
    rw [hc, List.length_cons]
    omega
  · intro d
    by_cases hd : d = c
    · subst hd
      simp only [cprocContinue, enqReady, Function.update_self]
      rw [h.ordered d, hc, List.append_assoc]
      rfl
    · simp only [cprocContinue, enqReady, Function.update_of_ne hd]
      exact h.ordered d

theorem Placed.signal (h : Placed s ready queued) (c : Nat) :
    ∃ ps, Placed (condSignal s c) (ready ++ ps) (Function.update queued c ((queued c).drop 1)) ∧
      (condSignal s c).current = s.current := by
  cases hc : queued c with
  | nil =>
      have hdeq := (hc ▸ h.queueHolds c : (s.queue c).Holds s.next []).deq_nil
      have hsame : condSignal s c = s := by
        simp only [condSignal]
        rw [hdeq]
        simp only [Function.update_eq_self]
      refine ⟨[], ?_, congrArg Sched.current hsame⟩
      rw [hsame, List.append_nil, List.drop_nil, ← hc, Function.update_eq_self]
      exact h
  | cons p ps =>
      obtain ⟨hdeq, hrest⟩ := (hc ▸ h.queueHolds c : (s.queue c).Holds s.next (p :: ps)).deq_cons
      have hpair : Queue.deq s.next (s.queue c) =
          (some p, (Queue.deq s.next (s.queue c)).2) := by rw [← hdeq]
      have heq : condSignal s c = cprocContinue
          { s with queue := Function.update s.queue c (Queue.deq s.next (s.queue c)).2 } c p := by
        simp only [condSignal]
        rw [hpair]
      rw [heq]
      exact ⟨[p], h.continue_ hc hrest, rfl⟩

/-- The loop of `cond_broadcast`: `queue` is its copy, and the condition has an empty queue. -/
theorem continueAll_spec {queue : Queue} {fuel : Nat} (ps : List Nat)
    (h : Placed { s with queue := Function.update s.queue c queue } ready queued)
    (hc : queued c = ps) (hempty : s.queue c = {}) (hfuel : ps.length < fuel) :
    ∃ s', continueAll c fuel queue s = some s' ∧ s'.current = s.current ∧
      Placed s' (ready ++ ps) (Function.update queued c []) := by
  induction ps generalizing s ready queued queue fuel with
  | nil =>
      obtain ⟨fuel, rfl⟩ : ∃ n, fuel = n + 1 := ⟨fuel - 1, by simp at hfuel; omega⟩
      have hholds : queue.Holds s.next [] := by
        have hqueue := h.queueHolds c
        rw [hc] at hqueue
        simpa only [Function.update_self] using hqueue
      have hqueue : queue = {} := by
        have hhead : queue.head = none := hholds.linked
        have htail : queue.tail = none := hholds.last
        cases queue
        simp only at hhead htail
        rw [hhead, htail]
      refine ⟨s, ?_, rfl, ?_⟩
      · simp only [continueAll]
        rw [hholds.deq_nil]
      · have hself : Function.update s.queue c queue = s.queue := by
          rw [hqueue, ← hempty, Function.update_eq_self]
        rw [hself] at h
        rw [List.append_nil, ← hc, Function.update_eq_self]
        exact h
  | cons p ps ih =>
      obtain ⟨fuel, rfl⟩ : ∃ n, fuel = n + 1 := ⟨fuel - 1, by simp at hfuel; omega⟩
      have hholds : queue.Holds s.next (p :: ps) := by
        have hqueue := h.queueHolds c
        rw [hc] at hqueue
        simpa only [Function.update_self] using hqueue
      obtain ⟨hdeq, hrest⟩ := hholds.deq_cons
      have hpair : Queue.deq s.next queue = (some p, (Queue.deq s.next queue).2) := by
        rw [← hdeq]
      have hmoved := h.continue_ hc hrest
      rw [Function.update_idem] at hmoved
      have hnext : ∃ s', continueAll c fuel (Queue.deq s.next queue).2 (cprocContinue s c p) =
          some s' ∧ s'.current = (cprocContinue s c p).current ∧
          Placed s' (ready ++ [p] ++ ps) (Function.update (Function.update queued c ps) c []) :=
        ih hmoved (Function.update_self _ _ _) hempty (by simpa using hfuel)
      obtain ⟨s', hrun, hcurrent, hplaced⟩ := hnext
      refine ⟨s', ?_, hcurrent, ?_⟩
      · simp only [continueAll]
        rw [hpair]
        exact hrun
      · rw [List.append_assoc, List.singleton_append, Function.update_idem] at hplaced
        exact hplaced

theorem Placed.length_le (h : Placed s ready queued) (c : Nat) :
    (queued c).length ≤ s.cprocs.length := by
  have hsub : queued c ⊆ s.cprocs := fun p hp => (h.members p).mpr (Or.inr ⟨c, hp⟩)
  exact ((h.queueHolds c).nodup.subperm hsub).length_le

theorem Placed.broadcast (h : Placed s ready queued) (c : Nat) :
    ∃ s', condBroadcast s c = some s' ∧ s'.current = s.current ∧
      Placed s' (ready ++ queued c) (Function.update queued c []) := by
  have hloop : Placed { s with
      queue := Function.update (Function.update s.queue c {}) c (s.queue c) } ready queued := by
    rw [Function.update_idem, Function.update_eq_self]
    exact h
  exact continueAll_spec (queued c) hloop rfl (Function.update_self _ _ _)
    (Nat.lt_succ_of_le (h.length_le c))

theorem Placed.rotate (h : Placed s (p :: ready) queued) :
    ∃ s', cthreadYield s = some s' ∧
      ∃ ready', Placed s' ready' queued ∧ (s'.current = ready'.head? ∨
        (ready' = p :: ready ∧ s'.current = s.current)) := by
  simp only [cthreadYield]
  split
  · obtain ⟨hdeq, hready⟩ := h.readyHolds.deq_cons
    have hpr : p ∉ ready := (List.nodup_cons.mp h.readyHolds.nodup).1
    have hpair : Queue.deq s.next s.ready = (some p, (Queue.deq s.next s.ready).2) := by
      rw [← hdeq]
    have henq := hready.enq hpr
    rw [hpair]
    refine ⟨_, rfl, ready ++ [p], ?_, Or.inl henq.head_eq⟩
    have hmem : ∀ q, q ∈ ready ++ [p] ↔ q ∈ p :: ready := by
      intro q
      rw [List.mem_append, List.mem_singleton, List.mem_cons, or_comm]
    constructor
    · exact henq
    · intro d
      refine (h.queueHolds d).congr (fun q hq => ?_)
      have hne : q ≠ p := fun heq => h.apart List.mem_cons_self (heq ▸ hq)
      exact Queue.enq_frame hready hne (fun hin => h.apart (List.mem_cons_of_mem p hin) hq)
    · intro d q hq
      exact h.apart ((hmem q).mp hq)
    · exact h.single
    · intro q
      exact (h.members q).trans (or_congr_left (hmem q).symm)
    · intro q hq
      exact h.running q ((hmem q).mp hq)
    · exact h.blocked
    · exact h.counted
    · exact h.ordered
  · exact ⟨s, rfl, p :: ready, h, Or.inr ⟨rfl, rfl⟩⟩

theorem Placed.create (h : Placed s ready queued) (hp : p ∉ s.cprocs) :
    Placed (cprocCreate s p) (p :: ready) queued := by
  have hpr : p ∉ ready := fun hin => hp ((h.members p).mpr (Or.inl hin))
  have hpq : ∀ {d q}, q ∈ queued d → q ≠ p := by
    intro d q hq heq
    exact hp ((h.members p).mpr (Or.inr ⟨d, heq ▸ hq⟩))
  constructor
  · exact h.readyHolds.preq hpr
  · intro d
    exact (h.queueHolds d).congr (fun q hq => Queue.preq_frame (hpq hq))
  · intro d q hq hin
    rcases List.mem_cons.mp hq with rfl | hq
    · exact hpq hin rfl
    · exact h.apart hq hin
  · exact h.single
  · intro q
    simp only [cprocCreate, List.mem_cons]
    rw [h.members q, or_assoc]
  · intro q hq
    by_cases hqp : q = p
    · subst hqp
      exact Function.update_self _ _ _
    · refine (Function.update_of_ne hqp _ _).trans ?_
      exact h.running q ((List.mem_cons.mp hq).resolve_left hqp)
  · intro d q hq
    exact (Function.update_of_ne (hpq hq) _ _).trans (h.blocked hq)
  · exact h.counted
  · exact h.ordered

end Moves

/-! ## All runs -/

/-- Every cproc has its place, and the running one is the head of the ready queue. -/
def Sound (s : Sched) : Prop :=
  ∃ ready queued, Placed s ready queued ∧ s.current = ready.head?

section Runs

variable {s : Sched}

/-- A call returns to user code, and the scheduler stays sound; only the address of a new
cproc has to be new. -/
theorem Sound.step {label : Label} (h : Sound s) (hcurrent : s.current ≠ none)
    (hnew : ∀ child, label = .create child → child ∉ s.cprocs) :
    ∃ s', step s label = some s' ∧ Sound s' := by
  obtain ⟨ready, queued, hp, hhead⟩ := h
  obtain ⟨p, rest, rfl⟩ : ∃ p rest, ready = p :: rest := by
    cases ready with
    | nil => exact absurd hhead hcurrent
    | cons p rest => exact ⟨p, rest, rfl⟩
  simp only [Coroutine.step, if_neg hcurrent]
  cases label with
  | create child =>
      have hchild := hnew child rfl
      simp only [if_neg hchild]
      exact ⟨_, rfl, child :: p :: rest, queued, hp.create hchild, rfl⟩
  | wait c =>
      obtain ⟨s', hwait, hnext, hplaced⟩ := hp.wait c
      exact ⟨s', hwait, rest, _, hplaced, hnext⟩
  | signal c =>
      obtain ⟨ps, hplaced, hsame⟩ := hp.signal c
      exact ⟨_, rfl, _, _, hplaced, hsame.trans hhead⟩
  | broadcast c =>
      obtain ⟨s', hbroadcast, hsame, hplaced⟩ := hp.broadcast c
      exact ⟨s', hbroadcast, _, _, hplaced, hsame.trans hhead⟩
  | yield =>
      obtain ⟨s', hyield, ready', hplaced, hcases⟩ := hp.rotate
      refine ⟨s', hyield, ready', queued, hplaced, ?_⟩
      rcases hcases with hnext | ⟨rfl, hsame⟩
      · exact hnext
      · exact hsame.trans hhead

theorem cprocInit_sound (next : Nat → Option Nat) (state : Nat → CprocState) (p : Nat) :
    Sound (cprocInit next state p) := by
  have hready : (Queue.enq next {} p).2.Holds (Queue.enq next {} p).1 [p] :=
    Queue.holds_nil.enq List.not_mem_nil
  refine ⟨[p], fun _ => [], ?_, rfl⟩
  constructor
  · exact hready
  · exact fun c => Queue.holds_nil
  · exact fun _ => List.not_mem_nil
  · exact fun hp => absurd hp List.not_mem_nil
  · intro q
    simp [cprocInit]
  · intro q hq
    rw [List.mem_singleton.mp hq]
    exact Function.update_self _ _ _
  · exact fun hp => absurd hp List.not_mem_nil
  · exact ⟨∅, fun _ _ => rfl, rfl⟩
  · exact fun c => rfl

theorem sound_of_reachable (hreach : machine.Reachable Machine.always s) : Sound s := by
  refine hreach.invariant ?_ ?_
  · rintro s ⟨next, state, p, rfl⟩
    exact cprocInit_sound next state p
  · intro s label s' hs _ hstep
    have hcurrent : s.current ≠ none := by
      intro hnone
      have hfail : step s label = none := if_pos hnone
      cases hfail.symm.trans hstep
    have hnew : ∀ child, label = .create child → child ∉ s.cprocs := by
      rintro child rfl hin
      have hfail : step s (.create child) = none := by
        simp only [step, if_neg hcurrent, if_pos hin]
      cases hfail.symm.trans hstep
    obtain ⟨s'', hstep', hsound⟩ := hs.step hcurrent hnew
    cases Option.some.inj (hstep.symm.trans hstep')
    exact hsound

/-- In every state of every run: the running cproc is the head of the ready queue, every
cproc is in one queue, once, with the state that belongs to it, `n_blocked` counts the waiting
ones, the waiters of a condition are made ready in their order, and the next call of the
running cproc returns. -/
theorem scheduler_invariant (hreach : machine.Reachable Machine.always s) :
    (∃ ready queued, Placed s ready queued ∧ s.current = ready.head? ∧
      ∀ p ∈ s.cprocs, (p ∈ ready ∧ ∀ c, p ∉ queued c) ∨ (p ∉ ready ∧ ∃! c, p ∈ queued c)) ∧
    ∀ label, s.current ≠ none → (∀ child, label = .create child → child ∉ s.cprocs) →
      ∃ s', step s label = some s' := by
  have hsound := sound_of_reachable hreach
  refine ⟨?_, ?_⟩
  · obtain ⟨ready, queued, hp, hhead⟩ := hsound
    refine ⟨ready, queued, hp, hhead, ?_⟩
    intro p hin
    rcases (hp.members p).mp hin with hready | ⟨c, hc⟩
    · exact Or.inl ⟨hready, fun c => hp.apart hready⟩
    · exact Or.inr ⟨fun hready => hp.apart hready hc, c, hc, fun d hd => hp.single hd hc⟩
  · intro label hcurrent hnew
    obtain ⟨s', hstep, -⟩ := hsound.step hcurrent hnew
    exact ⟨s', hstep⟩

end Runs

/-- Two cprocs wait for a condition and are woken by a broadcast. -/
def broadcastRun : List Label :=
  [.create 1, .create 2, .wait 7, .wait 7, .broadcast 7, .yield]

theorem scheduler_invariant_broadcastRun : ∃ s,
    machine.run (cprocInit (fun _ => none) (fun _ => .running) 0) broadcastRun = some s ∧
    s.woken 7 = [2, 1] ∧ ∃ ready queued, Placed s ready queued ∧ s.current = ready.head? := by
  obtain ⟨s, hrun⟩ : ∃ s, machine.run (cprocInit (fun _ => none) (fun _ => .running) 0)
    broadcastRun = some s := ⟨_, rfl⟩
  have hwoken : s.woken 7 = [2, 1] := by
    cases Option.some.inj hrun
    rfl
  have hreach : machine.Reachable Machine.always s :=
    .of_run broadcastRun (.init ⟨_, _, 0, rfl⟩) hrun
      (Machine.meets_of_forall (fun _ _ _ => trivial))
  obtain ⟨⟨ready, queued, hp, hhead, -⟩, -⟩ := scheduler_invariant hreach
  exact ⟨s, hrun, hwoken, ready, queued, hp, hhead⟩

end MachFormal.Threads.Coroutine
