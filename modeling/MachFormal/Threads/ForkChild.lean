import Mathlib.Data.List.Nodup
import Mathlib.Logic.Function.Basic
import MachFormal.Library.Machine

/-!
# UNIX `fork` of a program with many cthreads

`cthread_fork_prepare` takes `cthread_lock` and `cthread_free_lock`; the child
comes up with the calling thread alone, and `cthread_fork_child` frees what
describes the others: every other cproc with the descriptor it is incarnated
in, the queue of cthreads, and `free_cthreads`.

The parent is a machine of cprocs.  Cthreads are numbered, and `desc` gives the
descriptor of a cthread; a descriptor that is freed may be given to a later one.
A critical section of `cthread_lock`, of `cthread_free_lock` or of a cthread's
own lock is one step.  A call of `cthread_join` or `cthread_detach` may come
from anywhere, once for each cthread.
-/

namespace MachFormal.Threads.ForkChild

open MachFormal.Library

/-- Where `cthread_body` is with a cthread: in the queue; taken from it, but not yet associated;
in its function; `T_RETURNED` is set, or `T_DETACHED` was found; about to be dissociated. -/
inductive Stage where
  | none
  | queued
  | taken
  | user
  | marked
  | free
  | leave
  | exited
  deriving DecidableEq, Repr

/-- The call of `cthread_join` or `cthread_detach` for a cthread. -/
inductive Client where
  | none
  | detached
  | freeing
  | freed
  deriving DecidableEq, Repr

inductive Cproc where
  | idle
  | serving (t : Nat)
  | account
  deriving DecidableEq, Repr

/-- The variables of `cthreads.c` and `cprocs.c`.  `allocated` is what `malloc` has returned for
cprocs and descriptors, `freed t` says that the descriptor of `t` was put on `free_cthreads`. -/
structure State where
  cprocs : List Nat
  pc : Nat → Cproc
  incarnation : Nat → Option Nat
  threads : Nat
  stage : Nat → Stage
  client : Nat → Client
  desc : Nat → Nat
  freed : Nat → Bool
  returned : Nat → Bool
  detached : Nat → Bool
  queue : List Nat
  free : List Nat
  allocated : List Nat
  lock : Option Nat
  freeLock : Option Nat
  nCprocs : Int
  nCthreads : Int
  maxCprocs : Int

/-- `cthread_init`: the main thread is cthread 0. -/
def cthreadInit (p d : Nat) : State where
  cprocs := [p]
  pc := fun _ => .serving 0
  incarnation := fun _ => some d
  threads := 1
  stage := fun t => if t = 0 then .user else .none
  client := fun _ => .none
  desc := fun _ => d
  freed := fun _ => false
  returned := fun _ => false
  detached := fun _ => false
  queue := []
  free := []
  allocated := [p, d]
  lock := none
  freeLock := none
  nCprocs := 1
  nCthreads := 1
  maxCprocs := 0

def State.goto (s : State) (p : Nat) (pc : Cproc) : State :=
  { s with pc := Function.update s.pc p pc }

def State.setStage (s : State) (t : Nat) (stage : Stage) : State :=
  { s with stage := Function.update s.stage t stage }

def State.setClient (s : State) (t : Nat) (client : Client) : State :=
  { s with client := Function.update s.client t client }

/-- `cthread_free`. -/
def State.release (s : State) (t : Nat) : State :=
  { s with free := s.desc t :: s.free, freed := Function.update s.freed t true }

/-- `cthread_alloc`, from the free list or else from `malloc`, which returns `address`. -/
def cthreadAlloc (s : State) (address : Nat) : Option (Nat × State) :=
  match s.free with
  | d :: rest => some (d, { s with free := rest })
  | [] =>
      if address ∈ s.allocated then none
      else some (address, { s with allocated := address :: s.allocated })

/-- `cproc_create`: a new cproc at the front of the list. -/
def cprocCreate (s : State) (address : Nat) : Option State :=
  if address ∈ s.allocated then none
  else some ({ s with
    cprocs := address :: s.cprocs
    incarnation := Function.update s.incarnation address none
    allocated := address :: s.allocated
    nCprocs := s.nCprocs + 1 }.goto address .idle)

/-- The new cthread is initialised and queued. -/
def enqueue (s : State) (d : Nat) : State :=
  { s with
    threads := s.threads + 1
    desc := Function.update s.desc s.threads d
    returned := Function.update s.returned d false
    detached := Function.update s.detached d false
    queue := s.queue ++ [s.threads]
    nCthreads := s.nCthreads + 1 }.setStage s.threads .queued

def cthreadFork (s : State) (address child : Nat) : Option State :=
  (cthreadAlloc s address).bind fun (d, s) =>
    let s := enqueue s d
    if s.nCthreads > s.nCprocs ∧ (s.maxCprocs = 0 ∨ s.nCprocs < s.maxCprocs) then
      cprocCreate s child
    else some s

/-- The end of a cthread in `cthread_body`, with the cthread's own lock held.  The main thread
does not come here: it calls `exit`. -/
def mark (s : State) (t : Nat) : State :=
  if s.detached (s.desc t) then s.setStage t .free
  else { s with returned := Function.update s.returned (s.desc t) true }.setStage t .marked

/-- The next step of `cthread_body`. -/
def advance (s : State) (p : Nat) : Option State :=
  match s.pc p with
  | .idle =>
      match s.lock, s.queue with
      | none, t :: rest => some (({ s with queue := rest }.goto p (.serving t)).setStage t .taken)
      | _, _ => none
  | .account =>
      if s.lock = none then some ({ s with nCthreads := s.nCthreads - 1 }.goto p .idle) else none
  | .serving t =>
      match s.stage t with
      | .taken =>
          some ({ s with
            incarnation := Function.update s.incarnation p (some (s.desc t)) }.setStage t .user)
      | .marked => some (s.setStage t .leave)
      | .free => if s.freeLock = none then some ((s.release t).setStage t .leave) else none
      | .leave =>
          some (({ s with incarnation := Function.update s.incarnation p none }.goto p
            .account).setStage t .exited)
      | _ => none

/-- The cproc runs the function of cthread `t`. -/
def inUser (s : State) (p t : Nat) : Bool :=
  p ∈ s.cprocs ∧ s.lock ≠ some p ∧ s.pc p = .serving t ∧ s.stage t = .user

inductive Label where
  | fork (p t address child : Nat)
  | setLimit (n : Int)
  | finish (p t : Nat)
  | next (p : Nat)
  | join (t : Nat)
  | detach (t : Nat)
  | release (t : Nat)
  | lock (p t : Nat)
  | freeLock (p : Nat)
  deriving DecidableEq, Repr

/-- One step of the parent; `lock` and `freeLock` are `cthread_fork_prepare`. -/
def step (s : State) : Label → Option State
  | .fork p t address child =>
      if inUser s p t ∧ s.lock = none ∧ s.freeLock = none then cthreadFork s address child
      else none
  | .setLimit n => some { s with maxCprocs := n }
  | .finish p t => if inUser s p t ∧ t ≠ 0 then some (mark s t) else none
  | .next p => if p ∈ s.cprocs then advance s p else none
  | .join t =>
      if s.stage t ≠ .none ∧ s.client t = .none ∧ s.returned (s.desc t) = true then
        some (s.setClient t .freeing)
      else none
  | .detach t =>
      if s.stage t ≠ .none ∧ s.client t = .none then
        if s.returned (s.desc t) then some (s.setClient t .freeing)
        else some ({ s with detached := Function.update s.detached (s.desc t) true }.setClient t
          .detached)
      else none
  | .release t =>
      if s.client t = .freeing ∧ s.freeLock = none then
        some ((s.release t).setClient t .freed)
      else none
  | .lock p t =>
      if inUser s p t ∧ s.lock = none then some { s with lock := some p } else none
  | .freeLock p =>
      if s.lock = some p ∧ s.freeLock = none then some { s with freeLock := some p } else none

def machine : Machine State Label where
  init s := ∃ p d, p ≠ d ∧ s = cthreadInit p d
  step := step

/-! ## The child -/

/-- What `cthread_fork_child` changes; `freed` is what was passed to `free`, in order, and `main`
the descriptor that becomes the one of the main thread. -/
structure Child where
  cprocs : List Nat
  queue : List Nat
  free : List Nat
  freed : List Nat
  main : Option Nat
  nCprocs : Int
  nCthreads : Int
  maxCprocs : Int
  deriving DecidableEq, Repr

/-- The loop of `cproc_fork_child` over the list of cprocs. -/
def cprocForkChild (incarnation : Nat → Option Nat) (self : Nat) : List Nat → Child → Child
  | [], child => child
  | p :: rest, child =>
      if self = p then cprocForkChild incarnation self rest { child with cprocs := [p] }
      else cprocForkChild incarnation self rest
        { child with freed := child.freed ++ (incarnation p).toList ++ [p] }

/-- The loop that frees the queue of cthreads. -/
def freeQueue (desc : Nat → Nat) : List Nat → Child → Child
  | [], child => { child with queue := [] }
  | t :: rest, child =>
      freeQueue desc rest { child with queue := rest, freed := child.freed ++ [desc t] }

/-- The loop that frees `free_cthreads`. -/
def freeFree : List Nat → Child → Child
  | [], child => { child with free := [] }
  | d :: rest, child => freeFree rest { child with free := rest, freed := child.freed ++ [d] }

/-- `cthread_fork_child` in the child of `self`. -/
def cthreadForkChild (s : State) (self : Nat) : Child :=
  let child : Child := ⟨s.cprocs, s.queue, s.free, [], none, s.nCprocs, s.nCthreads, 0⟩
  let child := cprocForkChild s.incarnation self s.cprocs child
  let child := freeQueue s.desc child.queue child
  let child := freeFree child.free child
  { child with main := s.incarnation self, nCprocs := 1, nCthreads := 1 }

/-- `cthread_fork_prepare` has obtained its locks. -/
def Prepared (s : State) (self : Nat) : Prop :=
  s.lock = some self ∧ s.freeLock = some self

/-- The child frees every block at most once, every other cproc, and nothing of the caller, and
is left with one cproc and one cthread. -/
structure CleanChild (s : State) (caller : Nat) : Prop where
  once : (cthreadForkChild s caller).freed.Nodup
  keepsSelf : caller ∉ (cthreadForkChild s caller).freed
  keepsOwn : ∀ d, s.incarnation caller = some d → d ∉ (cthreadForkChild s caller).freed
  others : ∀ p ∈ s.cprocs, p ≠ caller → p ∈ (cthreadForkChild s caller).freed
  alone : (cthreadForkChild s caller).cprocs = [caller]
  queue : (cthreadForkChild s caller).queue = []
  free : (cthreadForkChild s caller).free = []
  nCprocs : (cthreadForkChild s caller).nCprocs = 1
  nCthreads : (cthreadForkChild s caller).nCthreads = 1

/-- The cproc is in `cthread_body`, its cthread's descriptor was put on `free_cthreads`, and
`cthread_assoc(self, NO_CTHREAD)` has not been reached. -/
def Stale (s : State) (p : Nat) : Prop :=
  ∃ t, s.pc p = .serving t ∧ s.freed t = true

/-! ## The invariant of the parent -/

/-- The cthread has ended: `T_RETURNED` is set, or its descriptor was freed. -/
@[simp, grind =] def Stage.late : Stage → Bool
  | .marked | .leave | .exited => true
  | _ => false

/-- A cproc has taken the cthread. -/
@[simp, grind =] def Stage.served : Stage → Bool
  | .taken | .user | .marked | .free | .leave => true
  | _ => false

/-- The cproc that has taken the cthread is incarnated in it. -/
@[simp, grind =] def Stage.incarnate : Stage → Bool
  | .user | .marked | .free | .leave => true
  | _ => false

/-- The two bits of a descriptor in use, and who will free it. -/
structure Agree (stage : Stage) (client : Client) (returned detached : Bool) : Prop where
  returned : returned = stage.late
  detached : detached = true ↔ client = .detached
  bodyFrees : stage = .free → client = .detached
  clientFrees : client = .freeing → stage.late = true
  apart : stage.late = true → client ≠ .detached
  unfreed : client ≠ .freed

/-- Nobody will free the descriptor again. -/
def Ended (stage : Stage) (client : Client) : Prop :=
  stage.late = true ∧ (client = .freed ∨ client = .detached)

def Live (s : State) (t : Nat) : Prop :=
  s.stage t ≠ .none ∧ s.freed t = false

/-- What `p->incarnation` is. -/
def incarnationOf (s : State) (p : Nat) : Option Nat :=
  match s.pc p with
  | .serving t => if (s.stage t).incarnate then some (s.desc t) else none
  | _ => none

structure Inv (s : State) : Prop where
  cprocsNodup : s.cprocs.Nodup
  freeNodup : s.free.Nodup
  queueNodup : s.queue.Nodup
  cprocsAllocated : ∀ p ∈ s.cprocs, p ∈ s.allocated
  freeAllocated : ∀ d ∈ s.free, d ∈ s.allocated ∧ d ∉ s.cprocs
  known : ∀ t, s.threads ≤ t → s.stage t = .none
  owned : ∀ t, Live s t → s.desc t ∈ s.allocated ∧ s.desc t ∉ s.cprocs ∧ s.desc t ∉ s.free
  distinct : ∀ t u, Live s t → Live s u → s.desc t = s.desc u → t = u
  queued : ∀ t, t ∈ s.queue ↔ s.stage t = .queued
  serving : ∀ p ∈ s.cprocs, ∀ t, s.pc p = .serving t → (s.stage t).served = true
  single : ∀ p ∈ s.cprocs, ∀ q ∈ s.cprocs, ∀ t, s.pc p = .serving t → s.pc q = .serving t → p = q
  incarnated : ∀ p ∈ s.cprocs, s.incarnation p = incarnationOf s p
  agree : ∀ t, Live s t →
    Agree (s.stage t) (s.client t) (s.returned (s.desc t)) (s.detached (s.desc t))
  ended : ∀ t, s.freed t = true → Ended (s.stage t) (s.client t)
  uncalled : ∀ t, s.stage t = .none → s.client t = .none ∧ s.freed t = false
  locked : ∀ p, s.lock = some p → p ∈ s.cprocs ∧ ∃ t, s.pc p = .serving t ∧ s.stage t = .user

/-- Only cthread `t` and its descriptor change. -/
structure Frame (s s' : State) (t : Nat) : Prop where
  stage : ∀ u, u ≠ t → s'.stage u = s.stage u
  client : ∀ u, u ≠ t → s'.client u = s.client u
  freed : ∀ u, u ≠ t → s'.freed u = s.freed u
  returned : ∀ d, d ≠ s.desc t → s'.returned d = s.returned d
  detached : ∀ d, d ≠ s.desc t → s'.detached d = s.detached d
  cprocs : s'.cprocs = s.cprocs
  pc : s'.pc = s.pc
  incarnation : s'.incarnation = s.incarnation
  threads : s'.threads = s.threads
  desc : s'.desc = s.desc
  queue : s'.queue = s.queue
  allocated : s'.allocated = s.allocated
  lock : s'.lock = s.lock

section Steps

variable {s s' : State} {t : Nat}

theorem Frame.live_iff (hframe : Frame s s' t) {u : Nat} (hne : u ≠ t) : Live s' u ↔ Live s u := by
  rw [Live, Live, hframe.stage u hne, hframe.freed u hne]

theorem Inv.agree_frame (h : Inv s) (hframe : Frame s s' t) {u : Nat}
    (hkeep : Live s t ∨ (s'.returned = s.returned ∧ s'.detached = s.detached))
    (hne : u ≠ t) (hu : Live s u) :
    Agree (s'.stage u) (s'.client u) (s'.returned (s'.desc u)) (s'.detached (s'.desc u)) := by
  have hagree := h.agree u hu
  rw [hframe.desc, hframe.stage u hne, hframe.client u hne]
  rcases hkeep with hlive | ⟨hreturned, hdetached⟩
  · have hdesc : s.desc u ≠ s.desc t := fun heq => hne (h.distinct u t hu hlive heq)
    rw [hframe.returned _ hdesc, hframe.detached _ hdesc]
    exact hagree
  · rw [hreturned, hdetached]
    exact hagree

/-- A step that changes cthread `t` and its descriptor, and may free the descriptor. -/
structure Revision (s s' : State) (t : Nat) : Prop extends Frame s s' t where
  known : s.stage t ≠ .none
  keeps : Live s t ∨ (s'.returned = s.returned ∧ s'.detached = s.detached)
  own : s'.stage t = s.stage t ∨ ((s.stage t).incarnate = true ∧
    (s'.stage t).incarnate = true ∧ ∀ p, s.lock = some p → s.pc p ≠ .serving t)
  frees : (s'.freed t = s.freed t ∧ s'.free = s.free) ∨
    (Live s t ∧ s'.freed t = true ∧ s'.free = s.desc t :: s.free)
  agree : s'.freed t = false →
    Agree (s'.stage t) (s'.client t) (s'.returned (s'.desc t)) (s'.detached (s'.desc t))
  ended : s'.freed t = true → Ended (s'.stage t) (s'.client t)

section Revisions

variable (h : Inv s) (hrev : Revision s s' t) {u : Nat}
include hrev

theorem Revision.same (u : Nat) : s'.stage u = s.stage u ∨
    ((s.stage u).incarnate = true ∧ (s'.stage u).incarnate = true) := by
  by_cases hut : u = t
  · subst hut
    rcases hrev.own with heq | ⟨hold, hnew, -⟩
    · exact Or.inl heq
    · exact Or.inr ⟨hold, hnew⟩
  · exact Or.inl (hrev.stage u hut)

theorem Revision.live (hu : Live s' u) : Live s u := by
  by_cases hut : u = t
  · subst hut
    refine ⟨hrev.known, ?_⟩
    rcases hrev.frees with ⟨hfreed, -⟩ | ⟨hlive, -, -⟩
    · exact hfreed ▸ hu.2
    · exact hlive.2
  · exact (hrev.toFrame.live_iff hut).mp hu

theorem Revision.grows {d : Nat} (hd : d ∈ s'.free) :
    d ∈ s.free ∨ (d = s.desc t ∧ Live s t ∧ s'.freed t = true) := by
  rcases hrev.frees with ⟨-, heq⟩ | ⟨hlive, hfreed, heq⟩
  · exact Or.inl (heq ▸ hd)
  · rw [heq] at hd
    rcases List.mem_cons.mp hd with rfl | hd
    · exact Or.inr ⟨rfl, hlive, hfreed⟩
    · exact Or.inl hd

include h

theorem Inv.revise_free : s'.free.Nodup ∧ ∀ d ∈ s'.free, d ∈ s'.allocated ∧ d ∉ s'.cprocs := by
  refine ⟨?_, fun d hd => ?_⟩
  · rcases hrev.frees with ⟨-, heq⟩ | ⟨hlive, -, heq⟩
    · exact heq ▸ h.freeNodup
    · rw [heq]
      exact List.nodup_cons.mpr ⟨(h.owned t hlive).2.2, h.freeNodup⟩
  · rw [hrev.cprocs, hrev.allocated]
    rcases hrev.grows hd with hd | ⟨rfl, hlive, -⟩
    · exact h.freeAllocated d hd
    · exact ⟨(h.owned t hlive).1, (h.owned t hlive).2.1⟩

theorem Inv.revise_owned (hu : Live s' u) :
    s'.desc u ∈ s'.allocated ∧ s'.desc u ∉ s'.cprocs ∧ s'.desc u ∉ s'.free := by
  obtain ⟨hin, hcproc, hnot⟩ := h.owned u (hrev.live hu)
  rw [hrev.desc, hrev.allocated, hrev.cprocs]
  refine ⟨hin, hcproc, fun hd => ?_⟩
  rcases hrev.grows hd with hd | ⟨heq, ht, hfreed⟩
  · exact hnot hd
  · have hut := h.distinct u t (hrev.live hu) ht heq
    rw [hut, Live, hfreed] at hu
    cases hu.2

theorem Inv.revise_queued (u : Nat) : u ∈ s'.queue ↔ s'.stage u = .queued := by
  rw [hrev.queue, h.queued u]
  rcases hrev.same u with heq | ⟨hold, hnew⟩
  · rw [heq]
  · constructor <;> intro heq
    · rw [heq] at hold
      cases hold
    · rw [heq] at hnew
      cases hnew

theorem Inv.revise_served {p : Nat} (hp : p ∈ s.cprocs) (hpc : s.pc p = .serving u) :
    (s'.stage u).served = true := by
  rcases hrev.same u with heq | ⟨-, hnew⟩
  · rw [heq]
    exact h.serving p hp u hpc
  · cases hst : s'.stage u <;> simp_all

theorem Inv.revise_incarnated {p : Nat} (hp : p ∈ s.cprocs) :
    s'.incarnation p = incarnationOf s' p := by
  rw [hrev.incarnation, h.incarnated p hp, incarnationOf, incarnationOf, hrev.pc, hrev.desc]
  cases hpc : s.pc p with
  | idle | account => rfl
  | serving u =>
      rcases hrev.same u with heq | ⟨hold, hnew⟩
      · simp only [heq]
      · simp only [hold, hnew]

theorem Inv.revise_uncalled (hu : s'.stage u = .none) :
    s'.client u = .none ∧ s'.freed u = false := by
  have hut : u ≠ t := by
    rintro rfl
    rcases hrev.own with heq | ⟨-, hnew, -⟩
    · exact hrev.known (heq ▸ hu)
    · rw [hu] at hnew
      cases hnew
  rw [hrev.stage u hut] at hu
  rw [hrev.client u hut, hrev.freed u hut]
  exact h.uncalled u hu

theorem Inv.revise_locked {p : Nat} (hlock : s.lock = some p) :
    p ∈ s.cprocs ∧ ∃ u, s.pc p = .serving u ∧ s'.stage u = .user := by
  obtain ⟨hp, u, hpc, huser⟩ := h.locked p hlock
  refine ⟨hp, u, hpc, ?_⟩
  by_cases hut : u = t
  · subst hut
    rcases hrev.own with heq | ⟨-, -, hnot⟩
    · exact heq.trans huser
    · exact absurd hpc (hnot p hlock)
  · rw [hrev.stage u hut]
    exact huser

theorem Inv.revise : Inv s' := by
  refine ⟨hrev.cprocs ▸ h.cprocsNodup, (h.revise_free hrev).1, hrev.queue ▸ h.queueNodup, ?_,
    (h.revise_free hrev).2, ?_, fun u hu => h.revise_owned hrev hu, ?_, h.revise_queued hrev, ?_,
    ?_, ?_, ?_, ?_, fun u hu => h.revise_uncalled hrev hu, ?_⟩
  · rw [hrev.cprocs, hrev.allocated]
    exact h.cprocsAllocated
  · intro u hu
    rw [hrev.threads] at hu
    have hnone := h.known u hu
    have hut : u ≠ t := by
      rintro rfl
      exact hrev.known hnone
    rw [hrev.stage u hut]
    exact hnone
  · intro u v hu hv
    rw [hrev.desc]
    exact h.distinct u v (hrev.live hu) (hrev.live hv)
  · intro p hp u hpc
    rw [hrev.cprocs] at hp
    rw [hrev.pc] at hpc
    exact h.revise_served hrev hp hpc
  · rw [hrev.cprocs, hrev.pc]
    exact h.single
  · intro p hp
    rw [hrev.cprocs] at hp
    exact h.revise_incarnated hrev hp
  · intro u hu
    by_cases hut : u = t
    · subst hut
      exact hrev.agree hu.2
    · exact h.agree_frame hrev.toFrame hrev.keeps hut (hrev.live hu)
  · intro u hu
    by_cases hut : u = t
    · subst hut
      exact hrev.ended hu
    · rw [hrev.freed u hut] at hu
      rw [hrev.stage u hut, hrev.client u hut]
      exact h.ended u hu
  · intro p hlock
    rw [hrev.lock] at hlock
    rw [hrev.cprocs, hrev.pc]
    exact h.revise_locked hrev hlock

end Revisions

/-- A step that moves cproc `p`, which is not in the function of a cthread, together with the
cthread `t` that it takes, has taken or leaves. -/
structure Turn (s s' : State) (p t : Nat) : Prop where
  stage : ∀ u, u ≠ t → s'.stage u = s.stage u
  pc : ∀ q, q ≠ p → s'.pc q = s.pc q
  incarnation : ∀ q, q ≠ p → s'.incarnation q = s.incarnation q
  same : s'.cprocs = s.cprocs ∧ s'.threads = s.threads ∧ s'.client = s.client ∧
    s'.desc = s.desc ∧ s'.freed = s.freed ∧ s'.returned = s.returned ∧
    s'.detached = s.detached ∧ s'.free = s.free ∧ s'.allocated = s.allocated ∧ s'.lock = s.lock

theorem Inv.turn {p : Nat} (h : Inv s) (hturn : Turn s s' p t) (hp : p ∈ s.cprocs)
    (hknown : s.stage t ≠ .none ∧ s'.stage t ≠ .none) (hunlocked : s.lock ≠ some p)
    (hothers : ∀ q ∈ s.cprocs, q ≠ p → s.pc q ≠ .serving t)
    (hqueue : s'.queue.Nodup ∧ ∀ u, u ∈ s'.queue ↔ s'.stage u = .queued)
    (hserving : ∀ u, s'.pc p = .serving u → u = t ∧ (s'.stage t).served = true)
    (hincarnated : s'.incarnation p = incarnationOf s' p)
    (hagree : Live s t → Agree (s'.stage t) (s.client t) (s.returned (s.desc t))
      (s.detached (s.desc t)))
    (hended : s.freed t = true → Ended (s'.stage t) (s.client t)) : Inv s' := by
  obtain ⟨hcprocs, hthreads, hclient, hdesc, hfreed, hreturned, hdetached, hfree, hallocated,
    hlock⟩ := hturn.same
  have hlive : ∀ u, Live s' u ↔ Live s u := by
    intro u
    rw [Live, Live, hfreed]
    by_cases hut : u = t
    · subst hut
      exact and_congr_left' (iff_of_true hknown.2 hknown.1)
    · rw [hturn.stage u hut]
  have hother : ∀ q ∈ s.cprocs, q ≠ p → ∀ u, s.pc q = .serving u → s'.stage u = s.stage u := by
    intro q hq hne u hpc
    refine hturn.stage u ?_
    rintro rfl
    exact hothers q hq hne hpc
  refine ⟨hcprocs ▸ h.cprocsNodup, hfree ▸ h.freeNodup, hqueue.1, ?_, ?_, ?_, ?_, ?_, hqueue.2, ?_,
    ?_, ?_, ?_, ?_, ?_, ?_⟩
  · rw [hcprocs, hallocated]
    exact h.cprocsAllocated
  · rw [hfree, hallocated, hcprocs]
    exact h.freeAllocated
  · intro u hu
    rw [hthreads] at hu
    have hnone := h.known u hu
    have hut : u ≠ t := by
      rintro rfl
      exact hknown.1 hnone
    rw [hturn.stage u hut]
    exact hnone
  · intro u hu
    rw [hdesc, hallocated, hcprocs, hfree]
    exact h.owned u ((hlive u).mp hu)
  · intro u v hu hv
    rw [hdesc]
    exact h.distinct u v ((hlive u).mp hu) ((hlive v).mp hv)
  · intro q hq u hpc
    rw [hcprocs] at hq
    by_cases hqp : q = p
    · subst hqp
      obtain ⟨rfl, hserved⟩ := hserving u hpc
      exact hserved
    · rw [hturn.pc q hqp] at hpc
      rw [hother q hq hqp u hpc]
      exact h.serving q hq u hpc
  · intro q hq r hr u hqpc hrpc
    rw [hcprocs] at hq hr
    by_cases hqp : q = p <;> by_cases hrp : r = p
    · rw [hqp, hrp]
    · subst hqp
      obtain ⟨rfl, -⟩ := hserving u hqpc
      rw [hturn.pc r hrp] at hrpc
      exact absurd hrpc (hothers r hr hrp)
    · subst hrp
      obtain ⟨rfl, -⟩ := hserving u hrpc
      rw [hturn.pc q hqp] at hqpc
      exact absurd hqpc (hothers q hq hqp)
    · rw [hturn.pc q hqp] at hqpc
      rw [hturn.pc r hrp] at hrpc
      exact h.single q hq r hr u hqpc hrpc
  · intro q hq
    rw [hcprocs] at hq
    by_cases hqp : q = p
    · subst hqp
      exact hincarnated
    · rw [hturn.incarnation q hqp, h.incarnated q hq, incarnationOf, incarnationOf,
        hturn.pc q hqp, hdesc]
      cases hpc : s.pc q with
      | idle | account => rfl
      | serving u => simp only [hother q hq hqp u hpc]
  · intro u hu
    have hu := (hlive u).mp hu
    rw [hclient, hreturned, hdetached, hdesc]
    by_cases hut : u = t
    · subst hut
      exact hagree hu
    · rw [hturn.stage u hut]
      exact h.agree u hu
  · intro u hu
    rw [hfreed] at hu
    rw [hclient]
    by_cases hut : u = t
    · subst hut
      exact hended hu
    · rw [hturn.stage u hut]
      exact h.ended u hu
  · intro u hu
    have hut : u ≠ t := by
      rintro rfl
      exact hknown.2 hu
    rw [hturn.stage u hut] at hu
    rw [hclient, hfreed]
    exact h.uncalled u hu
  · intro q hq
    rw [hlock] at hq
    obtain ⟨hin, u, hpc, huser⟩ := h.locked q hq
    have hqp : q ≠ p := by
      rintro rfl
      exact hunlocked hq
    rw [hcprocs, hturn.pc q hqp]
    refine ⟨hin, u, hpc, ?_⟩
    rw [hother q hin hqp u hpc]
    exact huser

/-- A cproc that does not run the function of a cthread is not in `cthread_fork_prepare`. -/
theorem Inv.unlocked {p : Nat} (h : Inv s) (hpc : ∀ t, s.pc p = .serving t → s.stage t ≠ .user) :
    s.lock ≠ some p := by
  intro hlock
  obtain ⟨-, t, hserving, huser⟩ := h.locked p hlock
  exact hpc t hserving huser

/-- Whoever holds `cthread_lock` for `cthread_fork_prepare` is in the function of its cthread. -/
theorem Inv.holder_ne (h : Inv s) (hstage : s.stage t ≠ .user) :
    ∀ q, s.lock = some q → s.pc q ≠ .serving t := by
  intro q hq hserving
  obtain ⟨-, u, hu, huser⟩ := h.locked q hq
  rw [hserving] at hu
  cases hu
  exact hstage huser

theorem Inv.unfreed_of_early (h : Inv s) (hearly : (s.stage t).late = false) :
    s.freed t = false := by
  rw [Bool.eq_false_iff]
  intro hfreed
  rw [(h.ended t hfreed).1] at hearly
  cases hearly

theorem Inv.unfreed_of_uncalled (h : Inv s) (hnone : s.client t = .none) : s.freed t = false := by
  rw [Bool.eq_false_iff]
  intro hfreed
  have hended := (h.ended t hfreed).2
  rw [hnone] at hended
  rcases hended with heq | heq <;> cases heq

theorem Inv.dequeue {p : Nat} {rest : List Nat} (h : Inv s) (hp : p ∈ s.cprocs)
    (hpc : s.pc p = .idle) (hlock : s.lock = none) (hqueue : s.queue = t :: rest) :
    Inv (({ s with queue := rest }.goto p (.serving t)).setStage t .taken) := by
  set s' := ({ s with queue := rest }.goto p (.serving t)).setStage t .taken
  have hstage : s.stage t = .queued := (h.queued t).mp (by rw [hqueue]; exact List.mem_cons_self)
  have hnodup := h.queueNodup
  rw [hqueue] at hnodup
  obtain ⟨hhead, htail⟩ := List.nodup_cons.mp hnodup
  have hself : s'.stage t = .taken := Function.update_self _ _ _
  have hpcSelf : s'.pc p = .serving t := Function.update_self _ _ _
  refine @Inv.turn s s' t p h ⟨fun u hne => Function.update_of_ne hne _ _,
    fun q hne => Function.update_of_ne hne _ _, fun _ _ => rfl,
    ⟨rfl, rfl, rfl, rfl, rfl, rfl, rfl, rfl, rfl, rfl⟩⟩ hp ⟨?_, ?_⟩ ?_ ?_ ⟨htail, ?_⟩ ?_ ?_ ?_ ?_
  · rw [hstage]
    exact nofun
  · rw [hself]
    exact nofun
  · rw [hlock]
    exact nofun
  · intro q hq _ hserving
    have hserved := h.serving q hq t hserving
    rw [hstage] at hserved
    cases hserved
  · intro u
    by_cases hut : u = t
    · subst hut
      rw [hself]
      exact iff_of_false hhead nofun
    · have hmem : u ∈ rest ↔ u ∈ s.queue := by
        rw [hqueue, List.mem_cons, or_iff_right hut]
      have hsame : s'.stage u = s.stage u := Function.update_of_ne hut _ _
      rw [hsame, ← h.queued u]
      exact hmem
  · intro u hu
    rw [hpcSelf] at hu
    cases hu
    rw [hself]
    exact ⟨rfl, rfl⟩
  · have hnone := h.incarnated p hp
    rw [incarnationOf, hpc] at hnone
    rw [incarnationOf, hpcSelf]
    simp only [hself, Stage.incarnate]
    exact hnone
  · intro hlive
    have hagree := h.agree t hlive
    rw [hstage] at hagree
    rw [hself]
    exact { hagree with bodyFrees := nofun }
  · intro hfreed
    have hlate := (h.ended t hfreed).1
    rw [hstage] at hlate
    cases hlate

theorem Inv.associate {p : Nat} (h : Inv s) (hp : p ∈ s.cprocs) (hpc : s.pc p = .serving t)
    (hstage : s.stage t = .taken) :
    Inv ({ s with
      incarnation := Function.update s.incarnation p (some (s.desc t)) }.setStage t .user) := by
  set s' := { s with
      incarnation := Function.update s.incarnation p (some (s.desc t)) }.setStage t .user
  have hself : s'.stage t = .user := Function.update_self _ _ _
  refine @Inv.turn s s' t p h ⟨fun u hne => Function.update_of_ne hne _ _, fun _ _ => rfl,
    fun q hne => Function.update_of_ne hne _ _, ⟨rfl, rfl, rfl, rfl, rfl, rfl, rfl, rfl, rfl, rfl⟩⟩
    hp ⟨?_, ?_⟩ ?_ ?_ ⟨h.queueNodup, ?_⟩ ?_ ?_ ?_ ?_
  · rw [hstage]
    exact nofun
  · rw [hself]
    exact nofun
  · refine h.unlocked (fun u hu huser => ?_)
    rw [hpc] at hu
    cases hu
    rw [hstage] at huser
    cases huser
  · intro q hq hne hserving
    exact hne (h.single q hq p hp t hserving hpc)
  · intro u
    by_cases hut : u = t
    · subst hut
      rw [hself]
      refine iff_of_false (fun hin => ?_) nofun
      cases hstage.symm.trans ((h.queued u).mp hin)
    · have hsame : s'.stage u = s.stage u := Function.update_of_ne hut _ _
      rw [hsame]
      exact h.queued u
  · intro u hu
    have hu : s.pc p = .serving u := hu
    rw [hpc] at hu
    cases hu
    rw [hself]
    exact ⟨rfl, rfl⟩
  · have hpcSame : s'.pc p = .serving t := hpc
    rw [incarnationOf, hpcSame]
    simp only [hself, Stage.incarnate, if_true]
    exact Function.update_self _ _ _
  · intro hlive
    have hagree := h.agree t hlive
    rw [hstage] at hagree
    rw [hself]
    exact { hagree with bodyFrees := nofun }
  · intro hfreed
    have hlate := (h.ended t hfreed).1
    rw [hstage] at hlate
    cases hlate

theorem Inv.dissociate {p : Nat} (h : Inv s) (hp : p ∈ s.cprocs) (hpc : s.pc p = .serving t)
    (hstage : s.stage t = .leave) :
    Inv (({ s with incarnation := Function.update s.incarnation p none }.goto p .account).setStage
      t .exited) := by
  set s' := ({ s with incarnation := Function.update s.incarnation p none }.goto p
    .account).setStage t .exited
  have hself : s'.stage t = .exited := Function.update_self _ _ _
  have hpcSelf : s'.pc p = .account := Function.update_self _ _ _
  refine @Inv.turn s s' t p h ⟨fun u hne => Function.update_of_ne hne _ _,
    fun q hne => Function.update_of_ne hne _ _, fun q hne => Function.update_of_ne hne _ _,
    ⟨rfl, rfl, rfl, rfl, rfl, rfl, rfl, rfl, rfl, rfl⟩⟩
    hp ⟨?_, ?_⟩ ?_ ?_ ⟨h.queueNodup, ?_⟩ ?_ ?_ ?_ ?_
  · rw [hstage]
    exact nofun
  · rw [hself]
    exact nofun
  · refine h.unlocked (fun u hu huser => ?_)
    rw [hpc] at hu
    cases hu
    rw [hstage] at huser
    cases huser
  · intro q hq hne hserving
    exact hne (h.single q hq p hp t hserving hpc)
  · intro u
    by_cases hut : u = t
    · subst hut
      rw [hself]
      refine iff_of_false (fun hin => ?_) nofun
      cases hstage.symm.trans ((h.queued u).mp hin)
    · have hsame : s'.stage u = s.stage u := Function.update_of_ne hut _ _
      rw [hsame]
      exact h.queued u
  · intro u hu
    rw [hpcSelf] at hu
    cases hu
  · rw [incarnationOf, hpcSelf]
    exact Function.update_self _ _ _
  · intro hlive
    have hagree := h.agree t hlive
    rw [hstage] at hagree
    rw [hself]
    exact { hagree with bodyFrees := nofun }
  · intro hfreed
    have hended := h.ended t hfreed
    rw [hstage] at hended
    rw [hself]
    exact hended

theorem Inv.account {p : Nat} {n : Int} (h : Inv s) (hp : p ∈ s.cprocs) (hpc : s.pc p = .account) :
    Inv ({ s with nCthreads := n }.goto p .idle) := by
  set s' := ({ s with nCthreads := n }.goto p .idle)
  have hself : s'.pc p = .idle := Function.update_self _ _ _
  have hother : ∀ q, q ≠ p → s'.pc q = s.pc q := fun q hne => Function.update_of_ne hne _ _
  have hserving : ∀ q t, s'.pc q = .serving t → s.pc q = .serving t := by
    intro q t hq
    by_cases hqp : q = p
    · rw [hqp, hself] at hq
      cases hq
    · exact hother q hqp ▸ hq
  refine ⟨h.cprocsNodup, h.freeNodup, h.queueNodup, h.cprocsAllocated, h.freeAllocated, h.known,
    h.owned, h.distinct, h.queued, fun q hq t ht => h.serving q hq t (hserving q t ht),
    fun q hq r hr t hqt hrt => h.single q hq r hr t (hserving q t hqt) (hserving r t hrt), ?_,
    h.agree, h.ended, h.uncalled, ?_⟩
  · intro q hq
    by_cases hqp : q = p
    · have hnone := h.incarnated p hp
      rw [incarnationOf, hpc] at hnone
      rw [hqp, incarnationOf, hself]
      exact hnone
    · rw [incarnationOf, hother q hqp]
      exact h.incarnated q hq
  · intro q hq
    obtain ⟨hin, t, ht, huser⟩ := h.locked q hq
    have hqp : q ≠ p := by
      rintro rfl
      rw [hpc] at ht
      cases ht
    exact ⟨hin, t, (hother q hqp).trans ht, huser⟩

theorem frame_setStage (s : State) (t : Nat) (stage : Stage) : Frame s (s.setStage t stage) t :=
  ⟨fun _ hne => Function.update_of_ne hne _ _, fun _ _ => rfl, fun _ _ => rfl, fun _ _ => rfl,
    fun _ _ => rfl, rfl, rfl, rfl, rfl, rfl, rfl, rfl, rfl⟩

theorem frame_setClient (s : State) (t : Nat) (client : Client) :
    Frame s (s.setClient t client) t :=
  ⟨fun _ _ => rfl, fun _ hne => Function.update_of_ne hne _ _, fun _ _ => rfl, fun _ _ => rfl,
    fun _ _ => rfl, rfl, rfl, rfl, rfl, rfl, rfl, rfl, rfl⟩

/-- `condition_signal(&t->done)` is done; the descriptor may have been freed meanwhile. -/
theorem Inv.signalled (h : Inv s) (hstage : s.stage t = .marked) : Inv (s.setStage t .leave) := by
  have hself : (s.setStage t .leave).stage t = .leave := Function.update_self _ _ _
  have hholder := @Inv.holder_ne s t h (by rw [hstage]; exact nofun)
  refine h.revise ⟨frame_setStage s t .leave, by rw [hstage]; exact nofun, Or.inr ⟨rfl, rfl⟩,
    Or.inr ⟨by rw [hstage]; rfl, by rw [hself]; rfl, hholder⟩, Or.inl ⟨rfl, rfl⟩, ?_, ?_⟩
  · intro hlive
    have hagree := h.agree t ⟨by rw [hstage]; exact nofun, hlive⟩
    rw [hstage] at hagree
    rw [hself]
    exact { hagree with bodyFrees := nofun }
  · intro hfreed
    have hended := h.ended t hfreed
    rw [hstage] at hended
    rw [hself]
    exact hended

theorem Inv.bodyRelease (h : Inv s) (hstage : s.stage t = .free) :
    Inv ((s.release t).setStage t .leave) := by
  set s' := (s.release t).setStage t .leave
  have hself : s'.stage t = .leave := Function.update_self _ _ _
  have hunfreed : s.freed t = false := h.unfreed_of_early (by rw [hstage]; rfl)
  have hlive : Live s t := ⟨by rw [hstage]; exact nofun, hunfreed⟩
  have hfreed : s'.freed t = true := Function.update_self _ _ _
  have hholder := @Inv.holder_ne s t h (by rw [hstage]; exact nofun)
  have hframe : Frame s s' t :=
    ⟨fun _ hne => Function.update_of_ne hne _ _, fun _ _ => rfl,
      fun _ hne => Function.update_of_ne hne _ _, fun _ _ => rfl, fun _ _ => rfl, rfl, rfl, rfl,
      rfl, rfl, rfl, rfl, rfl⟩
  refine h.revise ⟨hframe, hlive.1, Or.inl hlive,
    Or.inr ⟨by rw [hstage]; rfl, by rw [hself]; rfl, hholder⟩, Or.inr ⟨hlive, hfreed, rfl⟩, ?_, ?_⟩
  · rw [hfreed]
    exact nofun
  · intro _
    rw [hself]
    exact ⟨rfl, Or.inr ((h.agree t hlive).bodyFrees hstage)⟩

theorem Inv.clientRelease (h : Inv s) (hclient : s.client t = .freeing) :
    Inv ((s.release t).setClient t .freed) := by
  set s' := (s.release t).setClient t .freed
  have hknown : s.stage t ≠ .none := by
    intro hnone
    have huncalled := (h.uncalled t hnone).1
    rw [hclient] at huncalled
    cases huncalled
  have hunfreed : s.freed t = false := by
    rw [Bool.eq_false_iff]
    intro hfreed
    have hended := (h.ended t hfreed).2
    rw [hclient] at hended
    rcases hended with heq | heq <;> cases heq
  have hlive : Live s t := ⟨hknown, hunfreed⟩
  have hfreed : s'.freed t = true := Function.update_self _ _ _
  have hself : s'.client t = .freed := Function.update_self _ _ _
  have hframe : Frame s s' t :=
    ⟨fun _ _ => rfl, fun _ hne => Function.update_of_ne hne _ _,
      fun _ hne => Function.update_of_ne hne _ _, fun _ _ => rfl, fun _ _ => rfl, rfl, rfl, rfl,
      rfl, rfl, rfl, rfl, rfl⟩
  refine h.revise ⟨hframe, hknown, Or.inl hlive, Or.inl rfl, Or.inr ⟨hlive, hfreed, rfl⟩, ?_, ?_⟩
  · rw [hfreed]
    exact nofun
  · intro _
    exact ⟨(h.agree t hlive).clientFrees hclient, Or.inl hself⟩

theorem Inv.mark {p : Nat} (h : Inv s) (huser : inUser s p t = true) : Inv (mark s t) := by
  simp only [inUser, decide_eq_true_eq] at huser
  obtain ⟨hp, hunlocked, hpc, hstage⟩ := huser
  have hunfreed : s.freed t = false := h.unfreed_of_early (by rw [hstage]; rfl)
  have hlive : Live s t := ⟨by rw [hstage]; exact nofun, hunfreed⟩
  have hagree := h.agree t hlive
  rw [hstage] at hagree
  have hholder : ∀ q, s.lock = some q → s.pc q ≠ .serving t := by
    intro q hq hserving
    have heq := h.single q (h.locked q hq).1 p hp t hserving hpc
    exact hunlocked (heq ▸ hq)
  unfold ForkChild.mark
  split
  next hdetached =>
    have hself : (s.setStage t .free).stage t = .free := Function.update_self _ _ _
    refine h.revise ⟨frame_setStage s t .free, hlive.1, Or.inl hlive,
      Or.inr ⟨by rw [hstage]; rfl, by rw [hself]; rfl, hholder⟩, Or.inl ⟨rfl, rfl⟩, ?_, ?_⟩
    · intro _
      rw [hself]
      exact ⟨hagree.returned, hagree.detached, fun _ => hagree.detached.mp hdetached,
        fun hfreeing => hagree.clientFrees hfreeing, nofun, hagree.unfreed⟩
    · intro hfreed
      exact absurd (hunfreed.symm.trans hfreed) nofun
  next hdetached =>
    set s' := { s with returned := Function.update s.returned (s.desc t) true }.setStage t .marked
    have hself : s'.stage t = .marked := Function.update_self _ _ _
    have hframe : Frame s s' t :=
      ⟨fun _ hne => Function.update_of_ne hne _ _, fun _ _ => rfl, fun _ _ => rfl,
        fun _ hne => Function.update_of_ne hne _ _, fun _ _ => rfl, rfl, rfl, rfl, rfl, rfl, rfl,
        rfl, rfl⟩
    refine h.revise ⟨hframe, hlive.1, Or.inl hlive,
      Or.inr ⟨by rw [hstage]; rfl, by rw [hself]; rfl, hholder⟩, Or.inl ⟨rfl, rfl⟩, ?_, ?_⟩
    · intro _
      rw [hself]
      have hreturned : s'.returned (s'.desc t) = true := Function.update_self _ _ _
      exact ⟨hreturned, hagree.detached, nofun, fun _ => rfl,
        fun _ heq => hdetached (hagree.detached.mpr heq), hagree.unfreed⟩
    · intro hfreed
      exact absurd (hunfreed.symm.trans hfreed) nofun

theorem Inv.claim (h : Inv s) (hknown : s.stage t ≠ .none) (hnone : s.client t = .none)
    (hreturned : s.returned (s.desc t) = true) : Inv (s.setClient t .freeing) := by
  have hunfreed : s.freed t = false := h.unfreed_of_uncalled hnone
  have hlive : Live s t := ⟨hknown, hunfreed⟩
  have hagree := h.agree t hlive
  have hself : (s.setClient t .freeing).client t = .freeing := Function.update_self _ _ _
  refine h.revise ⟨frame_setClient s t .freeing, hknown, Or.inl hlive, Or.inl rfl,
    Or.inl ⟨rfl, rfl⟩, ?_, ?_⟩
  · intro _
    rw [hself]
    have hlate : (s.stage t).late = true := hagree.returned.symm.trans hreturned
    have hdetached : s.detached (s.desc t) = true ↔ Client.freeing = .detached := by
      rw [hagree.detached, hnone]
      exact iff_of_false nofun nofun
    refine ⟨hagree.returned, hdetached, ?_, fun _ => hlate, fun _ => nofun, nofun⟩
    intro hfree
    have hfree : s.stage t = .free := hfree
    rw [hfree] at hlate
    cases hlate
  · intro hfreed
    exact absurd (hunfreed.symm.trans hfreed) nofun

theorem Inv.detach (h : Inv s) (hknown : s.stage t ≠ .none) (hnone : s.client t = .none)
    (hreturned : s.returned (s.desc t) = false) :
    Inv ({ s with detached := Function.update s.detached (s.desc t) true }.setClient t
      .detached) := by
  set s' := { s with detached := Function.update s.detached (s.desc t) true }.setClient t .detached
  have hunfreed : s.freed t = false := h.unfreed_of_uncalled hnone
  have hlive : Live s t := ⟨hknown, hunfreed⟩
  have hagree := h.agree t hlive
  have hself : s'.client t = .detached := Function.update_self _ _ _
  have hframe : Frame s s' t :=
    ⟨fun _ _ => rfl, fun _ hne => Function.update_of_ne hne _ _, fun _ _ => rfl, fun _ _ => rfl,
      fun _ hne => Function.update_of_ne hne _ _, rfl, rfl, rfl, rfl, rfl, rfl, rfl, rfl⟩
  refine h.revise ⟨hframe, hknown, Or.inl hlive, Or.inl rfl, Or.inl ⟨rfl, rfl⟩, ?_, ?_⟩
  · intro _
    rw [hself]
    have hset : s'.detached (s'.desc t) = true := Function.update_self _ _ _
    refine ⟨hagree.returned, iff_of_true hset rfl, fun _ => rfl, nofun, ?_, nofun⟩
    intro hlate
    have hlate : (s.stage t).late = true := hlate
    cases hreturned.symm.trans (hagree.returned.trans hlate)
  · intro hfreed
    exact absurd (hunfreed.symm.trans hfreed) nofun

theorem Inv.alloc {address d : Nat} (h : Inv s) (halloc : cthreadAlloc s address = some (d, s')) :
    Inv s' ∧ d ∈ s'.allocated ∧ d ∉ s'.cprocs ∧ d ∉ s'.free ∧ ∀ t, Live s' t → s'.desc t ≠ d := by
  unfold cthreadAlloc at halloc
  cases hfree : s.free with
  | cons e rest =>
      rw [hfree] at halloc
      cases halloc
      have hnodup := h.freeNodup
      rw [hfree] at hnodup
      obtain ⟨hhead, htail⟩ := List.nodup_cons.mp hnodup
      have hin : d ∈ s.free := by rw [hfree]; exact List.mem_cons_self
      have hrest : ∀ e ∈ rest, e ∈ s.free := by
        intro e he
        rw [hfree]
        exact List.mem_cons_of_mem d he
      refine ⟨?_, (h.freeAllocated d hin).1, (h.freeAllocated d hin).2, hhead, ?_⟩
      · exact { h with
          freeNodup := htail
          freeAllocated := fun e he => h.freeAllocated e (hrest e he)
          owned := fun t ht => ⟨(h.owned t ht).1, (h.owned t ht).2.1,
            fun he => (h.owned t ht).2.2 (hrest _ he)⟩ }
      · intro t ht heq
        exact (h.owned t ht).2.2 (heq ▸ hin)
  | nil =>
      rw [hfree] at halloc
      dsimp only at halloc
      split at halloc
      next => cases halloc
      next hfresh =>
        cases halloc
        refine ⟨?_, List.mem_cons_self, fun hp => hfresh (h.cprocsAllocated address hp), nofun,
          fun t ht heq => hfresh (heq ▸ (h.owned t ht).1)⟩
        exact { h with
          freeNodup := List.nodup_nil
          cprocsAllocated := fun p hp => List.mem_cons_of_mem address (h.cprocsAllocated p hp)
          freeAllocated := nofun
          owned := fun t ht =>
            ⟨List.mem_cons_of_mem address (h.owned t ht).1, (h.owned t ht).2.1, nofun⟩ }

theorem Inv.enqueue {d : Nat} (h : Inv s) (hd : d ∈ s.allocated ∧ d ∉ s.cprocs ∧ d ∉ s.free)
    (hunowned : ∀ t, Live s t → s.desc t ≠ d) : Inv (enqueue s d) := by
  have hnone : s.stage s.threads = .none := h.known s.threads (Nat.le_refl _)
  have hnotIn : s.threads ∉ s.queue := by
    intro hin
    cases hnone.symm.trans ((h.queued s.threads).mp hin)
  set s' := ForkChild.enqueue s d
  have hself : s'.stage s.threads = .queued := Function.update_self _ _ _
  have hdesc : s'.desc s.threads = d := Function.update_self _ _ _
  have hother : ∀ u, u ≠ s.threads → s'.stage u = s.stage u ∧ s'.desc u = s.desc u :=
    fun u hne => ⟨Function.update_of_ne hne _ _, Function.update_of_ne hne _ _⟩
  have hlive : ∀ u, u ≠ s.threads → Live s' u → Live s u := by
    intro u hne hu
    rw [Live, (hother u hne).1] at hu
    exact hu
  have hserving : ∀ p ∈ s.cprocs, ∀ t, s.pc p = .serving t → t ≠ s.threads := by
    rintro p hp t hpc rfl
    have hserved := h.serving p hp s.threads hpc
    rw [hnone] at hserved
    cases hserved
  refine ⟨h.cprocsNodup, h.freeNodup, ?_, h.cprocsAllocated, h.freeAllocated, ?_, ?_, ?_, ?_, ?_,
    h.single, ?_, ?_, ?_, ?_, ?_⟩
  · exact List.nodup_append.mpr ⟨h.queueNodup, List.nodup_singleton _, fun a ha b hb => by
      rw [List.mem_singleton.mp hb]
      rintro rfl
      exact hnotIn ha⟩
  · intro u hu
    have hne : u ≠ s.threads := by
      rintro rfl
      exact absurd hu (Nat.not_succ_le_self _)
    rw [(hother u hne).1]
    exact h.known u (Nat.le_of_succ_le hu)
  · intro u hu
    by_cases hut : u = s.threads
    · rw [hut, hdesc]
      exact hd
    · rw [(hother u hut).2]
      exact h.owned u (hlive u hut hu)
  · intro u v hu hv heq
    by_cases hut : u = s.threads <;> by_cases hvt : v = s.threads
    · rw [hut, hvt]
    · rw [hut, hdesc, (hother v hvt).2] at heq
      exact absurd heq.symm (hunowned v (hlive v hvt hv))
    · rw [hvt, hdesc, (hother u hut).2] at heq
      exact absurd heq (hunowned u (hlive u hut hu))
    · rw [(hother u hut).2, (hother v hvt).2] at heq
      exact h.distinct u v (hlive u hut hu) (hlive v hvt hv) heq
  · intro u
    have hmem : u ∈ s'.queue ↔ u ∈ s.queue ∨ u = s.threads := by
      rw [← List.mem_singleton, ← List.mem_append]
      rfl
    by_cases hut : u = s.threads
    · rw [hmem, hut, hself]
      exact iff_of_true (Or.inr rfl) rfl
    · rw [hmem, (hother u hut).1, h.queued u]
      exact or_iff_left hut
  · intro p hp t hpc
    rw [(hother t (hserving p hp t hpc)).1]
    exact h.serving p hp t hpc
  · intro p hp
    have hold := h.incarnated p hp
    have hpcSame : s'.pc = s.pc := rfl
    rw [incarnationOf] at hold ⊢
    rw [hpcSame]
    cases hpc : s.pc p with
    | idle | account =>
        rw [hpc] at hold
        exact hold
    | serving t =>
        rw [hpc] at hold
        simp only [(hother t (hserving p hp t hpc)).1, (hother t (hserving p hp t hpc)).2]
        exact hold
  · intro u hu
    by_cases hut : u = s.threads
    · have hclient : s'.client u = .none := by
        rw [hut]
        exact (h.uncalled s.threads hnone).1
      have hbits : s'.returned d = false ∧ s'.detached d = false :=
        ⟨Function.update_self _ _ _, Function.update_self _ _ _⟩
      rw [hclient, hut, hself, hdesc, hbits.1, hbits.2]
      exact ⟨rfl, iff_of_false nofun nofun, nofun, nofun, nofun, nofun⟩
    · have hlu := hlive u hut hu
      have hne : s.desc u ≠ d := hunowned u hlu
      have hbits : s'.returned (s.desc u) = s.returned (s.desc u) ∧
          s'.detached (s.desc u) = s.detached (s.desc u) :=
        ⟨Function.update_of_ne hne _ _, Function.update_of_ne hne _ _⟩
      rw [(hother u hut).1, (hother u hut).2, hbits.1, hbits.2]
      exact h.agree u hlu
  · intro u hu
    have hended := h.ended u hu
    have hut : u ≠ s.threads := by
      rintro rfl
      have hlate := hended.1
      rw [hnone] at hlate
      cases hlate
    rw [(hother u hut).1]
    exact hended
  · intro u hu
    have hut : u ≠ s.threads := by
      rintro rfl
      rw [hself] at hu
      cases hu
    rw [(hother u hut).1] at hu
    exact h.uncalled u hu
  · intro p hp
    obtain ⟨hin, t, hpc, huser⟩ := h.locked p hp
    exact ⟨hin, t, hpc, (hother t (hserving p hin t hpc)).1.trans huser⟩

theorem Inv.create {address : Nat} (h : Inv s) (hcreate : cprocCreate s address = some s') :
    Inv s' := by
  unfold cprocCreate at hcreate
  split at hcreate
  next => cases hcreate
  next hfresh =>
    set s'' := State.goto _ address .idle with hs''
    have heq : s' = s'' := (Option.some.inj hcreate).symm
    rw [heq]
    have hnew : address ∉ s.cprocs := fun hp => hfresh (h.cprocsAllocated address hp)
    have hself : s''.pc address = .idle := Function.update_self _ _ _
    have hincSelf : s''.incarnation address = none := Function.update_self _ _ _
    have hother : ∀ q ∈ s.cprocs, s''.pc q = s.pc q ∧ s''.incarnation q = s.incarnation q := by
      intro q hq
      have hne : q ≠ address := fun heq => hnew (heq ▸ hq)
      exact ⟨Function.update_of_ne hne _ _, Function.update_of_ne hne _ _⟩
    have hserving : ∀ q ∈ s''.cprocs, ∀ t, s''.pc q = .serving t →
        q ∈ s.cprocs ∧ s.pc q = .serving t := by
      intro q hq t hpc
      rcases List.mem_cons.mp hq with rfl | hq
      · rw [hself] at hpc
        cases hpc
      · exact ⟨hq, (hother q hq).1 ▸ hpc⟩
    refine ⟨List.nodup_cons.mpr ⟨hnew, h.cprocsNodup⟩, h.freeNodup, h.queueNodup, ?_, ?_, h.known,
      ?_, h.distinct, h.queued, ?_, ?_, ?_, h.agree, h.ended, h.uncalled, ?_⟩
    · intro q hq
      rcases List.mem_cons.mp hq with rfl | hq
      · exact List.mem_cons_self
      · exact List.mem_cons_of_mem _ (h.cprocsAllocated q hq)
    · intro d hd
      obtain ⟨hin, hnot⟩ := h.freeAllocated d hd
      refine ⟨List.mem_cons_of_mem _ hin, List.not_mem_cons_of_ne_of_not_mem ?_ hnot⟩
      rintro rfl
      exact hfresh hin
    · intro t ht
      obtain ⟨hin, hnot, hfree⟩ := h.owned t ht
      refine ⟨List.mem_cons_of_mem _ hin, List.not_mem_cons_of_ne_of_not_mem ?_ hnot, hfree⟩
      intro heq
      have hin : s.desc t ∈ s.allocated := hin
      exact hfresh (heq ▸ hin)
    · intro q hq t hpc
      obtain ⟨hq, hpc⟩ := hserving q hq t hpc
      exact h.serving q hq t hpc
    · intro q hq r hr t hqpc hrpc
      obtain ⟨hq, hqpc⟩ := hserving q hq t hqpc
      obtain ⟨hr, hrpc⟩ := hserving r hr t hrpc
      exact h.single q hq r hr t hqpc hrpc
    · intro q hq
      rcases List.mem_cons.mp hq with rfl | hq
      · rw [incarnationOf, hself]
        exact hincSelf
      · rw [incarnationOf, (hother q hq).1, (hother q hq).2]
        exact h.incarnated q hq
    · intro p hp
      obtain ⟨hin, t, hpc, huser⟩ := h.locked p hp
      exact ⟨List.mem_cons_of_mem _ hin, t, (hother p hin).1.trans hpc, huser⟩

theorem Inv.cthreadFork {address child : Nat} (h : Inv s)
    (hfork : cthreadFork s address child = some s') : Inv s' := by
  obtain ⟨⟨d, middle⟩, halloc, hrest⟩ := Option.bind_eq_some_iff.mp hfork
  obtain ⟨hinv, hin, hcproc, hfree, hunowned⟩ := h.alloc halloc
  have hqueued := hinv.enqueue ⟨hin, hcproc, hfree⟩ hunowned
  dsimp only at hrest
  split at hrest
  next => exact hqueued.create hrest
  next =>
    cases hrest
    exact hqueued

theorem Inv.advance {p : Nat} (h : Inv s) (hp : p ∈ s.cprocs) (hadvance : advance s p = some s') :
    Inv s' := by
  unfold ForkChild.advance at hadvance
  cases hpc : s.pc p with
  | idle =>
      simp only [hpc] at hadvance
      split at hadvance
      next t rest hlock hqueue =>
        cases hadvance
        exact h.dequeue hp hpc hlock hqueue
      next => cases hadvance
  | account =>
      simp only [hpc] at hadvance
      split at hadvance
      next =>
        cases hadvance
        exact h.account hp hpc
      next => cases hadvance
  | serving t =>
      simp only [hpc] at hadvance
      cases hstage : s.stage t with
      | taken =>
          rw [hstage] at hadvance
          cases hadvance
          exact h.associate hp hpc hstage
      | marked =>
          rw [hstage] at hadvance
          cases hadvance
          exact h.signalled hstage
      | free =>
          simp only [hstage] at hadvance
          split at hadvance
          next =>
            cases hadvance
            exact h.bodyRelease hstage
          next => cases hadvance
      | leave =>
          rw [hstage] at hadvance
          cases hadvance
          exact h.dissociate hp hpc hstage
      | none | queued | user | exited =>
          rw [hstage] at hadvance
          cases hadvance

theorem Inv.step {label : Label} (h : Inv s) (hstep : step s label = some s') : Inv s' := by
  cases label with
  | fork p t address child =>
      simp only [ForkChild.step] at hstep
      split at hstep
      next => exact h.cthreadFork hstep
      next => cases hstep
  | setLimit n =>
      cases hstep
      exact { h with }
  | finish p t =>
      simp only [ForkChild.step] at hstep
      split at hstep
      next huser =>
        cases hstep
        exact h.mark huser.1
      next => cases hstep
  | next p =>
      simp only [ForkChild.step] at hstep
      split at hstep
      next hp => exact h.advance hp hstep
      next => cases hstep
  | join t =>
      simp only [ForkChild.step] at hstep
      split at hstep
      next hguard =>
        cases hstep
        exact h.claim hguard.1 hguard.2.1 hguard.2.2
      next => cases hstep
  | detach t =>
      simp only [ForkChild.step] at hstep
      split at hstep
      next hguard =>
        split at hstep
        next hreturned =>
          cases hstep
          exact h.claim hguard.1 hguard.2 hreturned
        next hreturned =>
          cases hstep
          exact h.detach hguard.1 hguard.2 (Bool.eq_false_iff.mpr hreturned)
      next => cases hstep
  | release t =>
      simp only [ForkChild.step] at hstep
      split at hstep
      next hguard =>
        cases hstep
        exact h.clientRelease hguard.1
      next => cases hstep
  | lock p t =>
      simp only [ForkChild.step] at hstep
      split at hstep
      next hguard =>
        cases hstep
        have huser := hguard.1
        simp only [inUser, decide_eq_true_eq] at huser
        refine { h with locked := ?_ }
        intro q hq
        cases Option.some.inj hq
        exact ⟨huser.1, t, huser.2.2⟩
      next => cases hstep
  | freeLock p =>
      simp only [ForkChild.step] at hstep
      split at hstep
      next =>
        cases hstep
        exact { h with }
      next => cases hstep

end Steps

theorem cthreadInit_inv {p d : Nat} (hne : p ≠ d) : Inv (cthreadInit p d) := by
  have honly : ∀ t, Live (cthreadInit p d) t → t = 0 := by
    rintro t ⟨hstage, -⟩
    by_contra hnot
    exact hstage (if_neg hnot)
  have hzero : (cthreadInit p d).stage 0 = .user := rfl
  refine ⟨List.nodup_singleton p, List.nodup_nil, List.nodup_nil, ?_, nofun, ?_, ?_, ?_, ?_, ?_, ?_,
    ?_, ?_, nofun, fun _ _ => ⟨rfl, rfl⟩, nofun⟩
  · intro q hq
    rw [List.mem_singleton.mp hq]
    exact List.mem_cons_self
  · intro t ht
    have hpos : 1 ≤ t := ht
    exact if_neg (Nat.ne_of_gt hpos)
  · intro t _
    refine ⟨List.mem_cons_of_mem p List.mem_cons_self, ?_, nofun⟩
    intro hin
    exact hne (List.mem_singleton.mp hin).symm
  · intro t u ht hu _
    rw [honly t ht, honly u hu]
  · intro t
    refine iff_of_false nofun (fun hqueued => ?_)
    by_cases ht : t = 0
    · rw [ht, hzero] at hqueued
      cases hqueued
    · have hnone : (cthreadInit p d).stage t = .none := if_neg ht
      rw [hnone] at hqueued
      cases hqueued
  · intro q _ t hpc
    cases hpc
    rfl
  · intro q hq r hr t _ _
    rw [List.mem_singleton.mp hq, List.mem_singleton.mp hr]
  · intro q _
    rfl
  · intro t ht
    rw [honly t ht, hzero]
    exact ⟨rfl, iff_of_false nofun nofun, nofun, nofun, nofun, nofun⟩

theorem inv_of_reachable {s : State} (hreach : machine.Reachable Machine.always s) : Inv s := by
  refine hreach.invariant ?_ ?_
  · rintro s ⟨p, d, hne, rfl⟩
    exact cthreadInit_inv hne
  · intro s label s' h _ hstep
    exact h.step hstep

/-! ## What the child frees -/

/-- The blocks that belong to a cproc of another thread. -/
def blocks (incarnation : Nat → Option Nat) (p : Nat) : List Nat :=
  (incarnation p).toList ++ [p]

theorem cprocForkChild_eq (incarnation : Nat → Option Nat) (self : Nat) (cprocs : List Nat)
    (child : Child) :
    cprocForkChild incarnation self cprocs child = { child with
      cprocs := if self ∈ cprocs then [self] else child.cprocs
      freed := child.freed ++ (cprocs.filter (· ≠ self)).flatMap (blocks incarnation) } := by
  induction cprocs generalizing child with
  | nil => simp [cprocForkChild]
  | cons p rest ih =>
      by_cases hself : self = p
      · subst hself
        rw [cprocForkChild, if_pos rfl, ih]
        simp
      · have hne : p ≠ self := Ne.symm hself
        rw [cprocForkChild, if_neg hself, ih]
        simp [hself, hne, blocks]

theorem freeQueue_eq (desc : Nat → Nat) (queue : List Nat) (child : Child) :
    freeQueue desc queue child =
      { child with queue := [], freed := child.freed ++ queue.map desc } := by
  induction queue generalizing child with
  | nil => simp [freeQueue]
  | cons t rest ih =>
      rw [freeQueue, ih]
      simp

theorem freeFree_eq (free : List Nat) (child : Child) :
    freeFree free child = { child with free := [], freed := child.freed ++ free } := by
  induction free generalizing child with
  | nil => simp [freeFree]
  | cons d rest ih =>
      rw [freeFree, ih]
      simp

section Child

variable {s : State} {self : Nat}

theorem cthreadForkChild_freed (s : State) (self : Nat) :
    (cthreadForkChild s self).freed =
      (s.cprocs.filter (· ≠ self)).flatMap (blocks s.incarnation) ++
        (s.queue.map s.desc ++ s.free) := by
  simp [cthreadForkChild, cprocForkChild_eq, freeQueue_eq, freeFree_eq]

theorem cthreadForkChild_cprocs (hself : self ∈ s.cprocs) :
    (cthreadForkChild s self).cprocs = [self] := by
  simp [cthreadForkChild, cprocForkChild_eq, freeQueue_eq, freeFree_eq, hself]

theorem Inv.named (h : Inv s) {p : Nat} (hp : p ∈ s.cprocs) {d : Nat}
    (hd : s.incarnation p = some d) :
    ∃ t, s.pc p = .serving t ∧ (s.stage t).incarnate = true ∧ s.desc t = d := by
  rw [h.incarnated p hp, incarnationOf] at hd
  cases hpc : s.pc p with
  | idle | account =>
      rw [hpc] at hd
      cases hd
  | serving t =>
      simp only [hpc] at hd
      split at hd
      next hincarnate => exact ⟨t, rfl, hincarnate, Option.some.inj hd⟩
      next => cases hd

theorem live_of_incarnate {t : Nat} (hincarnate : (s.stage t).incarnate = true)
    (hfreed : s.freed t = false) : Live s t := by
  refine ⟨fun hnone => ?_, hfreed⟩
  rw [hnone] at hincarnate
  cases hincarnate

theorem Inv.live_of_queued (h : Inv s) {t : Nat} (ht : t ∈ s.queue) : Live s t := by
  have hstage := (h.queued t).mp ht
  exact ⟨by rw [hstage]; exact nofun, h.unfreed_of_early (by rw [hstage]; rfl)⟩

/-- What the child frees, when no other cproc is stale: each other cproc, the descriptor of the
cthread in use that it is incarnated in, the queued cthreads and the free list. -/
theorem Inv.mem_blocks (h : Inv s) (hfresh : ∀ p ∈ s.cprocs, p ≠ self → ¬ Stale s p) {p x : Nat}
    (hp : p ∈ s.cprocs) (hne : p ≠ self) (hx : x ∈ blocks s.incarnation p) :
    x = p ∨ ∃ t, Live s t ∧ s.pc p = .serving t ∧ (s.stage t).incarnate = true ∧ x = s.desc t := by
  rcases List.mem_append.mp hx with hx | hx
  · obtain ⟨t, hpc, hincarnate, rfl⟩ := h.named hp (Option.mem_toList.mp hx)
    have hunfreed : s.freed t = false := by
      rw [Bool.eq_false_iff]
      exact fun hfreed => hfresh p hp hne ⟨t, hpc, hfreed⟩
    exact Or.inr ⟨t, live_of_incarnate hincarnate hunfreed, hpc, hincarnate, rfl⟩
  · exact Or.inl (List.mem_singleton.mp hx)

theorem mem_others {p : Nat} (hp : p ∈ s.cprocs.filter (· ≠ self)) : p ∈ s.cprocs ∧ p ≠ self := by
  obtain ⟨hin, hne⟩ := List.mem_filter.mp hp
  exact ⟨hin, of_decide_eq_true hne⟩

theorem Inv.blocks_nodup (h : Inv s) {p : Nat} (hp : p ∈ s.cprocs)
    (hunfreed : ¬ Stale s p) : (blocks s.incarnation p).Nodup := by
  cases hinc : s.incarnation p with
  | none => simp [blocks, hinc]
  | some d =>
      obtain ⟨t, hpc, hincarnate, rfl⟩ := h.named hp hinc
      have hlive : Live s t := live_of_incarnate hincarnate (by
        rw [Bool.eq_false_iff]
        exact fun hfreed => hunfreed ⟨t, hpc, hfreed⟩)
      have hne : s.desc t ≠ p := fun heq => (h.owned t hlive).2.1 (heq ▸ hp)
      simp [blocks, hinc, hne]

theorem Inv.blocks_disjoint (h : Inv s) (hfresh : ∀ p ∈ s.cprocs, p ≠ self → ¬ Stale s p)
    {p q : Nat} (hp : p ∈ s.cprocs.filter (· ≠ self)) (hq : q ∈ s.cprocs.filter (· ≠ self))
    (hne : p ≠ q) : (blocks s.incarnation p).Disjoint (blocks s.incarnation q) := by
  obtain ⟨hp, hpself⟩ := mem_others hp
  obtain ⟨hq, hqself⟩ := mem_others hq
  intro x hxp hxq
  rcases h.mem_blocks hfresh hp hpself hxp with rfl | ⟨t, ht, htpc, -, rfl⟩ <;>
    rcases h.mem_blocks hfresh hq hqself hxq with heq | ⟨u, hu, hupc, -, heq⟩
  · exact hne heq
  · exact (h.owned u hu).2.1 (heq ▸ hp)
  · exact (h.owned t ht).2.1 (heq ▸ hq)
  · have htu := h.distinct t u ht hu heq
    rw [← htu] at hupc
    exact hne (h.single p hp q hq t htpc hupc)

theorem Inv.freed_nodup (h : Inv s) (hfresh : ∀ p ∈ s.cprocs, p ≠ self → ¬ Stale s p) :
    (cthreadForkChild s self).freed.Nodup := by
  rw [cthreadForkChild_freed]
  refine List.nodup_append.mpr ⟨List.nodup_flatMap.mpr ⟨?_, ?_⟩, List.nodup_append.mpr
    ⟨?_, h.freeNodup, ?_⟩, ?_⟩
  · intro p hp
    obtain ⟨hp, hne⟩ := mem_others hp
    exact h.blocks_nodup hp (hfresh p hp hne)
  · have hpairs := (h.cprocsNodup.filter (· ≠ self)).pairwise_of_forall_ne
      (fun p hp q hq hne => h.blocks_disjoint hfresh hp hq hne)
    exact hpairs
  · refine h.queueNodup.map_on ?_
    intro t ht u hu heq
    exact h.distinct t u (h.live_of_queued ht) (h.live_of_queued hu) heq
  · rintro d hd e he rfl
    obtain ⟨t, ht, rfl⟩ := List.mem_map.mp hd
    exact (h.owned t (h.live_of_queued ht)).2.2 he
  · rintro x hx y hy rfl
    obtain ⟨p, hp, hx⟩ := List.mem_flatMap.mp hx
    obtain ⟨hp, hne⟩ := mem_others hp
    rcases List.mem_append.mp hy with hy | hy
    · obtain ⟨t, ht, rfl⟩ := List.mem_map.mp hy
      have hlive := h.live_of_queued ht
      rcases h.mem_blocks hfresh hp hne hx with heq | ⟨u, hu, -, hincarnate, heq⟩
      · exact (h.owned t hlive).2.1 (heq ▸ hp)
      · rw [← h.distinct t u hlive hu heq, (h.queued t).mp ht] at hincarnate
        cases hincarnate
    · rcases h.mem_blocks hfresh hp hne hx with heq | ⟨u, hu, -, -, heq⟩
      · exact (h.freeAllocated x hy).2 (heq ▸ hp)
      · exact (h.owned u hu).2.2 (heq ▸ hy)

/-- Nothing that the child frees is a block `x` that the other cprocs, the queue and the free
list do not name. -/
theorem Inv.not_freed (h : Inv s) (hfresh : ∀ p ∈ s.cprocs, p ≠ self → ¬ Stale s p) {x : Nat}
    (hcproc : ∀ p ∈ s.cprocs, p ≠ self → x ≠ p)
    (hserved : ∀ p ∈ s.cprocs, p ≠ self → ∀ t, Live s t → s.pc p = .serving t → x ≠ s.desc t)
    (hqueued : ∀ t ∈ s.queue, x ≠ s.desc t) (hfree : x ∉ s.free) :
    x ∉ (cthreadForkChild s self).freed := by
  rw [cthreadForkChild_freed]
  intro hx
  rcases List.mem_append.mp hx with hx | hx
  · obtain ⟨p, hp, hx⟩ := List.mem_flatMap.mp hx
    obtain ⟨hp, hne⟩ := mem_others hp
    rcases h.mem_blocks hfresh hp hne hx with heq | ⟨t, ht, hpc, -, heq⟩
    · exact hcproc p hp hne heq
    · exact hserved p hp hne t ht hpc heq
  · rcases List.mem_append.mp hx with hx | hx
    · obtain ⟨t, ht, heq⟩ := List.mem_map.mp hx
      exact hqueued t ht heq.symm
    · exact hfree hx

/-- In every state that the parent can be in when `cthread_fork_prepare` has its locks, if no
other cproc is between `cthread_free` of its descriptor and `cthread_assoc`, the child frees
every block at most once, every other cproc, and nothing of the caller's. -/
theorem cleanChild_of_notStale (hreach : machine.Reachable Machine.always s)
    (hprepared : Prepared s self) (hfresh : ∀ p ∈ s.cprocs, p ≠ self → ¬ Stale s p) :
    CleanChild s self := by
  have h := inv_of_reachable hreach
  obtain ⟨hself, own, hpc, huser⟩ := h.locked self hprepared.1
  have hlive : Live s own :=
    ⟨by rw [huser]; exact nofun, h.unfreed_of_early (by rw [huser]; rfl)⟩
  refine ⟨h.freed_nodup hfresh, ?_, ?_, ?_, cthreadForkChild_cprocs hself, ?_, ?_, rfl, rfl⟩
  · refine h.not_freed hfresh (fun p _ hne => Ne.symm hne) ?_ ?_ ?_
    · intro p _ _ t ht _ heq
      exact (h.owned t ht).2.1 (heq ▸ hself)
    · intro t ht heq
      exact (h.owned t (h.live_of_queued ht)).2.1 (heq ▸ hself)
    · exact fun hfree => (h.freeAllocated self hfree).2 hself
  · intro d hd
    obtain ⟨t, htpc, -, rfl⟩ := h.named hself hd
    rw [hpc] at htpc
    cases htpc
    refine h.not_freed hfresh ?_ ?_ ?_ (h.owned own hlive).2.2
    · intro p hp _ heq
      exact (h.owned own hlive).2.1 (heq ▸ hp)
    · intro p hp hne t ht htpc heq
      have howner := h.distinct own t hlive ht heq
      rw [← howner] at htpc
      exact hne (h.single p hp self hself own htpc hpc)
    · intro t ht heq
      have howner := h.distinct own t hlive (h.live_of_queued ht) heq
      have hqueued := (h.queued t).mp ht
      rw [← howner, huser] at hqueued
      cases hqueued
  · intro p hp hne
    rw [cthreadForkChild_freed]
    refine List.mem_append_left _ (List.mem_flatMap.mpr ⟨p, ?_, ?_⟩)
    · exact List.mem_filter.mpr ⟨hp, decide_eq_true hne⟩
    · exact List.mem_append_right _ (List.mem_singleton.mpr rfl)
  · simp [cthreadForkChild, cprocForkChild_eq, freeQueue_eq, freeFree_eq]
  · simp [cthreadForkChild, cprocForkChild_eq, freeQueue_eq, freeFree_eq]

end Child

/-- The main thread forks two cthreads; one is running and one is queued when it calls `fork`. -/
def runningRun : List Label :=
  [.fork 1 0 10 11, .fork 1 0 12 13, .next 11, .next 11, .lock 1 0, .freeLock 1]

theorem cleanChild_runningRun : ∃ s, machine.run (cthreadInit 1 2) runningRun = some s ∧
    (cthreadForkChild s 1).freed = [13, 10, 11, 12] ∧ CleanChild s 1 := by
  obtain ⟨s, hrun⟩ : ∃ s, machine.run (cthreadInit 1 2) runningRun = some s := ⟨_, rfl⟩
  have hresult : (cthreadForkChild s 1).freed = [13, 10, 11, 12] ∧ Prepared s 1 ∧
      s.freed = fun _ => false := by
    cases Option.some.inj hrun
    exact ⟨rfl, ⟨rfl, rfl⟩, rfl⟩
  have hreach : machine.Reachable Machine.always s :=
    .of_run runningRun (.init ⟨1, 2, by decide, rfl⟩) hrun
      (Machine.meets_of_forall (fun _ _ _ => trivial))
  refine ⟨s, hrun, hresult.1, cleanChild_of_notStale hreach hresult.2.1 ?_⟩
  rintro p - - ⟨t, -, hfreed⟩
  rw [hresult.2.2] at hfreed
  cases hfreed

/-- A detached cthread has ended, and its cproc has freed the descriptor but is still incarnated
in it when the main thread calls `fork`. -/
def staleRun : List Label :=
  [.fork 1 0 10 11, .detach 1, .next 11, .next 11, .finish 11 1, .next 11, .lock 1 0, .freeLock 1]

theorem stale_cproc_frees_twice :
    ¬ ∀ s self, machine.Reachable Machine.always s → Prepared s self → CleanChild s self := by
  intro hall
  obtain ⟨s, hrun⟩ : ∃ s, machine.run (cthreadInit 1 2) staleRun = some s := ⟨_, rfl⟩
  have hresult : Prepared s 1 ∧ (cthreadForkChild s 1).freed = [10, 11, 10] := by
    cases Option.some.inj hrun
    exact ⟨⟨rfl, rfl⟩, rfl⟩
  have hreach : machine.Reachable Machine.always s :=
    .of_run staleRun (.init ⟨1, 2, by decide, rfl⟩) hrun
      (Machine.meets_of_forall (fun _ _ _ => trivial))
  have honce := (hall s 1 hreach hresult.1).once
  rw [hresult.2] at honce
  revert honce
  decide

end MachFormal.Threads.ForkChild
