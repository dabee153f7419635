import Mathlib.Data.List.Count
import Mathlib.Logic.Function.Basic
import MachFormal.Library.Machine

/-!
# The lifetime of a cthread descriptor

A descriptor is allocated by `cthread_fork`, used by `cthread_body` while the
cthread runs, and put on `free_cthreads` either by `cthread_body` or by the one
`cthread_join` or `cthread_detach` that is called for it.  Two bits of `t->state`
decide which of them does it.

A step is one critical section of a spin lock, one acquisition or release of
`t->lock`, or one statement between them.  So `cproc_continue` reads the state of
the waiter, writes `CPROC_RUNNING` and sends its message in three steps, since it
holds no lock.  `cthread_lock` is left out, so that
every order of the calls of `cthread_fork` is allowed, and so is the caller of
`cthread_join` or `cthread_detach`: the call may start whenever the cthread has
been queued.  The ghost `log` says which cthread's parties touched a descriptor,
and when it was freed.
-/

namespace MachFormal.Threads.Lifetime

open MachFormal.Library

/-- The fields of `struct cthread` that the parties of a cthread share; `done` is the queue
of its condition. -/
structure Descriptor where
  lock : Bool := false
  returned : Bool := false
  detached : Bool := false
  result : Nat := 0
  done : List Nat := []
  deriving DecidableEq, Repr

inductive CprocState where
  | running
  | spinning
  | blocked
  deriving DecidableEq, Repr

/-- The state of a caller of `cthread_join`, and whether there is a message in its wait port. -/
structure Waiter where
  state : CprocState := .running
  message : Bool := false
  deriving DecidableEq, Repr

/-- Where the creation of a cthread and then `cthread_body` are. -/
inductive Body where
  | none
  | allocPop
  | allocNew
  | init
  | queued
  | running
  | exitTest
  | lock
  | test
  | unlockFree
  | free
  | freed
  | unlockSignal
  | signalTest
  | signalDeq
  | readState (p : Nat)
  | setRunning (p : Nat) (oldState : CprocState)
  | send (p : Nat)
  | signalled
  deriving DecidableEq, Repr

/-- Where the call of `cthread_join` or `cthread_detach` is. -/
inductive Client where
  | none
  | joinLock
  | joinTest
  | waitEnq
  | waitUnlock
  | spin
  | blocked
  | joinRead
  | joinUnlock (result : Nat)
  | joinFree (result : Nat)
  | joined (result : Nat)
  | detachLock
  | detachTest
  | detachUnlockFree
  | detachFree
  | detachFreed
  | detachUnlock
  | detached
  deriving DecidableEq, Repr

/-- What a step does to the descriptor, to the waiter that was taken from it, or to its own
state and port. -/
inductive Effect where
  | none
  | touch
  | free
  | wake (p : Nat)
  | send (p : Nat)
  | sleep
  | block
  | receive
  deriving DecidableEq, Repr

/-- `cthread_body` for one request, from its dequeueing to `condition_signal(&t->done)`; `state`
says what the states of the waiters are.  The cthread's function is left by the label `returns`. -/
def bodyNext (state : Nat → CprocState) (b : Body) (r : Descriptor) :
    Option (Body × Descriptor × Effect) :=
  match b with
  | .queued => some (.running, r, .none)
  | .exitTest => some (.lock, r, .touch)
  | .lock => if r.lock then none else some (.test, { r with lock := true }, .touch)
  | .test =>
      if r.detached then some (.unlockFree, r, .touch)
      else some (.unlockSignal, { r with returned := true }, .touch)
  | .unlockFree => some (.free, { r with lock := false }, .touch)
  | .free => some (.freed, r, .free)
  | .unlockSignal => some (.signalTest, { r with lock := false }, .touch)
  | .signalTest => some (if r.done = [] then .signalled else .signalDeq, r, .touch)
  | .signalDeq =>
      some (r.done.head?.elim .signalled .readState, { r with done := r.done.tail }, .touch)
  | .readState p => some (.setRunning p (state p), r, .none)
  | .setRunning p oldState => some (if oldState = .blocked then .send p else .signalled, r, .wake p)
  | .send p => some (.signalled, r, .send p)
  | .none | .allocPop | .allocNew | .init | .running | .freed | .signalled => none

/-- `cthread_join` and `cthread_detach`.  A waiter that spins may look at its state again with
the lock of the condition held (`recheck`), and marks itself as blocked then. -/
def clientNext (t : Nat) (recheck : Bool) (w : Waiter) (c : Client) (r : Descriptor) :
    Option (Client × Descriptor × Effect) :=
  match c with
  | .joinLock => if r.lock then none else some (.joinTest, { r with lock := true }, .touch)
  | .joinTest => some (if r.returned then .joinRead else .waitEnq, r, .touch)
  | .waitEnq => some (.waitUnlock, { r with done := r.done ++ [t] }, .sleep)
  | .waitUnlock => some (.spin, { r with lock := false }, .touch)
  | .spin =>
      if w.state = .running then some (.joinLock, r, if recheck then .touch else .none)
      else if recheck then some (.blocked, r, .block) else none
  | .blocked => if w.message then some (.joinLock, r, .receive) else none
  | .joinRead => some (.joinUnlock r.result, r, .touch)
  | .joinUnlock result => some (.joinFree result, { r with lock := false }, .touch)
  | .joinFree result => some (.joined result, r, .free)
  | .detachLock => if r.lock then none else some (.detachTest, { r with lock := true }, .touch)
  | .detachTest =>
      if r.returned then some (.detachUnlockFree, r, .touch)
      else some (.detachUnlock, { r with detached := true }, .touch)
  | .detachUnlockFree => some (.detachFree, { r with lock := false }, .touch)
  | .detachFree => some (.detachFreed, r, .free)
  | .detachUnlock => some (.detached, { r with lock := false }, .touch)
  | .none | .joined _ | .detachFreed | .detached => none

/-- What the log records: cthread `t`'s own parties touched its descriptor or freed it, its
function returned, a join returned a value, and its `condition_signal` woke the caller that
waits for cthread `p`. -/
inductive Event where
  | touched (t : Nat)
  | freed (t : Nat)
  | returned (t value : Nat)
  | joined (t value : Nat)
  | woke (t p : Nat)
  deriving DecidableEq, Repr

/-- `desc t` is the descriptor of cthread `t`, `waiter t` the caller that waits for it; `free` is `free_cthreads` and `allocated` what `malloc` has returned. -/
structure State where
  body : Nat → Body := fun _ => .none
  client : Nat → Client := fun _ => .none
  desc : Nat → Nat := fun _ => 0
  heap : Nat → Descriptor := fun _ => {}
  waiter : Nat → Waiter := fun _ => {}
  allocated : List Nat := []
  free : List Nat := []
  log : List Event := []

inductive Label where
  | fork (t : Nat)
  | next (t address : Nat)
  | returns (t value : Nat) (exit : Bool)
  | join (t : Nat)
  | detach (t : Nat)
  | client (t : Nat) (recheck : Bool)
  deriving DecidableEq, Repr

/-- The cthread has been queued, so its creator may hand it out. -/
def Body.started : Body → Bool
  | .none | .allocPop | .allocNew | .init => false
  | _ => true

def State.wait (s : State) (t : Nat) (w : Waiter) : State :=
  { s with waiter := Function.update s.waiter t w }

/-- The effect of a step of one of `t`'s parties on the shared state. -/
def State.apply (s : State) (t : Nat) : Effect → State
  | .none => s
  | .touch => { s with log := .touched t :: s.log }
  | .free => { s with free := s.desc t :: s.free, log := .freed t :: s.log }
  | .wake p => { s.wait p { s.waiter p with state := .running } with log := .woke t p :: s.log }
  | .send p => s.wait p { s.waiter p with message := true }
  | .sleep =>
      { s.wait t { s.waiter t with state := .spinning } with log := .touched t :: s.log }
  | .block => { s.wait t { s.waiter t with state := .blocked } with log := .touched t :: s.log }
  | .receive => s.wait t { s.waiter t with message := false }

/-- Write back the descriptor of `t`. -/
def State.write (s : State) (t : Nat) (r : Descriptor) : State :=
  { s with heap := Function.update s.heap (s.desc t) r }

def State.goto (s : State) (t : Nat) (b : Body) : State :=
  { s with body := Function.update s.body t b }

def State.call (s : State) (t : Nat) (c : Client) : State :=
  { s with client := Function.update s.client t c }

/-- Give `t` its descriptor. -/
def State.assign (s : State) (t d : Nat) : State :=
  { s with desc := Function.update s.desc t d }.goto t .init

/-- A step of `cthread_alloc` and of the creation in `cthread_fork`, or of `cthread_body`. -/
def advance (s : State) (t address : Nat) : Option State :=
  match s.body t with
  | .allocPop =>
      match s.free with
      | [] => some (s.goto t .allocNew)
      | d :: rest => some ({ s with free := rest }.assign t d)
  | .allocNew =>
      if address ∈ s.allocated then none
      else some ({ s with allocated := address :: s.allocated }.assign t address)
  | .init => some (((s.write t {}).goto t .queued).apply t .touch)
  | b => (bodyNext (fun p => (s.waiter p).state) b (s.heap (s.desc t))).map fun (b, r, effect) =>
      ((s.write t r).goto t b).apply t effect

def step (s : State) : Label → Option State
  | .fork t =>
      if s.body t = .none then
        some (s.goto t (if s.free = [] then .allocNew else .allocPop))
      else none
  | .next t address => advance s t address
  | .returns t value exit =>
      if s.body t = .running then
        some (((s.write t { s.heap (s.desc t) with result := value }).goto t
          (if exit then .exitTest else .lock)).apply t .touch
          |> fun s => { s with log := .returned t value :: s.log })
      else none
  | .join t =>
      if (s.body t).started ∧ s.client t = .none then some (s.call t .joinLock) else none
  | .detach t =>
      if (s.body t).started ∧ s.client t = .none then some (s.call t .detachLock) else none
  | .client t recheck =>
      (clientNext t recheck (s.waiter t) (s.client t) (s.heap (s.desc t))).map
        fun (c, r, effect) =>
          let s := ((s.write t r).call t c).apply t effect
          match c with
          | .joined value => { s with log := .joined t value :: s.log }
          | _ => s

def machine : Machine State Label where
  init s := s = {}
  step := step

/-! ## What the parties of a cthread owe each other -/

/-- The parties of `t` are done with it, or cannot go on. -/
def Settled (s : State) (t : Nat) : Prop :=
  (s.body t = .freed ∨ s.body t = .signalled) ∧ s.client t ≠ .none ∧
    ∀ recheck, step s (.client t recheck) = none

/-- Every descriptor is freed at most once, and once when its cthread has ended and the call
for it has; nobody touches it afterwards, no signal reaches the caller that waits for another
cthread, and a join returns what the function returned. -/
structure Disciplined (s : State) : Prop where
  atMostOnce : ∀ t, s.log.count (.freed t) ≤ 1
  exactlyOnce : ∀ t, Settled s t → s.log.count (.freed t) = 1
  untouched : s.log.Pairwise fun newer older => ∀ t, newer = .touched t → older ≠ .freed t
  ownSignal : ∀ t p, .woke t p ∈ s.log → p = t
  value : ∀ t v, .joined t v ∈ s.log →
    .returned t v ∈ s.log ∧ ∀ w, .returned t w ∈ s.log → w = v

/-- `cthread_join` and `cthread_detach` do not free the descriptor while `cthread_body` is
between the release of `t->lock` and the end of `condition_signal(&t->done)`, and the second look
of `condition_wait` at the waiter's state is not between the read and the write of it in
`cproc_continue`. -/
def Ordered (s : State) : Label → Prop
  | .client t recheck =>
      match s.client t with
      | .joinFree _ | .detachFree => s.body t ≠ .signalTest ∧ s.body t ≠ .signalDeq
      | .spin => recheck = true → ∀ u oldState, s.body u ≠ .setRunning t oldState
      | _ => True
  | _ => True

/-! ## The two parties of one cthread -/

/-- `cthread_body` holds `t->lock`. -/
@[simp, grind =] def Body.holds : Body → Bool
  | .test | .unlockFree | .unlockSignal => true
  | _ => false

/-- `cthread_body` has set `T_RETURNED`. -/
@[simp, grind =] def Body.returned : Body → Bool
  | .unlockSignal | .signalTest | .signalDeq | .readState _ | .setRunning _ _ | .send _
  | .signalled => true
  | _ => false

/-- `cthread_body` has found `T_DETACHED`. -/
@[simp, grind =] def Body.freeing : Body → Bool
  | .unlockFree | .free | .freed => true
  | _ => false

/-- `cthread_body` is in `cproc_continue`. -/
@[simp, grind =] def Body.continues : Body → Bool
  | .readState _ | .setRunning _ _ | .send _ => true
  | _ => false

/-- The function of the cthread has not returned yet. -/
@[simp, grind =] def Body.early : Body → Bool
  | .none | .allocPop | .allocNew | .init | .queued | .running => true
  | _ => false

@[simp, grind =] def Client.holds : Client → Bool
  | .joinTest | .waitEnq | .waitUnlock | .joinRead | .joinUnlock _ | .detachTest
  | .detachUnlockFree | .detachUnlock => true
  | _ => false

/-- The caller is in the queue of `t->done`, or was taken from it and has not gone on. -/
@[simp, grind =] def Client.waiting : Client → Bool
  | .waitUnlock | .spin | .blocked => true
  | _ => false

/-- The call has set `T_DETACHED`. -/
@[simp, grind =] def Client.detaching : Client → Bool
  | .detachUnlock | .detached => true
  | _ => false

/-- The call has found `T_RETURNED`. -/
@[simp, grind =] def Client.freeing : Client → Bool
  | .joinRead | .joinUnlock _ | .joinFree _ | .joined _ | .detachUnlockFree | .detachFree
  | .detachFreed => true
  | _ => false

@[simp, grind =] def Client.freed : Client → Bool
  | .joined _ | .detachFreed => true
  | _ => false

/-- The state of a caller that nobody has woken. -/
@[simp, grind =] def Client.asleep : Client → CprocState
  | .blocked => .blocked
  | _ => .spinning

/-- What the waiting caller's entry in the queue of `t->done`, its state and its port are: it is
in the queue, or taken from it, or woken while it was blocked, or woken and sent a message if it
was. -/
def Queued (t : Nat) (b : Body) (c : Client) (done : List Nat) (w : Waiter) : Prop :=
  (done = [t] ∧ w = ⟨c.asleep, false⟩ ∧ b ≠ .signalled ∧ b.continues = false) ∨
    (done = [] ∧ w = ⟨c.asleep, false⟩ ∧ (b = .readState t ∨ b = .setRunning t c.asleep)) ∨
    (done = [] ∧ w = ⟨.running, false⟩ ∧ c = .blocked ∧ b = .send t) ∨
    (done = [] ∧ w = ⟨.running, c = .blocked⟩ ∧ b = .signalled)

/-- Both parties of cthread `t` and its descriptor agree while it is in use; `ret` says what
its function returned. -/
structure Agree (t : Nat) (ret : Nat → Prop) (b : Body) (c : Client) (r : Descriptor)
    (w : Waiter) : Prop where
  lock : r.lock = (b.holds || c.holds)
  exclusive : b.holds = true → c.holds = false
  returned : r.returned = b.returned
  detached : r.detached = c.detaching
  bodyFrees : b.freeing = true → c = .detached
  notDetached : b.returned = true → c.detaching = false
  clientFrees : c.freeing = true → b.returned = true ∧ b ≠ .unlockSignal
  enlists : c = .waitEnq → b.returned = false
  waits : c.waiting = true → Queued t b c r.done w
  noWaiter : c.waiting = false →
    r.done = [] ∧ b ≠ .signalDeq ∧ b.continues = false ∧ w.message = false
  stored : b.early = false → ret r.result
  carried : ∀ v, c = .joinUnlock v ∨ c = .joinFree v → ret v

section Local

variable {t : Nat} {ret : Nat → Prop} {b b' : Body} {c c' : Client} {r r' : Descriptor}
  {w : Waiter} {effect : Effect} {state : Nat → CprocState}

/-- The waiting caller after a step. -/
@[simp, grind =] def Effect.wakes (effect : Effect) (w : Waiter) : Waiter :=
  match effect with
  | .wake _ => { w with state := .running }
  | .send _ => { w with message := true }
  | .sleep => { w with state := .spinning }
  | .block => { w with state := .blocked }
  | .receive => { w with message := false }
  | _ => w

/-- The waiter that a step wakes. -/
@[simp] def Effect.target : Effect → Option Nat
  | .wake p | .send p => some p
  | _ => Option.none

theorem Agree.mono {ret' : Nat → Prop} (h : Agree t ret b c r w)
    (himp : ∀ v, ret v → ret' v) : Agree t ret' b c r w :=
  { h with
    stored := fun hlate => himp _ (h.stored hlate)
    carried := fun v hv => himp v (h.carried v hv) }

/-- `cthread_body` is in `cproc_continue` only for the caller that waits. -/
theorem Agree.continuing (h : Agree t ret b c r w) (hcont : b.continues = true) :
    c.waiting = true ∧ r.done = [] ∧ (w = ⟨c.asleep, false⟩ ∧
      (b = .readState t ∨ b = .setRunning t c.asleep) ∨
        w = ⟨.running, false⟩ ∧ c = .blocked ∧ b = .send t) := by
  have hwaiting : c.waiting = true := by
    rw [← Bool.not_eq_false]
    intro hwaiting
    rw [(h.noWaiter hwaiting).2.2.1] at hcont
    cases hcont
  refine ⟨hwaiting, ?_⟩
  rcases h.waits hwaiting with ⟨-, -, -, hno⟩ | ⟨hdone, hrest⟩ | ⟨hdone, hrest⟩ | ⟨-, -, rfl⟩
  · rw [hno] at hcont
    cases hcont
  · exact ⟨hdone, Or.inl hrest⟩
  · exact ⟨hdone, Or.inr hrest⟩
  · cases hcont

theorem Client.eq_detached (hdetaching : c.detaching = true) (hholds : c.holds = false) :
    c = .detached := by
  cases c <;> simp_all

theorem Agree.body (h : Agree t ret b c r w) (hstate : state t = w.state)
    (hnext : bodyNext state b r = some (b', r', effect)) (hfree : effect ≠ .free) :
    Agree t ret b' c r' (effect.wakes w) := by
  have hcontinuing := h.continuing
  obtain ⟨hlock, hexclusive, hreturned, hdetached, hbody, hnot, hclient, henlists, hwaits, hnone,
    hstored, hcarried⟩ := h
  cases b with
  | queued | exitTest | unlockFree | unlockSignal =>
      cases hnext
      constructor <;> grind -ring -linarith [Queued]
  | lock =>
      simp only [bodyNext] at hnext
      split at hnext
      next => cases hnext
      next hopen =>
        cases hnext
        constructor <;> grind -ring -linarith [Queued]
  | test =>
      have hout : c.holds = false := hexclusive rfl
      simp only [bodyNext] at hnext
      split at hnext
      next hset =>
        cases hnext
        -- the detaching call has released the lock, so it has returned
        have hover : c = .detached := Client.eq_detached (hdetached ▸ hset) hout
        constructor <;> grind -ring -linarith [Queued]
      next hset =>
        cases hnext
        have henlist : c ≠ .waitEnq := by
          rintro rfl
          cases hout
        constructor <;> grind -ring -linarith [Queued]
  | free =>
      cases hnext
      exact absurd rfl hfree
  | signalTest =>
      cases hnext
      -- an empty queue means that nobody waits
      by_cases hempty : r.done = []
      · have hwaiting : c.waiting = false := by
          rw [Bool.eq_false_iff]
          intro hwaiting
          have hqueued := hwaits hwaiting
          simp_all [Queued]
        rw [if_pos hempty]
        constructor <;> grind -ring -linarith [Queued]
      · have hwaiting : c.waiting = true := by
          rw [← Bool.not_eq_false]
          intro hwaiting
          exact hempty (hnone hwaiting).1
        rw [if_neg hempty]
        constructor <;> grind -ring -linarith [Queued]
  | signalDeq =>
      have hwaiting : c.waiting = true := by
        rw [← Bool.not_eq_false]
        intro hwaiting
        exact (hnone hwaiting).2.1 rfl
      have hdone : r.done = [t] := by
        have hqueued := hwaits hwaiting
        simp_all [Queued]
      simp only [bodyNext, hdone, List.head?_cons, Option.elim_some, List.tail_cons] at hnext
      cases hnext
      constructor <;> grind -ring -linarith [Queued]
  | readState p =>
      obtain ⟨hwaiting, hdone, ⟨rfl, hplace | hplace⟩ | ⟨-, -, hplace⟩⟩ := hcontinuing rfl
      · cases hplace
        cases hnext
        rw [hstate]
        constructor <;> grind -ring -linarith [Queued]
      · cases hplace
      · cases hplace
  | setRunning p oldState =>
      obtain ⟨hwaiting, hdone, ⟨rfl, hplace | hplace⟩ | ⟨-, -, hplace⟩⟩ := hcontinuing rfl
      · cases hplace
      · cases hplace
        cases hnext
        cases c with
        | waitUnlock | spin | blocked => constructor <;> grind -ring -linarith [Queued]
        | _ => cases hwaiting
      · cases hplace
  | send p =>
      obtain ⟨hwaiting, hdone, ⟨rfl, hplace | hplace⟩ | ⟨rfl, rfl, hplace⟩⟩ := hcontinuing rfl
      · cases hplace
      · cases hplace
      · cases hplace
        cases hnext
        constructor <;> grind -ring -linarith [Queued]
  | none | allocPop | allocNew | init | running | freed | signalled => cases hnext

theorem Agree.wake_own {p : Nat} (h : Agree t ret b c r w)
    (hnext : bodyNext state b r = some (b', r', effect)) (htarget : effect.target = some p) :
    p = t := by
  have hplace : (∃ oldState, b = .setRunning p oldState) ∨ b = .send p := by
    cases b with
    | setRunning q oldState =>
        cases hnext
        cases htarget
        exact Or.inl ⟨oldState, rfl⟩
    | send q =>
        cases hnext
        cases htarget
        exact Or.inr rfl
    | lock | test =>
        simp only [bodyNext] at hnext
        split at hnext <;> cases hnext <;> cases htarget
    | _ => cases hnext <;> cases htarget
  have hcontinues : b.continues = true := by
    rcases hplace with ⟨oldState, rfl⟩ | rfl <;> rfl
  obtain ⟨-, -, ⟨-, hown | hown⟩ | ⟨-, -, hown⟩⟩ := h.continuing hcontinues <;> grind

/-- What a step of `cthread_body` leaves: it frees only from `free`, and it stays started. -/
theorem bodyNext_kind (hnext : bodyNext state b r = some (b', r', effect)) :
    (effect = .free ↔ b = .free ∧ b' = .freed) ∧ (b' = .freed → effect = .free) ∧
      b'.started = true ∧ (b'.early = true → b.early = true) := by
  cases b with
  | lock | test =>
      simp only [bodyNext] at hnext
      split at hnext <;> cases hnext <;> simp [Body.started]
  | signalTest | setRunning =>
      cases hnext
      split <;> simp [Body.started]
  | signalDeq =>
      cases hnext
      cases r.done <;> simp [Body.started]
  | _ => cases hnext <;> simp [Body.started]

theorem Agree.client {recheck : Bool} (h : Agree t ret b c r w)
    (hnext : clientNext t recheck w c r = some (c', r', effect)) (hfree : effect ≠ .free)
    (hordered : c = .spin → recheck = true → ∀ oldState, b ≠ .setRunning t oldState) :
    Agree t ret b c' r' (effect.wakes w) := by
  obtain ⟨hlock, hexclusive, hreturned, hdetached, hbody, hnot, hclient, henlists, hwaits, hnone,
    hstored, hcarried⟩ := h
  cases c with
  | joinLock | detachLock =>
      simp only [clientNext] at hnext
      split at hnext
      next => cases hnext
      next hopen =>
        cases hnext
        constructor <;> grind -ring -linarith [Queued]
  | joinTest =>
      cases hnext
      cases hset : r.returned with
      | true =>
          -- `cthread_body` has released the lock, so it is on its way to the signal
          have hunlocked : b ≠ .unlockSignal := by
            rintro rfl
            cases hexclusive rfl
          constructor <;> grind -ring -linarith [Queued]
      | false =>
          constructor <;> grind -ring -linarith [Queued]
  | waitEnq =>
      cases hnext
      have hsignalled : b ≠ .signalled := by
        rintro rfl
        cases henlists rfl
      constructor <;> grind -ring -linarith [Queued]
  | waitUnlock | joinUnlock | detachUnlockFree | detachUnlock =>
      cases hnext
      constructor <;> grind -ring -linarith [Queued]
  | joinRead =>
      cases hnext
      have hlate : b.early = false := by
        have hset := (hclient rfl).1
        cases b <;> simp_all
      constructor <;> grind -ring -linarith [Queued]
  | spin =>
      simp only [clientNext] at hnext
      have hqueued := hwaits rfl
      split at hnext
      next hrunning =>
        have hsignalled : b = .signalled := by
          rcases hqueued with ⟨-, rfl, -⟩ | ⟨-, rfl, -⟩ | ⟨-, -, hc, -⟩ | ⟨-, -, hb⟩
          · cases hrunning
          · cases hrunning
          · cases hc
          · exact hb
        cases hnext
        cases recheck <;> constructor <;> grind -ring -linarith [Queued]
      next hasleep =>
        split at hnext
        next hlook =>
          cases hnext
          have hread := hordered rfl hlook
          constructor <;> grind -ring -linarith [Queued]
        next => cases hnext
  | blocked =>
      simp only [clientNext] at hnext
      have hqueued := hwaits rfl
      split at hnext
      next hmessage =>
        cases hnext
        constructor <;> grind -ring -linarith [Queued]
      next => cases hnext
  | detachTest =>
      simp only [clientNext] at hnext
      split at hnext
      next hset =>
        cases hnext
        have hunlocked : b ≠ .unlockSignal := by
          rintro rfl
          cases hexclusive rfl
        constructor <;> grind -ring -linarith
      next hset =>
        cases hnext
        constructor <;> grind -ring -linarith
  | joinFree | detachFree =>
      cases hnext
      exact absurd rfl hfree
  | none | joined | detachFreed | detached => cases hnext

/-- What a step of the call leaves: it frees only from `joinFree` and `detachFree`. -/
theorem clientNext_kind {recheck : Bool}
    (hnext : clientNext t recheck w c r = some (c', r', effect)) :
    (effect = .free ↔ c'.freed = true) ∧ (effect = .free → c = .detachFree ∨ ∃ v, c = .joinFree v) ∧
      (∀ v, c' = .joined v → c = .joinFree v) ∧
      (c.freed = false ∧ c ≠ .detached ∧ c ≠ .none) ∧ effect.target = Option.none := by
  cases c with
  | joinLock | detachLock | detachTest | blocked =>
      simp only [clientNext] at hnext
      split at hnext <;> cases hnext <;> simp
  | joinTest =>
      cases hnext
      split <;> simp
  | spin =>
      simp only [clientNext] at hnext
      split at hnext
      · cases hnext
        cases recheck <;> simp
      · split at hnext <;> cases hnext
        simp
  | _ => cases hnext <;> simp

/-- When the call frees the descriptor outside the window, `cthread_body` is done with it. -/
theorem Agree.signalled (h : Agree t ret b c r w)
    (hplace : c = .detachFree ∨ ∃ v, c = .joinFree v) (htest : b ≠ .signalTest) :
    b = .signalled := by
  have hfreeing : c.freeing = true ∧ c.waiting = false := by
    rcases hplace with rfl | ⟨v, rfl⟩ <;> exact ⟨rfl, rfl⟩
  obtain ⟨hreturned, hunlock⟩ := h.clientFrees hfreeing.1
  obtain ⟨-, hdeq, hcontinues, -⟩ := h.noWaiter hfreeing.2
  cases b <;> simp_all

/-- When `cthread_body` is done, the call can go on until it has freed the descriptor. -/
theorem Agree.progress (h : Agree t ret .signalled c r w) (hcalled : c ≠ .none)
    (hfreed : c.freed = false) :
    ∃ recheck, (clientNext t recheck w c r).isSome = true := by
  refine ⟨true, ?_⟩
  have hlock := h.lock
  have hwaits := h.waits
  have hdetach := h.notDetached rfl
  cases c with
  | joinLock | detachLock =>
      simp only [Body.holds, Client.holds, Bool.or_self] at hlock
      simp [clientNext, hlock]
  | blocked =>
      have hqueued := hwaits rfl
      simp_all [clientNext, Queued]
  | spin =>
      simp only [clientNext]
      split <;> rfl
  | detachTest =>
      simp only [clientNext]
      split <;> rfl
  | detachUnlock | detached => cases hdetach
  | none => exact absurd rfl hcalled
  | joined | detachFreed => cases hfreed
  | _ => rfl

theorem Agree.call (h : Agree t ret b .none r w) (hc : c = .joinLock ∨ c = .detachLock) :
    Agree t ret b c r w := by
  obtain ⟨hlock, hexclusive, hreturned, hdetached, hbody, hnot, hclient, henlists, hwaits, hnone,
    hstored, hcarried⟩ := h
  rcases hc with rfl | rfl <;> constructor <;> grind

theorem Agree.return {value : Nat} (h : Agree t ret .running c r w) (hvalue : ret value)
    (hb : b = .exitTest ∨ b = .lock) : Agree t ret b c { r with result := value } w := by
  obtain ⟨hlock, hexclusive, hreturned, hdetached, hbody, hnot, hclient, henlists, hwaits, hnone,
    hstored, hcarried⟩ := h
  rcases hb with rfl | rfl <;> constructor <;> grind [Queued]

theorem agree_initial (hmessage : w.message = false) : Agree t ret .queued .none {} w := by
  constructor <;> grind

end Local

/-! ## The log -/

/-- What the log says about the cthreads that are `dead`, because their descriptor was freed,
or `early`, because their function has not returned. -/
structure Recorded (log : List Event) (dead early : Nat → Prop) : Prop where
  once : ∀ t, dead t → log.count (.freed t) = 1
  kept : ∀ t, ¬ dead t → .freed t ∉ log
  untouched : log.Pairwise fun newer older => ∀ t, newer = .touched t → older ≠ .freed t
  ownSignal : ∀ t p, .woke t p ∈ log → p = t
  pending : ∀ t, early t → ∀ v, .returned t v ∉ log
  single : ∀ t v w, .returned t v ∈ log → .returned t w ∈ log → w = v
  joined : ∀ t v, .joined t v ∈ log → .returned t v ∈ log

section Log

variable {log : List Event} {dead dead' early early' : Nat → Prop} {t : Nat}

theorem Recorded.congr (h : Recorded log dead early) (hdead : ∀ t, dead' t ↔ dead t)
    (hearly : ∀ t, early' t → early t) : Recorded log dead' early' :=
  ⟨fun t ht => h.once t ((hdead t).mp ht), fun t ht => h.kept t (fun hd => ht ((hdead t).mpr hd)),
    h.untouched, h.ownSignal, fun t ht => h.pending t (hearly t ht), h.single, h.joined⟩

theorem Recorded.cons {e : Event} (h : Recorded log dead early)
    (htouched : ∀ u, e = .touched u ∨ e = .freed u → ¬ dead u)
    (hwoke : ∀ u p, e = .woke u p → p = u) (hreturned : ∀ u v, e = .returned u v → early u)
    (hjoined : ∀ u v, e = .joined u v → .returned u v ∈ log)
    (hdead : ∀ u, dead' u ↔ dead u ∨ e = .freed u)
    (hearly : ∀ u, early' u → early u ∧ ∀ v, e ≠ .returned u v) :
    Recorded (e :: log) dead' early' := by
  refine ⟨?_, ?_, List.pairwise_cons.mpr ⟨?_, h.untouched⟩, ?_, ?_, ?_, ?_⟩
  · intro u hu
    by_cases heq : e = .freed u
    · rw [heq, List.count_cons_self,
        List.count_eq_zero_of_not_mem (h.kept u (htouched u (Or.inr heq)))]
    · rw [List.count_cons_of_ne heq]
      exact h.once u (((hdead u).mp hu).resolve_right heq)
  · intro u hu hin
    rcases List.mem_cons.mp hin with heq | hin
    · exact hu ((hdead u).mpr (Or.inr heq.symm))
    · exact h.kept u (fun hd => hu ((hdead u).mpr (Or.inl hd))) hin
  · intro older holder u heq hfree
    exact h.kept u (htouched u (Or.inl heq)) (hfree ▸ holder)
  · intro u p hin
    rcases List.mem_cons.mp hin with heq | hin
    · exact hwoke u p heq.symm
    · exact h.ownSignal u p hin
  · intro u hu v hin
    obtain ⟨hu, hne⟩ := hearly u hu
    rcases List.mem_cons.mp hin with heq | hin
    · exact hne v heq.symm
    · exact h.pending u hu v hin
  · intro u v w hv hw
    rcases List.mem_cons.mp hv with hv | hv <;> rcases List.mem_cons.mp hw with hw | hw
    · cases hv.trans hw.symm
      rfl
    · exact absurd hw (h.pending u (hreturned u v hv.symm) w)
    · exact absurd hv (h.pending u (hreturned u w hw.symm) v)
    · exact h.single u v w hv hw
  · intro u v hin
    rcases List.mem_cons.mp hin with heq | hin
    · exact List.mem_cons_of_mem e (hjoined u v heq.symm)
    · exact List.mem_cons_of_mem e (h.joined u v hin)

end Log

/-! ## The invariant -/

/-- The cthread has been given a descriptor. -/
@[simp] def Body.assigned : Body → Bool
  | .none | .allocPop | .allocNew => false
  | _ => true

def Dead (s : State) (t : Nat) : Prop :=
  s.body t = .freed ∨ (s.client t).freed = true

def Owns (s : State) (t : Nat) : Prop :=
  (s.body t).assigned = true ∧ ¬ Dead s t

def Returned (s : State) (t v : Nat) : Prop :=
  .returned t v ∈ s.log

structure Inv (s : State) : Prop where
  nodup : s.free.Nodup
  subset : ∀ d ∈ s.free, d ∈ s.allocated
  owned : ∀ t, Owns s t → s.desc t ∈ s.allocated ∧ s.desc t ∉ s.free
  distinct : ∀ t u, Owns s t → Owns s u → s.desc t = s.desc u → t = u
  agree : ∀ t, Owns s t → (s.body t).started = true →
    Agree t (Returned s t) (s.body t) (s.client t) (s.heap (s.desc t)) (s.waiter t)
  ended : ∀ t, Dead s t → (s.body t = .freed ∧ s.client t = .detached) ∨
    (s.body t = .signalled ∧ (s.client t).freed = true)
  uncalled : ∀ t, (s.body t).started = false → s.client t = .none ∧ (s.waiter t).message = false
  recorded : Recorded s.log (Dead s) (fun t => (s.body t).early = true)

theorem Body.assigned_of_started {b : Body} (h : b.started = true) : b.assigned = true := by
  cases b <;> simp_all [Body.started]

/-- Only the parties of `t` and its descriptor change. -/
structure Frame (s s' : State) (t : Nat) : Prop where
  body : ∀ u, u ≠ t → s'.body u = s.body u
  client : ∀ u, u ≠ t → s'.client u = s.client u
  waiter : ∀ u, u ≠ t → s'.waiter u = s.waiter u
  desc : s'.desc = s.desc
  heap : ∀ d, d ≠ s.desc t → s'.heap d = s.heap d
  allocated : s'.allocated = s.allocated
  log : ∀ e ∈ s.log, e ∈ s'.log

section Steps

variable {s s' : State} {t : Nat}

theorem Frame.dead_iff (hframe : Frame s s' t) {u : Nat} (hne : u ≠ t) :
    Dead s' u ↔ Dead s u := by
  rw [Dead, Dead, hframe.body u hne, hframe.client u hne]

theorem Frame.owns_iff (hframe : Frame s s' t) {u : Nat} (hne : u ≠ t) :
    Owns s' u ↔ Owns s u := by
  rw [Owns, Owns, hframe.dead_iff hne, hframe.body u hne]

theorem Inv.agree_frame (h : Inv s) (hframe : Frame s s' t) (hown : Owns s t) {u : Nat}
    (hne : u ≠ t) (hu : Owns s' u) (hstarted : (s'.body u).started = true) :
    Agree u (Returned s' u) (s'.body u) (s'.client u) (s'.heap (s'.desc u)) (s'.waiter u) := by
  have hu := (hframe.owns_iff hne).mp hu
  rw [hframe.body u hne] at hstarted
  have hdesc : s.desc u ≠ s.desc t := fun heq => hne (h.distinct u t hu hown heq)
  have hagree := h.agree u hu hstarted
  rw [hframe.body u hne, hframe.client u hne, hframe.waiter u hne, hframe.desc,
    hframe.heap _ hdesc]
  exact hagree.mono (fun v hv => hframe.log _ hv)

theorem Inv.stay (h : Inv s) (hframe : Frame s s' t) (hfree : s'.free = s.free)
    (hown : Owns s t) (hown' : Owns s' t) (hstarted : (s'.body t).started = true)
    (hagree : Agree t (Returned s' t) (s'.body t) (s'.client t) (s'.heap (s'.desc t))
      (s'.waiter t))
    (hrecorded : Recorded s'.log (Dead s') (fun t => (s'.body t).early = true)) : Inv s' := by
  have howns : ∀ u, Owns s' u → Owns s u := by
    intro u hu
    by_cases hut : u = t
    · exact hut ▸ hown
    · exact (hframe.owns_iff hut).mp hu
  refine ⟨?_, ?_, ?_, ?_, ?_, ?_, ?_, hrecorded⟩
  · rw [hfree]
    exact h.nodup
  · rw [hfree, hframe.allocated]
    exact h.subset
  · intro u hu
    rw [hframe.desc, hframe.allocated, hfree]
    exact h.owned u (howns u hu)
  · intro u v hu hv
    rw [hframe.desc]
    exact h.distinct u v (howns u hu) (howns v hv)
  · intro u hu hstarted
    by_cases hut : u = t
    · subst hut
      exact hagree
    · exact h.agree_frame hframe hown hut hu hstarted
  · intro u hu
    by_cases hut : u = t
    · exact absurd (hut ▸ hu) hown'.2
    · rw [hframe.body u hut, hframe.client u hut]
      exact h.ended u ((hframe.dead_iff hut).mp hu)
  · intro u hu
    by_cases hut : u = t
    · rw [hut, hstarted] at hu
      cases hu
    · rw [hframe.client u hut, hframe.waiter u hut]
      rw [hframe.body u hut] at hu
      exact h.uncalled u hu

theorem Inv.release (h : Inv s) (hframe : Frame s s' t) (hfree : s'.free = s.desc t :: s.free)
    (hown : Owns s t)
    (hended : (s'.body t = .freed ∧ s'.client t = .detached) ∨
      (s'.body t = .signalled ∧ (s'.client t).freed = true))
    (hrecorded : Recorded s'.log (Dead s') (fun t => (s'.body t).early = true)) : Inv s' := by
  have hdead : Dead s' t := by
    rcases hended with ⟨hfreed, -⟩ | ⟨-, hfreed⟩
    · exact Or.inl hfreed
    · exact Or.inr hfreed
  have hneq : ∀ u, Owns s' u → u ≠ t := by
    rintro u hu rfl
    exact hu.2 hdead
  have howns : ∀ u, Owns s' u → Owns s u := fun u hu => (hframe.owns_iff (hneq u hu)).mp hu
  refine ⟨?_, ?_, ?_, ?_, ?_, ?_, ?_, hrecorded⟩
  · rw [hfree]
    exact List.nodup_cons.mpr ⟨(h.owned t hown).2, h.nodup⟩
  · rw [hfree, hframe.allocated]
    intro d hd
    rcases List.mem_cons.mp hd with rfl | hd
    · exact (h.owned t hown).1
    · exact h.subset d hd
  · intro u hu
    have hold := h.owned u (howns u hu)
    rw [hframe.desc, hframe.allocated, hfree]
    refine ⟨hold.1, List.not_mem_cons_of_ne_of_not_mem ?_ hold.2⟩
    exact fun heq => hneq u hu (h.distinct u t (howns u hu) hown heq)
  · intro u v hu hv
    rw [hframe.desc]
    exact h.distinct u v (howns u hu) (howns v hv)
  · intro u hu hstarted
    exact h.agree_frame hframe hown (hneq u hu) hu hstarted
  · intro u hu
    by_cases hut : u = t
    · rw [hut]
      exact hended
    · rw [hframe.body u hut, hframe.client u hut]
      exact h.ended u ((hframe.dead_iff hut).mp hu)
  · intro u hu
    by_cases hut : u = t
    · rw [hut] at hu
      rcases hended with ⟨heq, -⟩ | ⟨heq, -⟩ <;> rw [heq] at hu <;> cases hu
    · rw [hframe.client u hut, hframe.waiter u hut]
      rw [hframe.body u hut] at hu
      exact h.uncalled u hu

/-- A step of `cthread_alloc`: `t` has no descriptor yet, or gets one that nobody owns. -/
theorem Inv.prepare (h : Inv s) (hold : (s.body t).assigned = false)
    (hnew : (s'.body t).started = false) (hbody : ∀ u, u ≠ t → s'.body u = s.body u)
    (hdesc : ∀ u, u ≠ t → s'.desc u = s.desc u)
    (hsame : s'.client = s.client ∧ s'.heap = s.heap ∧ s'.waiter = s.waiter ∧ s'.log = s.log)
    (hnodup : s'.free.Nodup) (hsubset : ∀ d ∈ s'.free, d ∈ s.free)
    (hgrow : ∀ d ∈ s.allocated, d ∈ s'.allocated)
    (howner : (s'.body t).assigned = true → s'.desc t ∈ s'.allocated ∧ s'.desc t ∉ s'.free ∧
      ∀ u, Owns s u → s.desc u ≠ s'.desc t) : Inv s' := by
  obtain ⟨hclient, hheap, hwaiter, hlog⟩ := hsame
  have hstarted : (s.body t).started = false := by
    cases hb : s.body t <;> simp_all [Body.started]
  have hearly : (s.body t).early = true := by
    cases hb : s.body t <;> simp_all
  have halive : s.body t ≠ .freed ∧ s'.body t ≠ .freed := by
    constructor
    · intro heq
      rw [heq] at hstarted
      cases hstarted
    · intro heq
      rw [heq] at hnew
      cases hnew
  have hdead : ∀ u, Dead s' u ↔ Dead s u := by
    intro u
    rw [Dead, Dead, hclient]
    by_cases hut : u = t
    · subst hut
      simp only [halive.1, halive.2]
    · rw [hbody u hut]
  have howns : ∀ u, u ≠ t → Owns s' u → Owns s u := by
    rintro u hut ⟨hassigned, hlive⟩
    rw [hbody u hut] at hassigned
    exact ⟨hassigned, fun hd => hlive ((hdead u).mpr hd)⟩
  refine ⟨hnodup, fun d hd => hgrow d (h.subset d (hsubset d hd)), ?_, ?_, ?_, ?_, ?_, ?_⟩
  · intro u hu
    by_cases hut : u = t
    · subst hut
      exact ⟨(howner hu.1).1, (howner hu.1).2.1⟩
    · rw [hdesc u hut]
      obtain ⟨hin, hnot⟩ := h.owned u (howns u hut hu)
      exact ⟨hgrow _ hin, fun hfree => hnot (hsubset _ hfree)⟩
  · intro u v hu hv heq
    by_cases hut : u = t <;> by_cases hvt : v = t
    · rw [hut, hvt]
    · subst hut
      rw [hdesc v hvt] at heq
      exact absurd heq.symm ((howner hu.1).2.2 v (howns v hvt hv))
    · subst hvt
      rw [hdesc u hut] at heq
      exact absurd heq ((howner hv.1).2.2 u (howns u hut hu))
    · rw [hdesc u hut, hdesc v hvt] at heq
      exact h.distinct u v (howns u hut hu) (howns v hvt hv) heq
  · intro u hu hstart
    have hut : u ≠ t := by
      rintro rfl
      rw [hnew] at hstart
      cases hstart
    rw [hbody u hut] at hstart
    have hagree := h.agree u (howns u hut hu) hstart
    unfold Returned at hagree ⊢
    rw [hbody u hut, hdesc u hut, hclient, hheap, hwaiter, hlog]
    exact hagree
  · intro u hu
    have hended := h.ended u ((hdead u).mp hu)
    have hut : u ≠ t := by
      rintro rfl
      rcases hended with ⟨heq, -⟩ | ⟨heq, -⟩ <;> rw [heq] at hold <;> cases hold
    rw [hbody u hut, hclient]
    exact hended
  · intro u hu
    rw [hclient, hwaiter]
    by_cases hut : u = t
    · exact hut ▸ h.uncalled t hstarted
    · rw [hbody u hut] at hu
      exact h.uncalled u hu
  · rw [hlog]
    refine h.recorded.congr hdead ?_
    intro u hu
    by_cases hut : u = t
    · exact hut ▸ hearly
    · rwa [hbody u hut] at hu

theorem Inv.seek {b : Body} (h : Inv s) (hold : (s.body t).assigned = false)
    (hnew : b.assigned = false) : Inv (s.goto t b) := by
  have hself : (s.goto t b).body t = b := Function.update_self _ _ _
  refine h.prepare hold ?_ (fun u hne => Function.update_of_ne hne _ _) (fun _ _ => rfl)
    ⟨rfl, rfl, rfl, rfl⟩ h.nodup (fun _ hd => hd) (fun _ hd => hd) ?_
  · rw [hself]
    cases b <;> simp_all [Body.started]
  · intro hassigned
    rw [hself, hnew] at hassigned
    cases hassigned

theorem Inv.assign {d : Nat} {free allocated : List Nat} (h : Inv s)
    (hold : (s.body t).assigned = false) (hnodup : free.Nodup) (hsubset : ∀ e ∈ free, e ∈ s.free)
    (hgrow : ∀ e ∈ s.allocated, e ∈ allocated) (hd : d ∈ allocated ∧ d ∉ free)
    (hunowned : ∀ u, Owns s u → s.desc u ≠ d) :
    Inv ({ s with free := free, allocated := allocated }.assign t d) := by
  set s' := ({ s with free := free, allocated := allocated } : State).assign t d
  have hself : s'.body t = .init := Function.update_self _ _ _
  have hdesc : s'.desc t = d := Function.update_self _ _ _
  refine @Inv.prepare s s' t h hold ?_ (fun u hne => Function.update_of_ne hne _ _)
    (fun u hne => Function.update_of_ne hne _ _) ⟨rfl, rfl, rfl, rfl⟩ hnodup hsubset hgrow ?_
  · rw [hself]
    rfl
  · intro _
    rw [hdesc]
    exact ⟨hd.1, hd.2, hunowned⟩

@[simp] theorem State.apply_body (s : State) (t : Nat) (effect : Effect) :
    (s.apply t effect).body = s.body := by
  cases effect <;> rfl

@[simp] theorem State.apply_client (s : State) (t : Nat) (effect : Effect) :
    (s.apply t effect).client = s.client := by
  cases effect <;> rfl

@[simp] theorem State.apply_desc (s : State) (t : Nat) (effect : Effect) :
    (s.apply t effect).desc = s.desc := by
  cases effect <;> rfl

@[simp] theorem State.apply_heap (s : State) (t : Nat) (effect : Effect) :
    (s.apply t effect).heap = s.heap := by
  cases effect <;> rfl

@[simp] theorem State.apply_allocated (s : State) (t : Nat) (effect : Effect) :
    (s.apply t effect).allocated = s.allocated := by
  cases effect <;> rfl

@[simp] theorem State.apply_dead (s : State) (t u : Nat) (effect : Effect) :
    Dead (s.apply t effect) u ↔ Dead s u := by
  rw [Dead, Dead, State.apply_body, State.apply_client]

theorem State.apply_free {effect : Effect} (hfree : effect ≠ .free) :
    (s.apply t effect).free = s.free := by
  cases effect with
  | free => exact absurd rfl hfree
  | _ => rfl

theorem State.mem_apply_log (s : State) (t : Nat) (effect : Effect) :
    ∀ e ∈ s.log, e ∈ (s.apply t effect).log := by
  intro e he
  cases effect with
  | none | send | receive => exact he
  | _ => exact List.mem_cons_of_mem _ he

theorem State.apply_waiter {effect : Effect} (hwake : ∀ p, effect.target = some p → p = t)
    (u : Nat) : (s.apply t effect).waiter u =
      if u = t then effect.wakes (s.waiter t) else s.waiter u := by
  cases effect with
  | wake p | send p =>
      obtain rfl := hwake p rfl
      simp only [State.apply, State.wait, Function.update_apply, Effect.wakes]
  | sleep | block | receive =>
      simp only [State.apply, State.wait, Function.update_apply, Effect.wakes]
  | none | touch | free =>
      simp only [State.apply, Effect.wakes]
      split
      next heq => rw [heq]
      next => rfl

theorem Frame.apply {effect : Effect} (hframe : Frame s s' t)
    (hwake : ∀ p, effect.target = some p → p = t) : Frame s (s'.apply t effect) t := by
  refine ⟨?_, ?_, ?_, ?_, ?_, ?_, ?_⟩
  · simpa using hframe.body
  · simpa using hframe.client
  · intro u hne
    rw [State.apply_waiter hwake, if_neg hne]
    exact hframe.waiter u hne
  · simpa using hframe.desc
  · simpa using hframe.heap
  · simpa using hframe.allocated
  · intro e he
    exact s'.mem_apply_log t effect e (hframe.log e he)

theorem Inv.recorded_apply {effect : Effect} (h : Inv s) (hlog : s'.log = s.log)
    (halive : ¬ Dead s t) (hwake : ∀ p, effect.target = some p → p = t)
    (hdead : ∀ u, Dead s' u ↔ Dead s u ∨ (effect = .free ∧ u = t))
    (hearly : ∀ u, (s'.body u).early = true → (s.body u).early = true) :
    Recorded (s'.apply t effect).log (Dead (s'.apply t effect))
      (fun u => ((s'.apply t effect).body u).early = true) := by
  have hdead' : ∀ u, Dead (s'.apply t effect) u ↔ Dead s u ∨ (effect = .free ∧ u = t) := by
    intro u
    rw [← hdead u, State.apply_dead]
  have hearly' : ∀ u, ((s'.apply t effect).body u).early = true → (s.body u).early = true := by
    intro u
    rw [State.apply_body]
    exact hearly u
  have hrecorded := h.recorded
  rw [← hlog] at hrecorded
  cases effect with
  | none | send | receive => exact hrecorded.congr (fun u => by simpa using hdead' u) hearly'
  | touch | sleep | block =>
      refine @Recorded.cons s'.log (Dead s) _ _ _ (.touched t) hrecorded ?_ nofun nofun nofun ?_
        (fun u hu => ⟨hearly' u hu, nofun⟩)
      · rintro u (heq | heq) <;> cases heq
        exact halive
      · intro u
        simpa using hdead' u
  | free =>
      refine @Recorded.cons s'.log (Dead s) _ _ _ (.freed t) hrecorded ?_ nofun nofun nofun ?_
        (fun u hu => ⟨hearly' u hu, nofun⟩)
      · rintro u (heq | heq) <;> cases heq
        exact halive
      · intro u
        simpa [eq_comm] using hdead' u
  | wake p =>
      refine @Recorded.cons s'.log (Dead s) _ _ _ (.woke t p) hrecorded ?_ ?_ nofun nofun ?_
        (fun u hu => ⟨hearly' u hu, nofun⟩)
      · rintro u (heq | heq) <;> cases heq
      · intro u q heq
        cases heq
        exact hwake p rfl
      · intro u
        simpa using hdead' u

theorem Inv.owns_of_started (h : Inv s) (hstarted : (s.body t).started = true)
    (hlive : (s.body t ≠ .freed ∧ s.body t ≠ .signalled) ∨
      ((s.client t).freed = false ∧ s.client t ≠ .detached)) : Owns s t := by
  refine ⟨Body.assigned_of_started hstarted, ?_⟩
  intro hdead
  rcases h.ended t hdead with ⟨hbody, hclient⟩ | ⟨hbody, hclient⟩
  · rcases hlive with ⟨hfreed, -⟩ | ⟨-, hdetached⟩
    · exact hfreed hbody
    · exact hdetached hclient
  · rcases hlive with ⟨-, hsignalled⟩ | ⟨hfreed, -⟩
    · exact hsignalled hbody
    · rw [hfreed] at hclient
      cases hclient

theorem frame_goto (s : State) (t : Nat) (r : Descriptor) (b : Body) :
    Frame s ((s.write t r).goto t b) t :=
  ⟨fun _ hne => Function.update_of_ne hne _ _, fun _ _ => rfl, fun _ _ => rfl, rfl,
    fun _ hne => Function.update_of_ne hne _ _, rfl, fun _ he => he⟩

theorem frame_call (s : State) (t : Nat) (r : Descriptor) (c : Client) :
    Frame s ((s.write t r).call t c) t :=
  ⟨fun _ _ => rfl, fun _ hne => Function.update_of_ne hne _ _, fun _ _ => rfl, rfl,
    fun _ hne => Function.update_of_ne hne _ _, rfl, fun _ he => he⟩

theorem Inv.bodyStep {b : Body} {r : Descriptor} {effect : Effect} (h : Inv s)
    (hstarted : (s.body t).started = true)
    (hnext : bodyNext (fun p => (s.waiter p).state) (s.body t) (s.heap (s.desc t)) =
      some (b, r, effect)) :
    Inv (((s.write t r).goto t b).apply t effect) := by
  have hlive : s.body t ≠ .freed ∧ s.body t ≠ .signalled := by
    constructor <;> intro heq <;> rw [heq] at hnext <;> cases hnext
  have hown : Owns s t := h.owns_of_started hstarted (Or.inl hlive)
  have hagree := h.agree t hown hstarted
  have hwake : ∀ p, effect.target = some p → p = t := fun p => hagree.wake_own hnext
  have hframe := (frame_goto s t r b).apply hwake
  have hbody : (((s.write t r).goto t b).apply t effect).body t = b := by
    rw [State.apply_body]
    exact Function.update_self _ _ _
  have hclient : (((s.write t r).goto t b).apply t effect).client t = s.client t := by
    rw [State.apply_client]
    rfl
  have hnotFreed : (s.client t).freed = false := by
    rw [Bool.eq_false_iff]
    exact fun hfreed => hown.2 (Or.inr hfreed)
  have hkind := bodyNext_kind hnext
  have hdead : Dead (((s.write t r).goto t b).apply t effect) t ↔ effect = .free := by
    rw [Dead, hbody, hclient, hnotFreed]
    constructor
    · rintro (hfreed | hfreed)
      · exact hkind.2.1 hfreed
      · cases hfreed
    · intro hfree
      exact Or.inl (hkind.1.mp hfree).2
  have hrecorded := @Inv.recorded_apply s ((s.write t r).goto t b) t effect h rfl hown.2 hwake
    ?_ ?_
  · by_cases hfree : effect = .free
    · obtain ⟨hfrom, hto⟩ := hkind.1.mp hfree
      refine h.release hframe ?_ hown (Or.inl ⟨hbody.trans hto, ?_⟩) hrecorded
      · rw [hfree]
        rfl
      · rw [hclient]
        exact hagree.bodyFrees (by rw [hfrom]; rfl)
    · refine h.stay hframe (State.apply_free hfree) hown ⟨?_, ?_⟩ ?_ ?_ hrecorded
      · rw [hbody]
        exact Body.assigned_of_started hkind.2.2.1
      · exact fun hd => hfree (hdead.mp hd)
      · rw [hbody]
        exact hkind.2.2.1
      · have hnew := hagree.body rfl hnext hfree
        rw [hbody, hclient, State.apply_waiter hwake, if_pos rfl, State.apply_heap,
          State.apply_desc]
        have hheap : ((s.write t r).goto t b).heap (s.desc t) = r := Function.update_self _ _ _
        exact hheap.symm ▸ hnew.mono (fun v hv => hframe.log _ hv)
  · intro u
    by_cases hut : u = t
    · subst hut
      rw [State.apply_dead] at hdead
      simp only [hdead, hown.2, and_true, false_or]
    · simp only [hut, and_false, or_false]
      exact (frame_goto s t r b).dead_iff hut
  · intro u hu
    by_cases hut : u = t
    · subst hut
      rw [← State.apply_body _ u effect, hbody] at hu
      exact hkind.2.2.2 hu
    · rwa [(frame_goto s t r b).body u hut] at hu

theorem Inv.clientStep {recheck : Bool} {c : Client} {r : Descriptor} {effect : Effect} (h : Inv s)
    (hnext : clientNext t recheck (s.waiter t) (s.client t) (s.heap (s.desc t)) =
      some (c, r, effect))
    (hwindow : effect = .free → s.body t ≠ .signalTest)
    (hordered : s.client t = .spin → recheck = true →
      ∀ oldState, s.body t ≠ .setRunning t oldState) :
    Inv (((s.write t r).call t c).apply t effect) := by
  obtain ⟨hfreed, hplace, -, hlive, hnowake⟩ := clientNext_kind hnext
  have hstarted : (s.body t).started = true := by
    rw [← Bool.not_eq_false]
    exact fun hnot => hlive.2.2 (h.uncalled t hnot).1
  have hown : Owns s t := h.owns_of_started hstarted (Or.inr ⟨hlive.1, hlive.2.1⟩)
  have hagree := h.agree t hown hstarted
  have hwake : ∀ p, effect.target = some p → p = t := fun p heq =>
    absurd (hnowake.symm.trans heq) nofun
  have hframe := (frame_call s t r c).apply hwake
  have hbody : (((s.write t r).call t c).apply t effect).body t = s.body t := by
    rw [State.apply_body]
    rfl
  have hclient : (((s.write t r).call t c).apply t effect).client t = c := by
    rw [State.apply_client]
    exact Function.update_self _ _ _
  have hnotFreed : s.body t ≠ .freed := fun hfreed => hown.2 (Or.inl hfreed)
  have hdead : Dead (((s.write t r).call t c).apply t effect) t ↔ effect = .free := by
    rw [Dead, hbody, hclient, hfreed]
    exact or_iff_right hnotFreed
  have hrecorded := @Inv.recorded_apply s ((s.write t r).call t c) t effect h rfl hown.2 hwake
    ?_ (fun _ hu => hu)
  · by_cases hfree : effect = .free
    · refine h.release hframe ?_ hown (Or.inr ⟨hbody.trans ?_, ?_⟩) hrecorded
      · rw [hfree]
        rfl
      · exact hagree.signalled (hplace hfree) (hwindow hfree)
      · rw [hclient]
        exact hfreed.mp hfree
    · refine h.stay hframe (State.apply_free hfree) hown ⟨?_, ?_⟩ ?_ ?_ hrecorded
      · rw [hbody]
        exact hown.1
      · exact fun hd => hfree (hdead.mp hd)
      · rw [hbody]
        exact hstarted
      · have hnew := hagree.client hnext hfree hordered
        rw [hbody, hclient, State.apply_waiter hwake, if_pos rfl, State.apply_heap,
          State.apply_desc]
        have hheap : ((s.write t r).call t c).heap (s.desc t) = r := Function.update_self _ _ _
        exact hheap.symm ▸ hnew.mono (fun v hv => hframe.log _ hv)
  · intro u
    by_cases hut : u = t
    · subst hut
      rw [State.apply_dead] at hdead
      simp only [hdead, hown.2, and_true, false_or]
    · simp only [hut, and_false, or_false]
      exact (frame_call s t r c).dead_iff hut

theorem Inv.recordJoined {value : Nat} (h : Inv s) (hvalue : .returned t value ∈ s.log) :
    Inv { s with log := .joined t value :: s.log } := by
  refine ⟨h.nodup, h.subset, h.owned, h.distinct, ?_, h.ended, h.uncalled, ?_⟩
  · intro u hu hstarted
    exact (h.agree u hu hstarted).mono (fun v hv => List.mem_cons_of_mem _ hv)
  · refine @Recorded.cons s.log (Dead s) _ _ _ (.joined t value) h.recorded ?_ nofun nofun ?_ ?_
      (fun u hu => ⟨hu, nofun⟩)
    · rintro u (heq | heq) <;> cases heq
    · intro u v heq
      cases heq
      exact hvalue
    · intro u
      exact (or_iff_left nofun).symm

theorem Inv.initialise (h : Inv s) (hinit : s.body t = .init) :
    Inv (((s.write t {}).goto t .queued).apply t .touch) := by
  obtain ⟨hclient, hmessage⟩ := h.uncalled t (by rw [hinit]; rfl)
  have hdead : ¬ Dead s t := by
    rintro (heq | heq)
    · rw [hinit] at heq
      cases heq
    · rw [hclient] at heq
      cases heq
  have hown : Owns s t := ⟨by rw [hinit]; rfl, hdead⟩
  have hbody : ((s.write t {}).goto t .queued).body t = .queued := Function.update_self _ _ _
  have hnotDead : ¬ Dead ((s.write t {}).goto t .queued) t := by
    rintro (heq | heq)
    · rw [hbody] at heq
      cases heq
    · exact hdead (Or.inr heq)
  have hframe := (@frame_goto s t {} .queued).apply (@nofun : ∀ p, Effect.touch.target = some p → p = t)
  refine h.stay hframe rfl hown ⟨?_, ?_⟩ ?_ ?_ (h.recorded_apply rfl hdead nofun ?_ ?_)
  · rw [State.apply_body, hbody]
    rfl
  · rwa [State.apply_dead]
  · rw [State.apply_body, hbody]
    rfl
  · have hheap : ((s.write t {}).goto t .queued).heap (s.desc t) = {} := Function.update_self _ _ _
    rw [State.apply_body, hbody, State.apply_client, State.apply_heap, State.apply_desc]
    have hcalls : ((s.write t {}).goto t .queued).client t = .none := hclient
    rw [hcalls]
    exact hheap.symm ▸ agree_initial hmessage
  · intro u
    by_cases hut : u = t
    · subst hut
      simp only [hnotDead, hdead, reduceCtorEq, false_and, or_false]
    · simp only [reduceCtorEq, false_and, or_false]
      exact (frame_goto s t {} .queued).dead_iff hut
  · intro u hu
    by_cases hut : u = t
    · rw [hut, hinit]
      rfl
    · rwa [(frame_goto s t {} .queued).body u hut] at hu

theorem Inv.advance {address : Nat} (h : Inv s) (hadvance : advance s t address = some s') :
    Inv s' := by
  cases hbody : s.body t with
  | allocPop =>
      have hold : (s.body t).assigned = false := by rw [hbody]; rfl
      simp only [Lifetime.advance, hbody] at hadvance
      cases hfree : s.free with
      | nil =>
          rw [hfree] at hadvance
          cases hadvance
          exact h.seek hold rfl
      | cons d rest =>
          rw [hfree] at hadvance
          cases hadvance
          have hnodup := h.nodup
          rw [hfree] at hnodup
          obtain ⟨hd, hrest⟩ := List.nodup_cons.mp hnodup
          have hin : d ∈ s.free := by rw [hfree]; exact List.mem_cons_self
          refine @Inv.assign s t d rest s.allocated h hold hrest ?_ (fun _ he => he)
            ⟨h.subset d hin, hd⟩ ?_
          · intro e he
            rw [hfree]
            exact List.mem_cons_of_mem d he
          · intro u hu heq
            exact (h.owned u hu).2 (heq ▸ hin)
  | allocNew =>
      have hold : (s.body t).assigned = false := by rw [hbody]; rfl
      simp only [Lifetime.advance, hbody] at hadvance
      split at hadvance
      next => cases hadvance
      next hfresh =>
        cases hadvance
        refine @Inv.assign s t address s.free (address :: s.allocated) h hold h.nodup
          (fun _ he => he) (fun _ he => List.mem_cons_of_mem _ he) ⟨List.mem_cons_self, ?_⟩ ?_
        · exact fun hfree => hfresh (h.subset address hfree)
        · intro u hu heq
          exact hfresh (heq ▸ (h.owned u hu).1)
  | init =>
      simp only [Lifetime.advance, hbody] at hadvance
      cases hadvance
      exact h.initialise hbody
  | none => simp [Lifetime.advance, hbody, bodyNext] at hadvance
  | _ =>
      have hstarted : (s.body t).started = true := by rw [hbody]; rfl
      simp only [Lifetime.advance, hbody] at hadvance
      rw [← hbody] at hadvance
      obtain ⟨⟨b, r, effect⟩, hnext, heq⟩ := Option.map_eq_some_iff.mp hadvance
      cases heq
      exact h.bodyStep hstarted hnext

theorem Inv.return {value : Nat} {b : Body} (h : Inv s) (hrunning : s.body t = .running)
    (hb : b = .exitTest ∨ b = .lock) :
    Inv { (((s.write t { s.heap (s.desc t) with result := value }).goto t b).apply t .touch) with
      log := .returned t value :: .touched t :: s.log } := by
  set r : Descriptor := { s.heap (s.desc t) with result := value } with hr
  set s' : State := { (((s.write t r).goto t b).apply t .touch) with
      log := .returned t value :: .touched t :: s.log } with hs'
  have hstarted : (s.body t).started = true := by rw [hrunning]; rfl
  have hown : Owns s t := h.owns_of_started hstarted
    (Or.inl (by rw [hrunning]; exact ⟨nofun, nofun⟩))
  have hbody : s'.body t = b := Function.update_self _ _ _
  have hkind : b.started = true ∧ b.assigned = true ∧ b ≠ .freed ∧ b.early = false := by
    rcases hb with rfl | rfl <;> exact ⟨rfl, rfl, nofun, rfl⟩
  have hframe : Frame s s' t :=
    { frame_goto s t r b with
      log := fun e he => List.mem_cons_of_mem _ (List.mem_cons_of_mem _ he) }
  have hdead : ¬ Dead s' t := by
    rintro (heq | heq)
    · exact hkind.2.2.1 (hbody ▸ heq)
    · exact hown.2 (Or.inr heq)
  have hagree := h.agree t hown hstarted
  rw [hrunning] at hagree
  refine h.stay hframe rfl hown ⟨?_, hdead⟩ ?_ ?_ ?_
  · rw [hbody]
    exact hkind.2.1
  · rw [hbody]
    exact hkind.1
  · have hheap : s'.heap (s'.desc t) = r := Function.update_self _ _ _
    rw [hbody, hheap]
    exact (hagree.mono (fun v hv => hframe.log _ hv)).return List.mem_cons_self hb
  · have htouched := @Recorded.cons s.log (Dead s) (Dead s) _ _ (.touched t) h.recorded ?_ nofun
      nofun nofun (fun u => (or_iff_left nofun).symm) (fun u hu => ⟨hu, nofun⟩)
    · refine @Recorded.cons _ (Dead s) _ _ _ (.returned t value) htouched ?_ nofun ?_ nofun ?_ ?_
      · rintro u (heq | heq) <;> cases heq
      · intro u v heq
        cases heq
        show (s.body t).early = true
        rw [hrunning]
        rfl
      · intro u
        rw [or_iff_left nofun]
        by_cases hut : u = t
        · subst hut
          exact iff_of_false hdead hown.2
        · exact hframe.dead_iff hut
      · intro u hu
        by_cases hut : u = t
        · rw [hut, hbody, hkind.2.2.2] at hu
          cases hu
        · rw [hframe.body u hut] at hu
          refine ⟨hu, fun v heq => ?_⟩
          cases heq
          exact hut rfl
    · rintro u (heq | heq) <;> cases heq
      exact hown.2

theorem Inv.startCall {c : Client} (h : Inv s) (hstarted : (s.body t).started = true)
    (hnone : s.client t = .none) (hc : c = .joinLock ∨ c = .detachLock) : Inv (s.call t c) := by
  have hown : Owns s t := h.owns_of_started hstarted
    (Or.inr (by rw [hnone]; exact ⟨rfl, nofun⟩))
  have hself : (s.call t c).client t = c := Function.update_self _ _ _
  have hframe : Frame s (s.call t c) t :=
    ⟨fun _ _ => rfl, fun _ hne => Function.update_of_ne hne _ _, fun _ _ => rfl, rfl,
      fun _ _ => rfl, rfl, fun _ he => he⟩
  have hdead : ¬ Dead (s.call t c) t := by
    rintro (heq | heq)
    · exact hown.2 (Or.inl heq)
    · rw [hself] at heq
      rcases hc with rfl | rfl <;> cases heq
  refine h.stay hframe rfl hown ⟨hown.1, hdead⟩ hstarted ?_ ?_
  · have hagree := h.agree t hown hstarted
    rw [hnone] at hagree
    rw [hself]
    exact hagree.call hc
  · refine h.recorded.congr ?_ (fun _ hu => hu)
    intro u
    by_cases hut : u = t
    · subst hut
      exact iff_of_false hdead hown.2
    · exact hframe.dead_iff hut

theorem Inv.step {label : Label} (h : Inv s) (hok : Ordered s label)
    (hstep : step s label = some s') : Inv s' := by
  cases label with
  | fork t =>
      simp only [Lifetime.step] at hstep
      split at hstep
      next hnone =>
        cases hstep
        refine h.seek (by rw [hnone]; rfl) ?_
        split <;> rfl
      next => cases hstep
  | next t address => exact h.advance hstep
  | returns t value exit =>
      simp only [Lifetime.step] at hstep
      split at hstep
      next hrunning =>
        cases hstep
        exact h.return hrunning (by cases exit <;> simp)
      next => cases hstep
  | join t =>
      simp only [Lifetime.step] at hstep
      split at hstep
      next hguard =>
        cases hstep
        exact h.startCall hguard.1 hguard.2 (Or.inl rfl)
      next => cases hstep
  | detach t =>
      simp only [Lifetime.step] at hstep
      split at hstep
      next hguard =>
        cases hstep
        exact h.startCall hguard.1 hguard.2 (Or.inr rfl)
      next => cases hstep
  | client t recheck =>
      obtain ⟨⟨c, r, effect⟩, hnext, heq⟩ := Option.map_eq_some_iff.mp hstep
      obtain ⟨-, hplace, hjoined, hlive, -⟩ := clientNext_kind hnext
      have hwindow : effect = .free → s.body t ≠ .signalTest := by
        intro hfree
        simp only [Ordered] at hok
        rcases hplace hfree with hat | ⟨v, hat⟩
        all_goals
          rw [hat] at hok
          exact hok.1
      have hordered : s.client t = .spin → recheck = true →
          ∀ oldState, s.body t ≠ .setRunning t oldState := by
        intro hspin hlook oldState
        simp only [Ordered, hspin] at hok
        exact hok hlook t oldState
      have hinv := h.clientStep hnext hwindow hordered
      cases c with
      | joined value =>
          cases heq
          have hat := hjoined value rfl
          have hstarted : (s.body t).started = true := by
            rw [← Bool.not_eq_false]
            exact fun hnot => hlive.2.2 (h.uncalled t hnot).1
          have hown : Owns s t := h.owns_of_started hstarted (Or.inr ⟨hlive.1, hlive.2.1⟩)
          have hvalue := (h.agree t hown hstarted).carried value (Or.inr hat)
          exact hinv.recordJoined (State.mem_apply_log _ t effect _ hvalue)
      | _ =>
          cases heq
          exact hinv

end Steps

/-! ## Every run -/

theorem initial_inv : Inv {} := by
  have hdead : ∀ t, ¬ Dead {} t := by
    rintro t (heq | heq) <;> cases heq
  refine ⟨List.nodup_nil, nofun, ?_, ?_, ?_, fun t ht => absurd ht (hdead t), fun _ _ => ⟨rfl, rfl⟩, ?_⟩
  · rintro t ⟨hassigned, -⟩
    cases hassigned
  · rintro t u ⟨hassigned, -⟩
    cases hassigned
  · rintro t ⟨hassigned, -⟩
    cases hassigned
  · exact ⟨fun t ht => absurd ht (hdead t), nofun, List.Pairwise.nil, nofun, nofun, nofun, nofun⟩

theorem inv_of_reachable {s : State} (hreach : machine.Reachable Ordered s) : Inv s := by
  refine hreach.invariant ?_ ?_
  · rintro s rfl
    exact initial_inv
  · intro s label s' h hok hstep
    exact h.step hok hstep

theorem Inv.dead_of_settled {s : State} {t : Nat} (h : Inv s) (hsettled : Settled s t) :
    Dead s t := by
  obtain ⟨hbody, hcalled, hstuck⟩ := hsettled
  rcases hbody with hfreed | hsignalled
  · exact Or.inl hfreed
  · by_contra halive
    have hstarted : (s.body t).started = true := by rw [hsignalled]; rfl
    have hagree := h.agree t ⟨Body.assigned_of_started hstarted, halive⟩ hstarted
    rw [hsignalled] at hagree
    have hfreed : (s.client t).freed = false := by
      rw [Bool.eq_false_iff]
      exact fun hfreed => halive (Or.inr hfreed)
    obtain ⟨recheck, hsome⟩ := hagree.progress hcalled hfreed
    have hnone := Option.map_eq_none_iff.mp (hstuck recheck)
    rw [hnone] at hsome
    cases hsome

/-- In every run in which no descriptor is freed by a call while its cthread's body is at its
signal, and no waiter looks again while its state is being written, every descriptor is freed once, nobody touches it afterwards, and a join returns the
value of the function. -/
theorem disciplined_of_ordered {s : State}
    (hreach : machine.Reachable Ordered s) : Disciplined s := by
  have h := inv_of_reachable hreach
  have hrecorded := h.recorded
  refine ⟨?_, ?_, hrecorded.untouched, hrecorded.ownSignal, ?_⟩
  · intro t
    by_cases hdead : Dead s t
    · exact Nat.le_of_eq (hrecorded.once t hdead)
    · rw [List.count_eq_zero_of_not_mem (hrecorded.kept t hdead)]
      exact Nat.zero_le 1
  · intro t hsettled
    exact hrecorded.once t (h.dead_of_settled hsettled)
  · intro t v hjoined
    have hreturned := hrecorded.joined t v hjoined
    exact ⟨hreturned, fun w hw => hrecorded.single t v w hreturned hw⟩

/-- A cthread is forked, and its function returns while a join waits for it. -/
def waitingJoinRun : List Label :=
  [.fork 0, .next 0 7, .next 0 7, .next 0 7, .join 0, .client 0 false, .client 0 false,
    .client 0 false, .client 0 false, .client 0 true, .returns 0 42 true, .next 0 7, .next 0 7,
    .next 0 7, .next 0 7, .next 0 7, .next 0 7, .next 0 7, .next 0 7, .next 0 7, .client 0 false,
    .client 0 false, .client 0 false, .client 0 false, .client 0 false, .client 0 false]

theorem disciplined_waitingJoinRun : ∃ s, machine.run {} waitingJoinRun = some s ∧
    s.free = [7] ∧ .joined 0 42 ∈ s.log ∧ Disciplined s := by
  obtain ⟨s, hrun⟩ : ∃ s, machine.run {} waitingJoinRun = some s := ⟨_, rfl⟩
  have hresult : s.free = [7] ∧ .joined 0 42 ∈ s.log := by
    cases Option.some.inj hrun
    exact ⟨rfl, by decide⟩
  have hmeets : machine.Meets Ordered {} waitingJoinRun :=
    ⟨trivial, trivial, trivial, trivial, trivial, trivial, trivial, trivial, trivial,
      fun _ u oldState => (by rcases u with _ | u <;> nofun), trivial, trivial, trivial, trivial,
      trivial, trivial, trivial, trivial, trivial, trivial, trivial, trivial, trivial, trivial,
      trivial, ⟨nofun, nofun⟩, trivial⟩
  have hreach : machine.Reachable Ordered s :=
    .of_run waitingJoinRun (.init rfl) hrun hmeets
  exact ⟨s, hrun, hresult.1, hresult.2, disciplined_of_ordered hreach⟩

/-- A join frees the descriptor between the release of its lock and the signal; the next
cthread gets the same descriptor, and the signal wakes the caller that waits for it. -/
def lateSignalRun : List Label :=
  [.fork 0, .next 0 7, .next 0 7, .next 0 7, .returns 0 42 false, .next 0 7, .next 0 7, .next 0 7,
    .join 0, .client 0 false, .client 0 false, .client 0 false, .client 0 false, .client 0 false,
    .fork 1, .next 1 8, .next 1 8, .next 1 8, .join 1, .client 1 false, .client 1 false,
    .client 1 false, .client 1 false, .next 0 7, .next 0 7, .next 0 7, .next 0 7]

/-- The joiner looks again after `cproc_continue` has read its state and before it writes it, and
is blocked for ever. -/
def lostWakeupRun : List Label :=
  [.fork 0, .next 0 7, .next 0 7, .next 0 7, .join 0, .client 0 false, .client 0 false,
    .client 0 false, .client 0 false, .returns 0 42 false, .next 0 7, .next 0 7, .next 0 7,
    .next 0 7, .next 0 7, .next 0 7, .client 0 true, .next 0 7]

/-- The signal of one cthread wakes the joiner of another, and a descriptor is never freed because
its joiner was not woken. -/
theorem late_signal_touches_freed :
    (∃ s, machine.Reachable Machine.always s ∧ .woke 0 1 ∈ s.log ∧ ¬ Disciplined s) ∧
      ∃ s, machine.Reachable Machine.always s ∧ Settled s 0 ∧ ¬ Disciplined s := by
  have hreach : ∀ {labels s}, machine.run {} labels = some s → machine.Reachable Machine.always s :=
    fun hrun => .of_run _ (.init rfl) hrun (Machine.meets_of_forall (fun _ _ _ => trivial))
  constructor
  · obtain ⟨s, hrun⟩ : ∃ s, machine.run {} lateSignalRun = some s := ⟨_, rfl⟩
    have hwoke : .woke 0 1 ∈ s.log := by
      cases Option.some.inj hrun
      decide
    refine ⟨s, hreach hrun, hwoke, fun hall => ?_⟩
    cases hall.ownSignal 0 1 hwoke
  · obtain ⟨s, hrun⟩ : ∃ s, machine.run {} lostWakeupRun = some s := ⟨_, rfl⟩
    have hsettled : Settled s 0 := by
      cases Option.some.inj hrun
      exact ⟨Or.inr rfl, nofun, fun _ => rfl⟩
    have hkept : s.log.count (.freed 0) = 0 := by
      cases Option.some.inj hrun
      decide
    refine ⟨s, hreach hrun, hsettled, fun hall => ?_⟩
    rw [hall.exactlyOnce 0 hsettled] at hkept
    cases hkept

end MachFormal.Threads.Lifetime
