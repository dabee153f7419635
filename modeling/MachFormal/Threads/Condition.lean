import Mathlib.Data.List.Nodup
import MachFormal.Library.Machine

/-!
# Condition variables of the multi-threaded C threads package

`condition_wait`, `cond_signal`, `cond_broadcast` and `cproc_continue` with one
step for each read or write of `p->state`, each acquisition of a condition's
spin lock, and each message operation on a wait port.  The port has a backlog
of one message, and a send that finds it full times out and drops its message.
Every wait of a cproc has a number, and a message carries the number of the
wait its sender dequeued.  Clients call the three routines in any order; the
mutex of `condition_wait` is left out, so that every order of the other steps
is allowed.
-/

namespace MachFormal.Threads.Condition

open MachFormal.Library

inductive CprocState where
  | running
  | spinning
  | blocked
  deriving DecidableEq, Repr

/-- An element of a condition's queue: a cproc and the number of its wait. -/
@[ext] structure Waiter where
  cproc : Nat
  wait : Nat
  deriving DecidableEq, Repr

/-- Where a thread is.  Between `enlist` and the end of `enqueue`, between `recheck`
and the end of `leave` or `unlock`, and in `signal` and `broadcast` it holds the
lock of the condition. -/
inductive Pc where
  | idle
  | enlist (c : Nat)
  | enqueue (c : Nat)
  | spin (c : Nat) (i : Nat)
  | recheck (c : Nat)
  | leave (c : Nat)
  | block (c : Nat)
  | unlock (c : Nat)
  | receive (c : Nat)
  | done (c : Nat)
  | signal (c : Nat)
  | broadcast (c : Nat)
  | readState (p : Waiter) (queue : List Waiter)
  | setRunning (p : Waiter) (oldState : CprocState) (queue : List Waiter)
  | send (p : Waiter) (queue : List Waiter)
  deriving DecidableEq, Repr

structure State where
  pc : Nat → Pc
  state : Nat → CprocState
  waits : Nat → Nat
  port : Nat → Option Nat
  lock : Nat → Bool
  queue : Nat → List Waiter
  consumed : List (Nat × Nat)

/-- A thread enters one of the three routines, or takes its next step. -/
inductive Label where
  | conditionWait (t c : Nat)
  | condSignal (t c : Nat)
  | condBroadcast (t c : Nat)
  | next (t : Nat)
  deriving DecidableEq, Repr

/-- The loop of `cond_broadcast` over its private queue; `cond_signal` has at most one. -/
def continueWith : List Waiter → Pc
  | [] => .idle
  | p :: queue => .readState p queue

def State.goto (s : State) (t : Nat) (pc : Pc) : State :=
  { s with pc := Function.update s.pc t pc }

def State.setState (s : State) (p : Nat) (value : CprocState) : State :=
  { s with state := Function.update s.state p value }

def State.setLock (s : State) (c : Nat) (value : Bool) : State :=
  { s with lock := Function.update s.lock c value }

def State.setQueue (s : State) (c : Nat) (queue : List Waiter) : State :=
  { s with queue := Function.update s.queue c queue }

/-- `spin_lock`, then go on; no step while the lock is taken. -/
def spinLock (s : State) (t c : Nat) (pc : Pc) : Option State :=
  if s.lock c then none else some ((s.setLock c true).goto t pc)

/-- `msg_send` with `SEND_TIMEOUT` 0 to a wait port. -/
def msgSend (s : State) (p : Waiter) : State :=
  match s.port p.cproc with
  | none => { s with port := Function.update s.port p.cproc (some p.wait) }
  | some _ => s

/-- One step of a thread inside a routine. -/
def threadStep (limit : Nat) (s : State) (t : Nat) : Option State :=
  match s.pc t with
  | .idle => none
  | .enlist c => some ((s.setState t .spinning).goto t (.enqueue c))
  | .enqueue c =>
      some (((s.setQueue c (s.queue c ++ [⟨t, s.waits t⟩])).setLock c false).goto t (.spin c 0))
  | .spin c i =>
      if i < limit then
        if s.state t = .running then some (s.goto t (.done c)) else some (s.goto t (.spin c (i + 1)))
      else spinLock s t c (.recheck c)
  | .recheck c =>
      if s.state t = .running then some (s.goto t (.leave c)) else some (s.goto t (.block c))
  | .leave c => some ((s.setLock c false).goto t (.done c))
  | .block c => some ((s.setState t .blocked).goto t (.unlock c))
  | .unlock c => some ((s.setLock c false).goto t (.receive c))
  | .receive c =>
      match s.port t with
      | none => none
      | some wait =>
          some ({ s with
            port := Function.update s.port t none
            consumed := (wait, s.waits t) :: s.consumed }.goto t (.done c))
  | .done _ => some (s.goto t .idle)
  | .signal c =>
      some (((s.setQueue c (s.queue c).tail).setLock c false).goto t
        (continueWith (s.queue c).head?.toList))
  | .broadcast c =>
      some (((s.setQueue c []).setLock c false).goto t (continueWith (s.queue c)))
  | .readState p queue => some (s.goto t (.setRunning p (s.state p.cproc) queue))
  | .setRunning p oldState queue =>
      some ((s.setState p.cproc .running).goto t
        (if oldState = .blocked then .send p queue else continueWith queue))
  | .send p queue => some ((msgSend s p).goto t (continueWith queue))

/-- `limit` is the number of reads of the busy-waiting and the yielding loop together. -/
def step (limit : Nat) (s : State) : Label → Option State
  | .conditionWait t c =>
      if s.pc t = .idle then
        spinLock { s with waits := Function.update s.waits t (s.waits t + 1) } t c (.enlist c)
      else none
  | .condSignal t c => if s.pc t = .idle then spinLock s t c (.signal c) else none
  | .condBroadcast t c => if s.pc t = .idle then spinLock s t c (.broadcast c) else none
  | .next t => threadStep limit s t

def initial : State :=
  ⟨fun _ => .idle, fun _ => .running, fun _ => 0, fun _ => none, fun _ => false, fun _ => [], []⟩

def machine (spinLimit yieldLimit : Nat) : Machine State Label where
  init := fun s => s = initial
  step := step (spinLimit + yieldLimit)

/-! ## What a wakeup must do -/

/-- Dequeued waiters that a thread has still to continue. -/
def Pc.targets : Pc → List Waiter
  | .readState p queue => p :: queue
  | .setRunning p _ queue => p :: queue
  | .send p queue => p :: queue
  | _ => []

/-- The cproc is blocked in `msg_receive`; it is on no queue, every signal or broadcast
that dequeued it is complete, and there is no message for it. -/
def LostWakeup (s : State) (t : Nat) : Prop :=
  (∃ c, s.pc t = .receive c) ∧ (∀ c, ∀ p ∈ s.queue c, p.cproc ≠ t) ∧
    (∀ u, ∀ p ∈ (s.pc u).targets, p.cproc ≠ t) ∧ s.port t = none

/-- No wakeup is lost; a message that is in a wait port is for the wait the cproc is
in, which has still to receive it; and a received message was for the wait that received it. -/
structure WakeupSafe (s : State) : Prop where
  not_lost : ∀ t, ¬ LostWakeup s t
  own_message : ∀ t wait, s.port t = some wait →
    wait = s.waits t ∧ ∃ c, s.pc t = .unlock c ∨ s.pc t = .receive c
  consumed_own : ∀ entry ∈ s.consumed, entry.1 = entry.2

/-- `cproc_continue` reads and writes `p->state` without the lock of the condition.  The
guard keeps the second look of `condition_wait` at `p->state` out of the window between
that read and that write, and that read out of the window between the second look and the
write of `CPROC_BLOCKED`. -/
def StateAccessesOrdered (s : State) : Label → Prop
  | .next t =>
      match s.pc t with
      | .recheck _ => ∀ u p oldState queue, s.pc u = .setRunning p oldState queue → p.cproc ≠ t
      | .readState p _ => ∀ c, s.pc p.cproc ≠ .block c
      | _ => True
  | _ => True

/-! ## Who is responsible for a waiting cproc -/

/-- A waiting cproc is on a queue, or one thread took it off and has not read its state
yet, has read `oldState`, or is about to send; in all other cases nobody has it. -/
inductive Owner where
  | nobody
  | queued (c : Nat)
  | taken (u : Nat)
  | read (u : Nat) (oldState : CprocState)
  | sending (u : Nat)
  deriving DecidableEq, Repr

/-- Waiters a thread took off a queue and has not looked at yet. -/
def Pc.taken : Pc → List Waiter
  | .readState p queue => p :: queue
  | .setRunning _ _ queue => queue
  | .send _ queue => queue
  | _ => []

/-- What the place of a thread says about a waiter. -/
def Pc.Holds (pc : Pc) (p : Waiter) : Owner → Prop
  | .taken _ => p ∈ pc.taken
  | .read _ oldState => ∃ queue, pc = .setRunning p oldState queue
  | .sending _ => ∃ queue, pc = .send p queue
  | _ => False

def Owner.thread : Owner → Option Nat
  | .taken u => some u
  | .read u _ => some u
  | .sending u => some u
  | _ => none

/-- Progress of a thread through `condition_wait`. -/
inductive Phase where
  | away
  | enlisted
  | spinning
  | woken
  | deciding
  | blocking
  deriving DecidableEq, Repr

def Pc.phase : Pc → Phase
  | .enqueue _ => .enlisted
  | .spin _ _ => .spinning
  | .recheck _ => .spinning
  | .leave _ => .woken
  | .block _ => .deciding
  | .unlock _ => .blocking
  | .receive _ => .blocking
  | _ => .away

/-- What the state and the wait port of a cproc hold, by its phase and its owner. -/
def Consistent (wait : Nat) (state : CprocState) (port : Option Nat) : Phase → Owner → Prop
  | .away, .nobody => port = none
  | .enlisted, .nobody => port = none ∧ state = .spinning
  | .spinning, .nobody => port = none ∧ state = .running
  | .spinning, .queued _ => port = none ∧ state = .spinning
  | .spinning, .taken _ => port = none ∧ state = .spinning
  | .spinning, .read _ oldState => port = none ∧ state = .spinning ∧ oldState = .spinning
  | .woken, .nobody => port = none
  | .deciding, .queued _ => port = none ∧ state = .spinning
  | .deciding, .taken _ => port = none ∧ state = .spinning
  | .blocking, .nobody => port = some wait
  | .blocking, .queued _ => port = none ∧ state = .blocked
  | .blocking, .taken _ => port = none ∧ state = .blocked
  | .blocking, .read _ oldState => port = none ∧ oldState = .blocked
  | .blocking, .sending _ => port = none
  | _, _ => False

/-- The thread or queue named by the owner has the waiter. -/
def Holds (s : State) (p : Waiter) (o : Owner) : Prop :=
  match o with
  | .nobody => False
  | .queued c => p ∈ s.queue c
  | .taken u => (s.pc u).Holds p o
  | .read u _ => (s.pc u).Holds p o
  | .sending u => (s.pc u).Holds p o

structure Inv (owner : Nat → Owner) (s : State) : Prop where
  queue_nodup : ∀ c, (s.queue c).Nodup
  taken_nodup : ∀ u, (s.pc u).taken.Nodup
  holds_iff : ∀ o p, o ≠ .nobody →
    (Holds s p o ↔ owner p.cproc = o ∧ p.wait = s.waits p.cproc)
  consistent : ∀ t, Consistent (s.waits t) (s.state t) (s.port t) (s.pc t).phase (owner t)
  consumed : ∀ entry ∈ s.consumed, entry.1 = entry.2

theorem Inv.initial : Inv (fun _ => .nobody) Condition.initial := by
  refine ⟨fun _ => List.nodup_nil, fun _ => List.nodup_nil, ?_, fun _ => rfl, ?_⟩
  · intro o p ho
    cases o <;> simp [Holds, Pc.Holds, Condition.initial, Pc.taken] at ho ⊢
  · simp [Condition.initial]

section Preservation

variable {s s' : State} {owner : Nat → Owner} {t c : Nat} {p : Waiter} {pc : Pc} {o : Owner}
  {queue : List Waiter}

@[simp] theorem continueWith_taken (queue : List Waiter) : (continueWith queue).taken = queue := by
  cases queue <;> rfl

@[simp] theorem continueWith_phase (queue : List Waiter) : (continueWith queue).phase = .away := by
  cases queue <;> rfl

theorem continueWith_holds (o : Owner) :
    (continueWith queue).Holds p o ↔ p ∈ queue ∧ ∃ u, o = .taken u := by
  cases queue <;> cases o <;> simp [continueWith, Pc.Holds, Pc.taken]

theorem not_holds_of_targets (hpc : pc.targets = []) (o : Owner) : ¬ pc.Holds p o := by
  cases pc <;> cases o <;> simp_all [Pc.targets, Pc.Holds, Pc.taken]

/-- Where a thread stands decides what it holds, and nothing else. -/
theorem holds_of_thread (ho : o.thread = some t) (hpc : s.pc t = pc) :
    Holds s p o ↔ pc.Holds p o := by
  cases o <;> simp_all [Owner.thread, Holds]

theorem holds_of_not_thread (ho : o.thread ≠ some t)
    (hpcs : ∀ u, u ≠ t → s'.pc u = s.pc u)
    (hqueue : ∀ d, o = .queued d → s'.queue d = s.queue d) :
    Holds s' p o ↔ Holds s p o := by
  cases o with
  | nobody => rfl
  | queued d => simp [Holds, hqueue d rfl]
  | taken u => simp [Holds, hpcs u (fun heq => ho (by simp [Owner.thread, heq]))]
  | read u oldState => simp [Holds, hpcs u (fun heq => ho (by simp [Owner.thread, heq]))]
  | sending u => simp [Holds, hpcs u (fun heq => ho (by simp [Owner.thread, heq]))]

theorem taken_nodup_update (htaken : ∀ u, (s.pc u).taken.Nodup) (hpc : pc.taken.Nodup) (u : Nat) :
    (Function.update s.pc t pc u).taken.Nodup := by
  by_cases hu : u = t
  · rw [hu, Function.update_self]
    exact hpc
  · rw [Function.update_of_ne hu]
    exact htaken u

/-- A thread that is not in `condition_wait` belongs to nobody. -/
theorem Inv.away (h : Inv owner s) (haway : (s.pc t).phase = .away) :
    owner t = .nobody ∧ s.port t = none := by
  have hcons := h.consistent t
  rw [haway] at hcons
  cases howner : owner t <;> simp_all [Consistent]

/-- What a thread holds is not itself, and it waits as its owner says. -/
theorem Inv.held (h : Inv owner s) {o : Owner} (ho : o ≠ .nobody) (hp : Holds s p o)
    (haway : (s.pc t).phase = .away) :
    p.cproc ≠ t ∧ p.wait = s.waits p.cproc ∧
      Consistent (s.waits p.cproc) (s.state p.cproc) (s.port p.cproc) (s.pc p.cproc).phase o := by
  obtain ⟨howner, hwait⟩ := (h.holds_iff o p ho).mp hp
  refine ⟨fun heq => ho ?_, hwait, howner ▸ h.consistent p.cproc⟩
  rw [← howner, heq]
  exact (h.away haway).1

theorem Inv.holds_unique (h : Inv owner s) {o' : Owner} (ho : o ≠ .nobody) (ho' : o' ≠ .nobody)
    (hp : Holds s p o) (hp' : Holds s p o') : o = o' :=
  ((h.holds_iff o p ho).mp hp).1.symm.trans ((h.holds_iff o' p ho').mp hp').1

/-- A step that hands some waiters to a new owner and leaves the others where they are. -/
theorem Inv.transfer (h : Inv owner s) (moved : List Waiter) (o' : Owner)
    (hmoved : ∀ p ∈ moved, p.wait = s.waits p.cproc)
    (hwaits : s'.waits = s.waits)
    (hqueue : ∀ c, (s'.queue c).Nodup) (htaken : ∀ u, (s'.pc u).taken.Nodup)
    (hholds : ∀ o p, o ≠ .nobody →
      (Holds s' p o ↔ if p ∈ moved then o = o' else Holds s p o))
    (hnew : ∀ p ∈ moved, Consistent (s.waits p.cproc) (s'.state p.cproc) (s'.port p.cproc)
      (s'.pc p.cproc).phase o')
    (hother : ∀ x, x ∉ moved.map Waiter.cproc →
      Consistent (s.waits x) (s'.state x) (s'.port x) (s'.pc x).phase (owner x))
    (hconsumed : ∀ entry ∈ s'.consumed, entry.1 = entry.2) :
    ∃ owner', Inv owner' s' := by
  refine ⟨fun x => if x ∈ moved.map Waiter.cproc then o' else owner x,
    hqueue, htaken, ?_, ?_, hconsumed⟩
  · intro o p ho
    rw [hholds o p ho, hwaits]
    by_cases hp : p ∈ moved
    · have hmem : p.cproc ∈ moved.map Waiter.cproc := List.mem_map_of_mem hp
      simp only [hp, hmem, if_true, hmoved p hp, and_true]
      exact eq_comm
    · rw [if_neg hp, h.holds_iff o p ho]
      by_cases hmem : p.cproc ∈ moved.map Waiter.cproc
      · -- another wait of a moved cproc is held by nobody
        obtain ⟨q, hq, hcproc⟩ := List.mem_map.mp hmem
        have hstale : p.wait ≠ s.waits p.cproc := by
          intro hwait
          have heq : p = q := Waiter.ext hcproc.symm
            (by rw [hwait, hmoved q hq, hcproc])
          exact hp (heq ▸ hq)
        simp [hstale]
      · simp [hmem]
  · intro x
    rw [hwaits]
    by_cases hx : x ∈ moved.map Waiter.cproc
    · obtain ⟨q, hq, rfl⟩ := List.mem_map.mp hx
      simpa only [hx, if_true] using hnew q hq
    · simpa only [hx, if_false] using hother x hx

/-- A step that changes only the place and the state of its own thread, which continues
nobody before or after it. -/
theorem Inv.own_step (h : Inv owner s) (lock : Nat → Bool) {state : CprocState}
    (hold : (s.pc t).targets = []) (hnew : pc.targets = [])
    (hcons : Consistent (s.waits t) state (s.port t) pc.phase (owner t)) :
    ∃ owner', Inv owner' { s with
      pc := Function.update s.pc t pc, state := Function.update s.state t state, lock := lock } := by
  refine h.transfer [] .nobody (by simp) rfl h.queue_nodup
    (taken_nodup_update h.taken_nodup ?_) (fun o p _ => ?_) (by simp) (fun x _ => ?_) h.consumed
  · cases pc <;> simp_all [Pc.targets, Pc.taken]
  · simp only [List.not_mem_nil, if_false]
    by_cases ho : o.thread = some t
    · rw [holds_of_thread ho (Function.update_self t pc s.pc), holds_of_thread ho rfl]
      exact iff_of_false (not_holds_of_targets hnew o) (not_holds_of_targets hold o)
    · exact holds_of_not_thread ho (fun u hu => Function.update_of_ne hu _ _)
        (fun _ _ => rfl)
  · by_cases hx : x = t
    · subst hx
      simpa only [Function.update_self] using hcons
    · simpa only [Function.update_of_ne hx] using h.consistent x

theorem Inv.own_goto (h : Inv owner s) {lock : Nat → Bool}
    (hold : (s.pc t).targets = []) (hnew : pc.targets = [])
    (hcons : Consistent (s.waits t) (s.state t) (s.port t) pc.phase (owner t)) :
    ∃ owner', Inv owner' { s with pc := Function.update s.pc t pc, lock := lock } := by
  simpa only [Function.update_eq_self] using h.own_step lock hold hnew hcons

theorem spinLock_eq_some (hstep : spinLock s t c pc = some s') :
    s' = (s.setLock c true).goto t pc := by
  unfold spinLock at hstep
  split at hstep
  · cases hstep
  · exact (Option.some.inj hstep).symm

/-- Starting a wait numbers it; nobody held the cproc. -/
theorem Inv.conditionWait (h : Inv owner s) (hidle : s.pc t = .idle) {lock : Nat → Bool} :
    Inv owner { s with
      pc := Function.update s.pc t (.enlist c)
      waits := Function.update s.waits t (s.waits t + 1)
      lock := lock } := by
  obtain ⟨hnobody, hport⟩ := h.away (t := t) (by rw [hidle]; rfl)
  refine ⟨h.queue_nodup, taken_nodup_update h.taken_nodup List.nodup_nil, fun o p ho => ?_,
    fun x => ?_, h.consumed⟩
  · have hsame : Holds { s with
        pc := Function.update s.pc t (.enlist c)
        waits := Function.update s.waits t (s.waits t + 1)
        lock := lock } p o ↔ Holds s p o := by
      by_cases hthread : o.thread = some t
      · rw [holds_of_thread hthread (Function.update_self t (.enlist c) s.pc),
          holds_of_thread hthread hidle]
        exact iff_of_false (not_holds_of_targets rfl o) (not_holds_of_targets rfl o)
      · exact holds_of_not_thread hthread (fun u hu => Function.update_of_ne hu _ _)
          (fun _ _ => rfl)
    rw [hsame, h.holds_iff o p ho]
    by_cases hp : p.cproc = t
    · rw [hp, hnobody]
      simp [Ne.symm ho]
    · simp only [Function.update_of_ne hp]
  · by_cases hx : x = t
    · subst hx
      simp [Pc.phase, Consistent, hnobody, hport]
    · simpa only [Function.update_of_ne hx] using h.consistent x

theorem Inv.enqueue (h : Inv owner s) (hpc : s.pc t = .enqueue c) :
    ∃ owner', Inv owner'
      (((s.setQueue c (s.queue c ++ [⟨t, s.waits t⟩])).setLock c false).goto t (.spin c 0)) := by
  have hcons := h.consistent t
  rw [hpc] at hcons
  have hnobody : owner t = .nobody := by
    cases howner : owner t <;> simp_all [Consistent, Pc.phase]
  have hunheld : ∀ o, o ≠ .nobody → ¬ Holds s ⟨t, s.waits t⟩ o := by
    intro o ho hheld
    exact ho (((h.holds_iff o _ ho).mp hheld).1.symm.trans hnobody)
  simp only [hnobody, Pc.phase, Consistent] at hcons
  refine h.transfer [⟨t, s.waits t⟩] (.queued c) (by simp) rfl (fun d => ?_)
    (taken_nodup_update h.taken_nodup List.nodup_nil) (fun o p ho => ?_) ?_ (fun x hx => ?_)
    h.consumed
  · by_cases hd : d = c
    · subst hd
      have hnotin : ⟨t, s.waits t⟩ ∉ s.queue d := hunheld (.queued d) (by simp)
      simp only [State.goto, State.setLock, State.setQueue, Function.update_self]
      exact List.concat_eq_append ▸ (h.queue_nodup d).concat hnotin
    · simpa only [State.goto, State.setLock, State.setQueue, Function.update_of_ne hd]
        using h.queue_nodup d
  · have hp := hunheld o ho
    by_cases hthread : o.thread = some t
    · rw [holds_of_thread hthread (Function.update_self t (.spin c 0) s.pc),
        holds_of_thread hthread hpc]
      have hqueued : o ≠ .queued c := by
        rintro rfl
        cases hthread
      have hnew : ¬ (Pc.spin c 0).Holds p o := not_holds_of_targets rfl o
      have hold : ¬ (Pc.enqueue c).Holds p o := not_holds_of_targets rfl o
      simp [hqueued, hnew, hold]
    · by_cases hqueued : o = .queued c
      · subst hqueued
        by_cases heq : p = ⟨t, s.waits t⟩ <;>
          simp [Holds, State.goto, State.setLock, State.setQueue, heq]
      · refine (holds_of_not_thread (s := s) hthread (fun u hu => Function.update_of_ne hu _ _)
          (fun d hd => Function.update_of_ne (fun heq => hqueued (by rw [hd, heq])) _ _)).trans ?_
        by_cases heq : p = ⟨t, s.waits t⟩
        · subst heq
          simp [hp, hqueued]
        · simp [heq]
  · simp [State.goto, State.setLock, State.setQueue, Pc.phase, Consistent, hcons]
  · have hx : x ≠ t := by simpa using hx
    simpa only [State.goto, State.setLock, State.setQueue, Function.update_of_ne hx]
      using h.consistent x

/-- A signaller takes waiters off a queue under the lock of the condition. -/
theorem Inv.dequeue (h : Inv owner s) {moved left : List Waiter} (haway : (s.pc t).phase = .away)
    (hpc : (s.pc t).targets = []) (hqueue : s.queue c = moved ++ left) :
    ∃ owner', Inv owner'
      (((s.setQueue c left).setLock c false).goto t (continueWith moved)) := by
  have hnodup := h.queue_nodup c
  rw [hqueue] at hnodup
  obtain ⟨hmovedNodup, hleftNodup, hdisjoint⟩ := List.nodup_append.mp hnodup
  have hheld : ∀ p ∈ moved, Holds s p (.queued c) := fun p hp => by
    simp [Holds, hqueue, hp]
  have hown : ∀ p ∈ moved, owner p.cproc = .queued c ∧ p.wait = s.waits p.cproc :=
    fun p hp => (h.holds_iff _ p (by simp)).mp (hheld p hp)
  refine h.transfer moved (.taken t) (fun p hp => (hown p hp).2) rfl
    (fun d => ?_) (taken_nodup_update h.taken_nodup (by simpa using hmovedNodup))
    (fun o p ho => ?_) (fun p hp => ?_) (fun x hx => ?_) h.consumed
  · by_cases hd : d = c
    · subst hd
      simpa only [State.goto, State.setLock, State.setQueue, Function.update_self] using hleftNodup
    · simpa only [State.goto, State.setLock, State.setQueue, Function.update_of_ne hd]
        using h.queue_nodup d
  · by_cases hthread : o.thread = some t
    · rw [holds_of_thread hthread (Function.update_self t (continueWith moved) s.pc),
        holds_of_thread hthread rfl, continueWith_holds]
      have hold : ¬ (s.pc t).Holds p o := not_holds_of_targets hpc o
      by_cases hp : p ∈ moved
      · cases o <;> simp_all [Owner.thread]
      · simp [hp, hold]
    · have hnot : o ≠ .taken t := by
        rintro rfl
        exact hthread rfl
      by_cases hqueued : o = .queued c
      · subst hqueued
        by_cases hp : p ∈ moved
        · have hleft : p ∉ left := fun hin => hdisjoint p hp p hin rfl
          simp [Holds, State.goto, State.setLock, State.setQueue, hp, hleft]
        · simp [Holds, State.goto, State.setLock, State.setQueue, hp, hqueue]
      · refine (holds_of_not_thread (s := s) hthread (fun u hu => Function.update_of_ne hu _ _)
          (fun d hd => Function.update_of_ne (fun heq => hqueued (by rw [hd, heq])) _ _)).trans ?_
        by_cases hp : p ∈ moved
        · have hother : ¬ Holds s p o := fun hin =>
            hqueued (((h.holds_iff o p ho).mp hin).1.symm.trans (hown p hp).1)
          simp [hp, hnot, hother]
        · simp [hp]
  · obtain ⟨hne, -, hcons⟩ := h.held (by simp) (hheld p hp) haway
    simp only [State.goto, State.setLock, State.setQueue, Function.update_of_ne hne]
    cases hphase : (s.pc p.cproc).phase <;> simp_all [Consistent]
  · by_cases hxt : x = t
    · subst hxt
      have hcons := h.consistent x
      rw [haway] at hcons
      simpa [State.goto, State.setLock, State.setQueue] using hcons
    · simpa only [State.goto, State.setLock, State.setQueue, Function.update_of_ne hxt]
        using h.consistent x

/-- A step of `cproc_continue`: the waiter at hand goes to a new owner, who is the same
thread or nobody, and the waiters behind it stay. -/
theorem Inv.continue_step (h : Inv owner s) (pc : Pc) (o' : Owner) (state : CprocState)
    (port : Option Nat) (hpc : (s.pc t).Holds p o) (ho : o.thread = some t)
    (haway : (s.pc t).phase = .away) (haway' : pc.phase = .away) (htaken : pc.taken.Nodup)
    (ho' : o' = .nobody ∨ o'.thread = some t)
    (hholds : ∀ q r, r.thread = some t →
      (pc.Holds q r ↔ if q = p then r = o' else (s.pc t).Holds q r))
    (hcons : Consistent (s.waits p.cproc) (s.state p.cproc) (s.port p.cproc)
      (s.pc p.cproc).phase o →
      Consistent (s.waits p.cproc) state port (s.pc p.cproc).phase o') :
    ∃ owner', Inv owner' { s with
      pc := Function.update s.pc t pc
      state := Function.update s.state p.cproc state
      port := Function.update s.port p.cproc port } := by
  have hnobody : o ≠ .nobody := by
    rintro rfl
    cases ho
  have hheld : Holds s p o := (holds_of_thread ho rfl).mpr hpc
  obtain ⟨hne, hwait, hold⟩ := h.held hnobody hheld haway
  have howner := ((h.holds_iff o p hnobody).mp hheld).1
  refine h.transfer [p] o' (by simpa using hwait) rfl h.queue_nodup
    (taken_nodup_update h.taken_nodup htaken) (fun r q hr => ?_) ?_ (fun x hx => ?_) h.consumed
  · simp only [List.mem_singleton]
    by_cases hthread : r.thread = some t
    · rw [holds_of_thread hthread (Function.update_self t pc s.pc), holds_of_thread hthread rfl]
      exact hholds q r hthread
    · refine Iff.trans (holds_of_not_thread (s := s) hthread
        (fun u hu => Function.update_of_ne hu _ _) (fun _ _ => rfl)) ?_
      by_cases hq : q = p
      · subst hq
        have hrow : ¬ Holds s q r := fun hin => by
          have hro : r = o := ((h.holds_iff r q hr).mp hin).1.symm.trans howner
          exact hthread (hro ▸ ho)
        have hro' : r ≠ o' := by
          rintro rfl
          exact ho'.elim hr hthread
        simp [hrow, hro']
      · simp [hq]
  · intro q hq
    obtain rfl : q = p := by simpa using hq
    simpa only [Function.update_self, Function.update_of_ne hne] using hcons hold
  · have hxp : x ≠ p.cproc := by simpa using hx
    by_cases hxt : x = t
    · subst hxt
      have hx := h.consistent x
      rw [haway] at hx
      simpa only [Function.update_self, Function.update_of_ne hxp, haway'] using hx
    · simpa only [Function.update_of_ne hxp, Function.update_of_ne hxt] using h.consistent x

/-- `cproc_continue` reads the state of a waiter that is not about to block. -/
theorem Inv.readState (h : Inv owner s) (hpc : s.pc t = .readState p queue)
    (hok : ∀ c, s.pc p.cproc ≠ .block c) :
    ∃ owner', Inv owner' (s.goto t (.setRunning p (s.state p.cproc) queue)) := by
  have hnodup := h.taken_nodup t
  rw [hpc] at hnodup
  obtain ⟨hnotin, hqueue⟩ := List.nodup_cons.mp hnodup
  have hstep := h.continue_step (t := t) (p := p) (o := .taken t)
    (.setRunning p (s.state p.cproc) queue) (.read t (s.state p.cproc))
    (s.state p.cproc) (s.port p.cproc) (by simp [hpc, Pc.Holds, Pc.taken]) rfl
    (by rw [hpc]; rfl) rfl hqueue (Or.inr rfl) ?_ ?_
  · simpa only [State.goto, Function.update_eq_self] using hstep
  · intro q r hr
    rw [hpc]
    by_cases hq : q = p
    · subst hq
      cases r <;> simp_all [Pc.Holds, Pc.taken, Owner.thread]
      exact eq_comm
    · cases r <;> simp_all [Pc.Holds, Pc.taken, Owner.thread]
      intro heq
      exact absurd heq.symm hq
  · intro hcons
    cases hphase : s.pc p.cproc <;> simp_all [Pc.phase, Consistent]

/-- `cproc_continue` writes `CPROC_RUNNING`. -/
theorem Inv.setRunning (h : Inv owner s) {oldState : CprocState}
    (hpc : s.pc t = .setRunning p oldState queue) :
    ∃ owner', Inv owner' ((s.setState p.cproc .running).goto t
      (if oldState = .blocked then .send p queue else continueWith queue)) := by
  have hqueue : queue.Nodup := by
    have htaken := h.taken_nodup t
    rwa [hpc] at htaken
  have hnotin : p ∉ queue := fun hin => by
    have hread : Holds s p (.read t oldState) := (holds_of_thread rfl hpc).mpr ⟨queue, rfl⟩
    have htaken : Holds s p (.taken t) := (holds_of_thread rfl hpc).mpr hin
    cases h.holds_unique (by simp) (by simp) hread htaken
  by_cases hold : oldState = .blocked
  · subst hold
    have hstep := h.continue_step (t := t) (p := p) (o := .read t .blocked)
      (.send p queue) (.sending t) .running (s.port p.cproc)
      (by simp [hpc, Pc.Holds]) rfl (by rw [hpc]; rfl) rfl hqueue (Or.inr rfl) ?_ ?_
    · simpa only [State.goto, State.setState, Function.update_eq_self, if_true] using hstep
    · intro q r hr
      rw [hpc]
      by_cases hq : q = p
      · subst hq
        cases r <;> simp_all [Pc.Holds, Pc.taken, Owner.thread]
      · cases r <;> simp_all [Pc.Holds, Pc.taken, Owner.thread, Ne.symm hq]
    · intro hcons
      cases hphase : s.pc p.cproc <;> simp_all [Pc.phase, Consistent]
  · have hstep := h.continue_step (t := t) (p := p) (o := .read t oldState)
      (continueWith queue) .nobody .running (s.port p.cproc)
      (by simp [hpc, Pc.Holds]) rfl (by rw [hpc]; rfl) (by simp) (by simpa using hqueue)
      (Or.inl rfl) ?_ ?_
    · simpa only [State.goto, State.setState, Function.update_eq_self, hold, if_false] using hstep
    · intro q r hr
      rw [hpc, continueWith_holds]
      by_cases hq : q = p
      · subst hq
        cases r <;> simp_all [Owner.thread]
      · cases r <;> simp_all [Pc.Holds, Pc.taken, Owner.thread, Ne.symm hq]
    · intro hcons
      cases hphase : s.pc p.cproc <;> simp_all [Pc.phase, Consistent]

/-- `cproc_continue` sends: the wait port is empty, so the message is not dropped. -/
theorem Inv.send (h : Inv owner s) (hpc : s.pc t = .send p queue) :
    ∃ owner', Inv owner' ((msgSend s p).goto t (continueWith queue)) := by
  have hqueue : queue.Nodup := by
    have htaken := h.taken_nodup t
    rwa [hpc] at htaken
  have hsending : Holds s p (.sending t) := (holds_of_thread rfl hpc).mpr ⟨queue, rfl⟩
  have hnotin : p ∉ queue := fun hin => by
    have htaken : Holds s p (.taken t) := (holds_of_thread rfl hpc).mpr hin
    cases h.holds_unique (by simp) (by simp) hsending htaken
  obtain ⟨-, hwait, hcons⟩ := h.held (t := t) (by simp) hsending (by rw [hpc]; rfl)
  have hport : s.port p.cproc = none := by
    cases hphase : (s.pc p.cproc).phase <;> simp_all [Consistent]
  have hstep := h.continue_step (t := t) (p := p) (o := .sending t)
    (continueWith queue) .nobody (s.state p.cproc) (some p.wait)
    (by simp [hpc, Pc.Holds]) rfl (by rw [hpc]; rfl) (by simp) (by simpa using hqueue)
    (Or.inl rfl) ?_ ?_
  · simpa only [State.goto, Function.update_eq_self, msgSend, hport] using hstep
  · intro q r hr
    rw [hpc, continueWith_holds]
    by_cases hq : q = p
    · subst hq
      cases r <;> simp_all [Owner.thread]
    · cases r <;> simp_all [Pc.Holds, Pc.taken, Owner.thread, Ne.symm hq]
  · intro hcons
    cases hphase : s.pc p.cproc <;> simp_all [Pc.phase, Consistent]

/-- `msg_receive` takes the message of its own wait. -/
theorem Inv.receive (h : Inv owner s) {wait : Nat} (hpc : s.pc t = .receive c)
    (hport : s.port t = some wait) :
    ∃ owner', Inv owner' ({ s with
      port := Function.update s.port t none
      consumed := (wait, s.waits t) :: s.consumed }.goto t (.done c)) := by
  have hcons := h.consistent t
  rw [hpc, hport] at hcons
  have hown : owner t = .nobody ∧ wait = s.waits t := by
    cases howner : owner t <;> simp_all [Consistent, Pc.phase]
  refine h.transfer [] .nobody (by simp) rfl h.queue_nodup
    (taken_nodup_update h.taken_nodup List.nodup_nil) (fun o p _ => ?_) (by simp) (fun x _ => ?_)
    ?_
  · simp only [List.not_mem_nil, if_false]
    by_cases ho : o.thread = some t
    · rw [holds_of_thread ho (Function.update_self t (.done c) s.pc), holds_of_thread ho hpc]
      exact iff_of_false (not_holds_of_targets rfl o) (not_holds_of_targets rfl o)
    · exact holds_of_not_thread ho (fun u hu => Function.update_of_ne hu _ _)
        (fun _ _ => rfl)
  · by_cases hx : x = t
    · subst hx
      simp [State.goto, Pc.phase, Consistent, hown.1]
    · simpa only [State.goto, Function.update_of_ne hx] using h.consistent x
  · intro entry hentry
    rcases List.mem_cons.mp hentry with rfl | hentry
    · exact hown.2
    · exact h.consumed entry hentry

/-- A step of a thread inside a routine keeps the invariant, if it meets the guard. -/
theorem Inv.threadStep (h : Inv owner s) {limit : Nat}
    (hok : StateAccessesOrdered s (.next t)) (hstep : threadStep limit s t = some s') :
    ∃ owner', Inv owner' s' := by
  have hcons := h.consistent t
  unfold Condition.threadStep at hstep
  simp only [StateAccessesOrdered] at hok
  cases hpc : s.pc t with
  | idle =>
      simp [hpc] at hstep
  | enlist c =>
      simp only [hpc, Option.some.injEq] at hstep hcons
      subst hstep
      refine h.own_step _ (by rw [hpc]; rfl) rfl ?_
      cases howner : owner t <;> simp_all [Pc.phase, Consistent]
  | enqueue c =>
      simp only [hpc, Option.some.injEq] at hstep
      subst hstep
      exact h.enqueue hpc
  | spin c i =>
      simp only [hpc, Pc.phase] at hstep hcons
      split at hstep
      · split at hstep
        · next hrunning =>
            cases hstep
            refine h.own_goto (by rw [hpc]; rfl) rfl ?_
            cases howner : owner t <;> simp_all [Pc.phase, Consistent]
        · cases hstep
          exact h.own_goto (by rw [hpc]; rfl) rfl hcons
      · cases spinLock_eq_some hstep
        exact h.own_goto (by rw [hpc]; rfl) rfl hcons
  | recheck c =>
      simp only [hpc, Pc.phase] at hstep hcons hok
      split at hstep
      · next hrunning =>
          cases hstep
          refine h.own_goto (by rw [hpc]; rfl) rfl ?_
          cases howner : owner t <;> simp_all [Pc.phase, Consistent]
      · next hrunning =>
          cases hstep
          refine h.own_goto (by rw [hpc]; rfl) rfl ?_
          -- a thread between its read and its write of the state is excluded by the guard
          have hread : ∀ u oldState, owner t ≠ .read u oldState := by
            intro u oldState howner
            have hheld := (h.holds_iff (.read u oldState) ⟨t, s.waits t⟩ (by simp)).mpr
              ⟨howner, rfl⟩
            obtain ⟨queue, hu⟩ := hheld
            exact hok u _ oldState queue hu rfl
          cases howner : owner t <;> simp_all [Pc.phase, Consistent]
  | leave c =>
      simp only [hpc, Option.some.injEq, Pc.phase] at hstep hcons
      subst hstep
      refine h.own_goto (by rw [hpc]; rfl) rfl ?_
      cases howner : owner t <;> simp_all [Pc.phase, Consistent]
  | block c =>
      simp only [hpc, Option.some.injEq, Pc.phase] at hstep hcons
      subst hstep
      refine h.own_step _ (by rw [hpc]; rfl) rfl ?_
      cases howner : owner t <;> simp_all [Pc.phase, Consistent]
  | unlock c =>
      simp only [hpc, Option.some.injEq, Pc.phase] at hstep hcons
      subst hstep
      exact h.own_goto (by rw [hpc]; rfl) rfl hcons
  | receive c =>
      simp only [hpc] at hstep
      cases hport : s.port t with
      | none => simp [hport] at hstep
      | some wait =>
          simp only [hport, Option.some.injEq] at hstep
          subst hstep
          exact h.receive hpc hport
  | done c =>
      simp only [hpc, Option.some.injEq, Pc.phase] at hstep hcons
      subst hstep
      exact h.own_goto (by rw [hpc]; rfl) rfl hcons
  | signal c =>
      simp only [hpc, Option.some.injEq] at hstep
      subst hstep
      refine h.dequeue (by rw [hpc]; rfl) (by rw [hpc]; rfl) ?_
      cases s.queue c <;> rfl
  | broadcast c =>
      simp only [hpc, Option.some.injEq] at hstep
      subst hstep
      exact h.dequeue (by rw [hpc]; rfl) (by rw [hpc]; rfl) (List.append_nil _).symm
  | readState p queue =>
      simp only [hpc, Option.some.injEq] at hstep hok
      subst hstep
      exact h.readState hpc hok
  | setRunning p oldState queue =>
      simp only [hpc, Option.some.injEq] at hstep
      subst hstep
      exact h.setRunning hpc
  | send p queue =>
      simp only [hpc, Option.some.injEq] at hstep
      subst hstep
      exact h.send hpc

/-- Every step that meets the guard keeps the invariant. -/
theorem Inv.step (h : Inv owner s) {limit : Nat} {label : Label}
    (hok : StateAccessesOrdered s label) (hstep : step limit s label = some s') :
    ∃ owner', Inv owner' s' := by
  cases label with
  | conditionWait t c =>
      simp only [Condition.step] at hstep
      split at hstep
      · next hidle =>
          cases spinLock_eq_some hstep
          exact ⟨owner, h.conditionWait hidle⟩
      · cases hstep
  | condSignal t c =>
      simp only [Condition.step] at hstep
      split at hstep
      · next hidle =>
          cases spinLock_eq_some hstep
          have hcons := h.consistent t
          rw [hidle] at hcons
          exact h.own_goto (by rw [hidle]; rfl) rfl hcons
      · cases hstep
  | condBroadcast t c =>
      simp only [Condition.step] at hstep
      split at hstep
      · next hidle =>
          cases spinLock_eq_some hstep
          have hcons := h.consistent t
          rw [hidle] at hcons
          exact h.own_goto (by rw [hidle]; rfl) rfl hcons
      · cases hstep
  | next t => exact h.threadStep hok hstep

end Preservation

/-! ## No wakeup is lost -/

theorem targets_of_holds {pc : Pc} {p : Waiter} {o : Owner} (hp : pc.Holds p o) :
    p ∈ pc.targets := by
  cases pc <;> cases o <;> simp_all [Pc.Holds, Pc.taken, Pc.targets]

theorem Inv.wakeupSafe {owner : Nat → Owner} {s : State} (h : Inv owner s) : WakeupSafe s := by
  refine ⟨?_, ?_, h.consumed⟩
  · rintro t ⟨⟨c, hpc⟩, hqueue, htargets, hport⟩
    have hcons := h.consistent t
    rw [hpc, hport] at hcons
    have howner : owner t ≠ .nobody := by
      intro howner
      simp [howner, Pc.phase, Consistent] at hcons
    have hheld := (h.holds_iff (owner t) ⟨t, s.waits t⟩ howner).mpr ⟨rfl, rfl⟩
    cases ho : owner t with
    | nobody => exact howner ho
    | queued d =>
        rw [ho] at hheld
        exact hqueue d _ hheld rfl
    | taken u =>
        rw [ho] at hheld
        exact htargets u _ (targets_of_holds ((holds_of_thread rfl rfl).mp hheld)) rfl
    | read u oldState =>
        rw [ho] at hheld
        exact htargets u _ (targets_of_holds ((holds_of_thread rfl rfl).mp hheld)) rfl
    | sending u =>
        rw [ho] at hheld
        exact htargets u _ (targets_of_holds ((holds_of_thread rfl rfl).mp hheld)) rfl
  · intro t wait hport
    have hcons := h.consistent t
    rw [hport] at hcons
    cases hpc : s.pc t <;> cases howner : owner t <;>
      simp_all [Pc.phase, Consistent]

/-- In every run that keeps the accesses to the states of cprocs in order, no wakeup is
lost and every message is received by the wait it was sent for. -/
theorem wakeupSafe_of_ordered (spinLimit yieldLimit : Nat) {s : State}
    (hreach : (machine spinLimit yieldLimit).Reachable StateAccessesOrdered s) :
    WakeupSafe s := by
  obtain ⟨owner, hinv⟩ := hreach.invariant (P := fun s => ∃ owner, Inv owner s)
    (fun s hinit => by
      cases (show s = initial from hinit)
      exact ⟨_, Inv.initial⟩)
    (fun s label s' hinv hok hstep => by
      obtain ⟨owner, hinv⟩ := hinv
      exact hinv.step hok hstep)
  exact hinv.wakeupSafe

/-- Cproc 0 blocks, and thread 1 wakes it with a message. -/
def blockedThenSignalled : List Label :=
  [.conditionWait 0 0, .next 0, .next 0] ++ List.replicate 7 (.next 0) ++
    [.next 0, .next 0, .next 0, .next 0, .condSignal 1 0, .next 1, .next 1, .next 1, .next 1,
      .next 0]

theorem wakeupSafe_blockedThenSignalled :
    ∃ s, (machine 0 7).run initial blockedThenSignalled = some s ∧ s.consumed = [(1, 1)] ∧
      WakeupSafe s := by
  refine ⟨_, rfl, rfl, wakeupSafe_of_ordered 0 7
    (Machine.Reachable.of_run blockedThenSignalled (.init rfl) rfl ?_)⟩
  refine ⟨trivial, trivial, trivial, trivial, trivial, trivial, trivial, trivial, trivial, trivial,
    trivial, ?_, trivial, trivial, trivial, trivial, ?_, trivial, trivial, trivial, trivial⟩
  · rintro (_ | u) p oldState queue hpc
    · cases hpc
    · cases hpc
  · intro c hpc
    cases hpc

/-- Thread 1 reads the state of cproc 0 before that cproc looks again, and writes it after. -/
def lateWrite : List Label :=
  [.conditionWait 0 0, .next 0, .next 0, .condSignal 1 0, .next 1, .next 1] ++
    List.replicate 7 (.next 0) ++ [.next 0, .next 0, .next 1, .next 0, .next 0]

/-- Without the guard a wakeup is lost: the signal found cproc 0 spinning, and sent nothing. -/
theorem wakeup_lost_by_late_write :
    ∃ s, (machine 0 7).run initial lateWrite = some s ∧ LostWakeup s 0 ∧ ¬ WakeupSafe s := by
  refine ⟨_, rfl, ?_⟩
  rw [and_iff_left_of_imp (fun hlost hsafe => hsafe.not_lost 0 hlost)]
  refine ⟨⟨0, rfl⟩, ?_, ?_, rfl⟩
  · rintro (_ | c) p hp
    · cases hp
    · cases hp
  · rintro (_ | _ | u) p hp
    · cases hp
    · cases hp
    · cases hp

end MachFormal.Threads.Condition
