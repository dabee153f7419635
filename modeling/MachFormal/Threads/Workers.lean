import MachFormal.Library.Machine
import MachFormal.Library.Lists

/-!
# Cprocs that serve fork requests

`cthread_fork` puts a request on the queue of cthreads, creates a cproc when
there are more cthreads than cprocs, and signals `cthread_needed` after it has
released `cthread_lock`.  A cproc takes requests from the queue and waits for
`cthread_needed` when there is none.  The main thread waits in `cthread_exit`
until it is the only cthread.

A step is one acquisition or release of `cthread_lock`, one signal, or what is
done between two of them.  Which waiter a signal wakes is an input, and a
waiter may also wake up without a signal.  There is no limit on the number of
cprocs.
-/

namespace MachFormal.Threads.Workers

open MachFormal.Library

/-- Where a cproc is: in `cthread_body`, in the function of a cthread, in `cthread_fork`, or,
for the main thread, in `cthread_exit`. -/
inductive Pc where
  | start
  | loop
  | dispatch
  | running
  | finish
  | account
  | idle
  | sleep
  | needed
  | woken
  | fork
  | forkEnq
  | forkUnlock
  | forkSignal
  | exitLock
  | exitTest
  | exitWait
  | idling
  | exitWoken
  | exitUnlock
  | exit
  | exited
  deriving DecidableEq, Repr

/-- The cproc holds `cthread_lock`. -/
def holds : Pc → Bool
  | .loop | .dispatch | .account | .idle | .sleep | .forkEnq | .forkUnlock | .exitTest
  | .exitWait | .exitUnlock => true
  | _ => false

/-- The cproc runs a cthread, or one that it has not yet accounted finished.  The main thread
stays a cthread in `cthread_exit`. -/
def charged : Pc → Bool
  | .start | .loop | .idle | .sleep | .needed | .woken => false
  | _ => true

/-- The cproc has no cthread and will look at the queue before it waits. -/
def active : Pc → Bool
  | .start | .loop | .woken => true
  | _ => false

/-- The cproc has queued a request and not yet signalled it. -/
def pending : Pc → Bool
  | .forkUnlock | .forkSignal => true
  | _ => false

def asleep : Pc → Bool
  | .needed => true
  | _ => false

/-- The cproc is in `cthread_exit`. -/
def exiting : Pc → Bool
  | .exitLock | .exitTest | .exitWait | .idling | .exitWoken | .exitUnlock | .exit
  | .exited => true
  | _ => false

/-- The cproc is in `cthread_body`, outside the function of a cthread. -/
def serving : Pc → Bool
  | .start | .loop | .dispatch | .finish | .account | .idle | .sleep | .needed | .woken => true
  | _ => false

/-- The shared variables of `cthreads.c`.  Cproc 0 is the one of the main thread; requests are
numbered. -/
structure State where
  pc : Nat → Pc := fun _ => .running
  cprocs : List Nat := [0]
  lock : Option Nat := none
  queue : List Nat := []
  requests : Nat := 0
  nCprocs : Int := 1
  nCthreads : Int := 1

def State.goto (s : State) (p : Nat) (pc : Pc) : State :=
  { s with pc := Function.update s.pc p pc }

/-- `mutex_lock(&cthread_lock)`: no step while it is taken. -/
def acquire (s : State) (p : Nat) (pc : Pc) : Option State :=
  if s.lock = none then some ({ s with lock := some p }.goto p pc) else none

/-- `mutex_unlock(&cthread_lock)`. -/
def release (s : State) (p : Nat) (pc : Pc) : State :=
  { s with lock := none }.goto p pc

/-- `condition_signal`: one waiter, if there is any, is woken. -/
def signal (s : State) (before after : Pc) : Option Nat → Option State
  | some q => if q ∈ s.cprocs ∧ s.pc q = before then some (s.goto q after) else none
  | none => if ∃ q ∈ s.cprocs, s.pc q = before then none else some s

/-- The critical section of `cthread_fork`; `child` is the new cproc, if one is created. -/
def forkSection (s : State) (p child : Nat) : Option State :=
  let s := { s with
    queue := s.queue ++ [s.requests]
    requests := s.requests + 1
    nCthreads := s.nCthreads + 1 }
  if s.nCthreads > s.nCprocs then
    if child ∈ s.cprocs then none
    else some ({ s with nCprocs := s.nCprocs + 1, cprocs := child :: s.cprocs }.goto child
      .start |>.goto p .forkUnlock)
  else some (s.goto p .forkUnlock)

/-- The next step of a cproc that does not run user code. -/
def advance (s : State) (p child : Nat) (wake : Option Nat) : Option State :=
  match s.pc p with
  | .start | .woken => acquire s p .loop
  | .loop =>
      match s.queue with
      | [] => some (s.goto p .idle)
      | _ :: rest => some ({ s with queue := rest }.goto p .dispatch)
  | .dispatch => some (release s p .running)
  | .finish => acquire s p .account
  | .account => some ({ s with nCthreads := s.nCthreads - 1 }.goto p .loop)
  | .idle => (signal s .idling .exitWoken wake).bind fun s => some (s.goto p .sleep)
  | .sleep => some (release s p .needed)
  | .fork => acquire s p .forkEnq
  | .forkEnq => forkSection s p child
  | .forkUnlock => some (release s p .forkSignal)
  | .forkSignal => (signal s .needed .woken wake).bind fun s => some (s.goto p .running)
  | .exitLock | .exitWoken => acquire s p .exitTest
  | .exitTest => some (s.goto p (if s.nCthreads > 1 then .exitWait else .exitUnlock))
  | .exitWait => some (release s p .idling)
  | .exitUnlock => some (release s p .exit)
  | .exit => some (s.goto p .exited)
  | .running | .needed | .idling | .exited => none

/-- A cthread calls `cthread_fork`, returns or calls `cthread_exit`; a cproc goes on with
`cthread_body`, `cthread_fork` or `cthread_exit`; a waiter wakes up without a signal. -/
inductive Label where
  | fork (p : Nat)
  | finish (p : Nat)
  | next (p child : Nat) (wake : Option Nat)
  | spurious (p : Nat)
  deriving DecidableEq, Repr

/-- One step; the process ends when the main thread calls `exit`. -/
def step (s : State) : Label → Option State
  | .fork p =>
      if p ∈ s.cprocs ∧ s.pc p = .running ∧ s.pc 0 ≠ .exited then some (s.goto p .fork)
      else none
  | .finish p =>
      if p ∈ s.cprocs ∧ s.pc p = .running ∧ s.pc 0 ≠ .exited then
        some (s.goto p (if p = 0 then .exitLock else .finish))
      else none
  | .next p child wake =>
      if p ∈ s.cprocs ∧ s.pc 0 ≠ .exited then advance s p child wake else none
  | .spurious p =>
      if p ∈ s.cprocs ∧ s.pc 0 ≠ .exited then
        match s.pc p with
        | .needed => some (s.goto p .woken)
        | .idling => some (s.goto p .exitWoken)
        | _ => none
      else none

/-- `cthread_init`: the main thread runs. -/
def machine : Machine State Label where
  init s := s = {}
  step := step

/-! ## The invariant -/

/-- The number of cprocs at a place of some kind. -/
def count (s : State) (kind : Pc → Bool) : Nat :=
  s.cprocs.countP (fun p => kind (s.pc p))

structure Inv (s : State) : Prop where
  nodup : s.cprocs.Nodup
  main : 0 ∈ s.cprocs
  cprocs : s.nCprocs = s.cprocs.length
  cthreads : s.nCthreads = s.queue.length + count s charged
  enough : s.nCthreads ≤ s.nCprocs
  locked : ∀ p ∈ s.cprocs, holds (s.pc p) = true ↔ s.lock = some p
  owner : ∀ p, s.lock = some p → p ∈ s.cprocs
  supply : count s asleep = 0 ∨ s.queue.length ≤ count s active + count s pending
  drained : ∀ p ∈ s.cprocs, s.pc p = .idle ∨ s.pc p = .sleep → s.queue = []
  role : serving (s.pc 0) = false ∧ ∀ p ∈ s.cprocs, p ≠ 0 → exiting (s.pc p) = false
  patient : s.pc 0 = .exitWait → 1 < s.nCthreads
  alone : s.pc 0 = .exitUnlock ∨ s.pc 0 = .exit ∨ s.pc 0 = .exited → s.nCthreads ≤ 1
  noticed : s.pc 0 = .idling → 1 < s.nCthreads ∨ ∃ p ∈ s.cprocs, s.pc p = .loop ∨ s.pc p = .idle

section Moves

variable {s : State} {p : Nat} {b : Pc}

theorem count_goto (hnodup : s.cprocs.Nodup) (hp : p ∈ s.cprocs) (kind : Pc → Bool) (b : Pc) :
    count (s.goto p b) kind + (kind (s.pc p)).toNat = count s kind + (kind b).toNat :=
  countP_update kind s.pc b hnodup hp

theorem count_pos {kind : Pc → Bool} (hp : p ∈ s.cprocs) (hkind : kind (s.pc p) = true) :
    0 < count s kind :=
  List.countP_pos_iff.mpr ⟨p, hp, hkind⟩

theorem count_two {q : Nat} {kind : Pc → Bool} (hp : p ∈ s.cprocs) (hq : q ∈ s.cprocs)
    (hne : p ≠ q) (hkp : kind (s.pc p) = true) (hkq : kind (s.pc q) = true) :
    2 ≤ count s kind := by
  have hsub : [p, q] ⊆ s.cprocs.filter (fun r => kind (s.pc r)) := by
    intro r hr
    simp only [List.mem_cons, List.not_mem_nil, or_false] at hr
    rcases hr with rfl | rfl
    · exact List.mem_filter.mpr ⟨hp, hkp⟩
    · exact List.mem_filter.mpr ⟨hq, hkq⟩
  have hpair : [p, q].Nodup := by simpa using hne
  have hle := (hpair.subperm hsub).length_le
  rw [← List.countP_eq_length_filter] at hle
  exact hle

theorem goto_pc (s : State) (p q : Nat) (b : Pc) :
    (s.goto p b).pc q = if q = p then b else s.pc q := by
  simp only [State.goto, Function.update_apply]

theorem Inv.two_cthreads (h : Inv s) (hp : p ∈ s.cprocs) (hne : p ≠ 0)
    (hcharged : charged (s.pc p) = true) : 1 < s.nCthreads := by
  have hmain : charged (s.pc 0) = true := by
    have hrole := h.role.1
    cases hpc : s.pc 0 <;> simp_all [serving, charged]
  have htwo := count_two hp h.main hne hcharged hmain
  have hcthreads := h.cthreads
  omega

theorem Inv.holder_unique (h : Inv s) {q : Nat} (hp : p ∈ s.cprocs) (hq : q ∈ s.cprocs)
    (hkp : holds (s.pc p) = true) (hkq : holds (s.pc q) = true) : p = q :=
  Option.some.inj (((h.locked p hp).mp hkp).symm.trans ((h.locked q hq).mp hkq))

theorem Inv.unlocked (h : Inv s) (hp : p ∈ s.cprocs) (hholds : holds (s.pc p) = false) :
    s.lock ≠ some p := by
  intro hlock
  rw [(h.locked p hp).mpr hlock] at hholds
  cases hholds

theorem locked_move {lock : Option Nat} (h : Inv s) (hholds : holds b = true ↔ lock = some p)
    (hothers : ∀ r, r ≠ p → (s.lock = some r ↔ lock = some r)) :
    ∀ q ∈ s.cprocs, holds ((s.goto p b).pc q) = true ↔ lock = some q := by
  intro q hq
  rw [goto_pc]
  by_cases hqp : q = p
  · subst hqp
    rw [if_pos rfl]
    exact hholds
  · rw [if_neg hqp]
    exact (h.locked q hq).trans (hothers q hqp)

/-- The place of one cproc changes, and perhaps the lock; `supply` and `noticed` have to be
argued for. -/
theorem Inv.move {lock : Option Nat} (h : Inv s) (hp : p ∈ s.cprocs)
    (hcharged : charged b = charged (s.pc p))
    (hholds : holds b = true ↔ lock = some p)
    (hothers : ∀ r, r ≠ p → (s.lock = some r ↔ lock = some r))
    (hsupply : s.queue = [] ∨ asleep b = false ∧ (count s asleep = 0 ∨
      s.queue.length + (active (s.pc p)).toNat + (pending (s.pc p)).toNat ≤
        count s active + count s pending + (active b).toNat + (pending b).toNat))
    (hdrained : b = .idle ∨ b = .sleep → s.queue = [])
    (hrole : (p = 0 → serving b = false) ∧ (p ≠ 0 → exiting b = false))
    (hpatient : p = 0 → b = .exitWait → 1 < s.nCthreads)
    (halone : p = 0 → b = .exitUnlock ∨ b = .exit ∨ b = .exited → s.nCthreads ≤ 1)
    (hnoticed : (p = 0 → b = .idling → 1 < s.nCthreads) ∧
      (p ≠ 0 → s.pc p = .loop ∨ s.pc p = .idle →
        b = .loop ∨ b = .idle ∨ s.pc 0 ≠ .idling ∨ 1 < s.nCthreads)) :
    Inv ({ s with lock := lock }.goto p b) := by
  have hcount : ∀ kind, count ({ s with lock := lock }.goto p b) kind +
      (kind (s.pc p)).toNat = count s kind + (kind b).toNat :=
    fun kind => count_goto h.nodup hp kind b
  have hpc : ∀ q, ({ s with lock := lock }.goto p b).pc q = if q = p then b else s.pc q :=
    fun q => goto_pc s p q b
  have hc := hcount charged
  have hact := hcount active
  have hpen := hcount pending
  have hasl := hcount asleep
  have hmain : ∀ c, ({ s with lock := lock }.goto p b).pc 0 = c → (p = 0 ∧ b = c) ∨
      (p ≠ 0 ∧ s.pc 0 = c) := by
    intro c hc0
    rw [hpc] at hc0
    by_cases hp0 : (0 : Nat) = p
    · rw [if_pos hp0] at hc0
      exact Or.inl ⟨hp0.symm, hc0⟩
    · rw [if_neg hp0] at hc0
      exact Or.inr ⟨Ne.symm hp0, hc0⟩
  refine ⟨h.nodup, h.main, h.cprocs, ?_, h.enough, locked_move h hholds hothers, ?_, ?_, ?_, ?_,
    ?_, ?_, ?_⟩
  · have hcthreads := h.cthreads
    rw [hcharged] at hc
    have hsame : count ({ s with lock := lock }.goto p b) charged = count s charged := by omega
    rw [hsame]
    exact hcthreads
  · intro q hq
    by_cases hqp : q = p
    · exact hqp ▸ hp
    · exact h.owner q ((hothers q hqp).mpr hq)
  · have hqueue : ({ s with lock := lock }.goto p b).queue = s.queue := rfl
    rw [hqueue]
    rcases hsupply with hempty | ⟨hb, hnone | hmore⟩
    · right
      have hzero : s.queue.length = 0 := by rw [hempty]; rfl
      exact hzero.le.trans (Nat.zero_le _)
    · left
      rw [hb, hnone] at hasl
      simp only [Bool.toNat_false] at hasl
      omega
    · right
      omega
  · intro q hq hat
    rw [hpc] at hat
    by_cases hqp : q = p
    · rw [if_pos hqp] at hat
      exact hdrained hat
    · rw [if_neg hqp] at hat
      exact h.drained q hq hat
  · constructor
    · rw [hpc]
      by_cases hp0 : (0 : Nat) = p
      · rw [if_pos hp0]
        exact hrole.1 hp0.symm
      · rw [if_neg hp0]
        exact h.role.1
    · intro q hq hne
      rw [hpc]
      by_cases hqp : q = p
      · rw [if_pos hqp]
        exact hrole.2 (hqp ▸ hne)
      · rw [if_neg hqp]
        exact h.role.2 q hq hne
  · intro hat
    rcases hmain _ hat with ⟨hp0, hb⟩ | ⟨-, hold⟩
    · exact hpatient hp0 hb
    · exact h.patient hold
  · intro hat
    have hcases : (p = 0 ∧ (b = .exitUnlock ∨ b = .exit ∨ b = .exited)) ∨
        (s.pc 0 = .exitUnlock ∨ s.pc 0 = .exit ∨ s.pc 0 = .exited) := by
      rcases hat with hat | hat | hat
      all_goals
        rcases hmain _ hat with ⟨hp0, hb⟩ | ⟨-, hold⟩
        · exact Or.inl ⟨hp0, by simp [hb]⟩
        · exact Or.inr (by simp [hold])
    rcases hcases with ⟨hp0, hb⟩ | hold
    · exact halone hp0 hb
    · exact h.alone hold
  · intro hat
    rcases hmain _ hat with ⟨hp0, hb⟩ | ⟨hp0, hold⟩
    · exact Or.inl (hnoticed.1 hp0 hb)
    · rcases h.noticed hold with hmany | ⟨q, hq, hqat⟩
      · exact Or.inl hmany
      · by_cases hqp : q = p
        · subst hqp
          rcases hnoticed.2 hp0 hqat with hb | hb | hne | hmany
          · exact Or.inr ⟨q, hq, Or.inl (by rw [hpc, if_pos rfl, hb])⟩
          · exact Or.inr ⟨q, hq, Or.inr (by rw [hpc, if_pos rfl, hb])⟩
          · exact absurd hold hne
          · exact Or.inl hmany
        · refine Or.inr ⟨q, hq, ?_⟩
          rw [hpc, if_neg hqp]
          exact hqat

theorem Inv.ne_main (h : Inv s) (hserving : serving (s.pc p) = true) : p ≠ 0 := by
  rintro rfl
  rw [h.role.1] at hserving
  cases hserving

theorem Inv.eq_main (h : Inv s) (hp : p ∈ s.cprocs) (hexiting : exiting (s.pc p) = true) :
    p = 0 := by
  by_contra hne
  rw [h.role.2 p hp hne] at hexiting
  cases hexiting

theorem Inv.moveWorker {lock : Option Nat} (h : Inv s) (hp : p ∈ s.cprocs) (hne : p ≠ 0)
    (hcharged : charged b = charged (s.pc p))
    (hholds : holds b = true ↔ lock = some p)
    (hothers : ∀ r, r ≠ p → (s.lock = some r ↔ lock = some r))
    (hsupply : s.queue = [] ∨ (active (s.pc p)).toNat + (pending (s.pc p)).toNat ≤
        (active b).toNat + (pending b).toNat ∧ asleep b = false)
    (hdrained : b = .idle ∨ b = .sleep → s.queue = []) (hexiting : exiting b = false)
    (hnoticed : s.pc p = .loop ∨ s.pc p = .idle →
      b = .loop ∨ b = .idle ∨ s.pc 0 ≠ .idling ∨ 1 < s.nCthreads) :
    Inv ({ s with lock := lock }.goto p b) := by
  refine h.move hp hcharged hholds hothers ?_ hdrained ⟨?_, fun _ => hexiting⟩ ?_ ?_
    ⟨?_, fun _ => hnoticed⟩
  · rcases hsupply with hempty | ⟨hmore, hasl⟩
    · exact Or.inl hempty
    · refine Or.inr ⟨hasl, ?_⟩
      have hsupply := h.supply
      omega
  all_goals exact fun hp0 => absurd hp0 hne

/-- A cproc inside user code, `cthread_fork` or `cthread_exit` moves on and keeps its
cthread. -/
theorem Inv.moveUser {lock : Option Nat} (h : Inv s) (hp : p ∈ s.cprocs)
    (hserving : serving (s.pc p) = false ∧ serving b = false)
    (hholds : holds b = true ↔ lock = some p)
    (hothers : ∀ r, r ≠ p → (s.lock = some r ↔ lock = some r))
    (hpending : (pending (s.pc p)).toNat ≤ (pending b).toNat ∨ count s asleep = 0 ∨
      s.queue.length + (pending (s.pc p)).toNat ≤ count s active + count s pending)
    (hexiting : p ≠ 0 → exiting b = false)
    (hpatient : b = .exitWait ∨ b = .idling → 1 < s.nCthreads)
    (halone : b = .exitUnlock ∨ b = .exit ∨ b = .exited → s.nCthreads ≤ 1) :
    Inv ({ s with lock := lock }.goto p b) := by
  obtain ⟨hfrom, hto⟩ := hserving
  have hfromKind : charged (s.pc p) = true ∧ active (s.pc p) = false := by
    cases hpc : s.pc p <;> simp_all [serving, charged, active]
  have htoKind : charged b = true ∧ active b = false ∧ asleep b = false ∧ b ≠ .idle ∧
      b ≠ .sleep := by
    cases b <;> simp_all [serving, charged, active, asleep]
  obtain ⟨hb, hact, hasl, hidle, hsleep⟩ := htoKind
  refine h.move hp (hb.trans hfromKind.1.symm) hholds hothers ?_ ?_ ⟨fun _ => hto, hexiting⟩
    (fun _ hwait => hpatient (Or.inl hwait)) (fun _ => halone)
    ⟨fun _ hidling => hpatient (Or.inr hidling), ?_⟩
  · refine Or.inr ⟨hasl, ?_⟩
    have hsupply := h.supply
    rw [hfromKind.2, hact]
    omega
  · rintro (heq | heq)
    · exact absurd heq hidle
    · exact absurd heq hsleep
  · rintro - (heq | heq)
    all_goals
      rw [heq] at hfrom
      cases hfrom

theorem acquired (hlock : s.lock = none) : ∀ r, r ≠ p → (s.lock = some r ↔ some p = some r) := by
  intro r hr
  rw [hlock]
  constructor
  · intro hnone
    cases hnone
  · intro heq
    exact absurd (Option.some.inj heq).symm hr

theorem Inv.released (h : Inv s) (hp : p ∈ s.cprocs) (hholds : holds (s.pc p) = true) :
    ∀ r, r ≠ p → (s.lock = some r ↔ none = some r) := by
  intro r hr
  rw [(h.locked p hp).mp hholds]
  constructor
  · intro heq
    exact absurd (Option.some.inj heq).symm hr
  · intro hnone
    cases hnone

theorem Inv.wake {q : Nat} (h : Inv s) (hq : q ∈ s.cprocs) (hpc : s.pc q = .needed) :
    Inv (s.goto q .woken) := by
  have hne : q ≠ 0 := h.ne_main (by rw [hpc]; rfl)
  have hfree := h.unlocked hq (by rw [hpc]; rfl)
  refine @Inv.moveWorker s q .woken s.lock h hq hne ?_ ?_ (fun _ _ => Iff.rfl) ?_ ?_ rfl ?_
  · rw [hpc]
    rfl
  · exact ⟨nofun, fun hlock => absurd hlock hfree⟩
  · rw [hpc]
    exact Or.inr ⟨by decide, rfl⟩
  · rintro (hb | hb) <;> cases hb
  · rw [hpc]
    rintro (hb | hb) <;> cases hb

theorem Inv.wakeMain {q : Nat} (h : Inv s) (hq : q ∈ s.cprocs) (hpc : s.pc q = .idling) :
    Inv (s.goto q .exitWoken) := by
  have hzero : q = 0 := h.eq_main hq (by rw [hpc]; rfl)
  have hfree := h.unlocked hq (by rw [hpc]; rfl)
  refine @Inv.moveUser s q .exitWoken s.lock h hq ⟨by rw [hpc]; rfl, rfl⟩ ?_
    (fun _ _ => Iff.rfl) ?_ ?_ ?_ ?_
  · exact ⟨nofun, fun hlock => absurd hlock hfree⟩
  · rw [hpc]
    exact Or.inl (by decide)
  · exact fun hne => absurd hzero hne
  · rintro (hb | hb) <;> cases hb
  · rintro (hb | hb | hb) <;> cases hb

/-- A worker that holds the lock changes the queue or the number of cthreads and goes on. -/
theorem Inv.resume {queue : List Nat} {n : Int} (h : Inv s) (hp : p ∈ s.cprocs) (hne : p ≠ 0)
    (hholds : holds (s.pc p) = true ∧ holds b = true) (hexiting : exiting b = false)
    (hawake : asleep b = false ∧ b ≠ .idle ∧ b ≠ .sleep)
    (hcthreads : n + s.queue.length + (charged (s.pc p)).toNat =
      s.nCthreads + queue.length + (charged b).toNat) (hless : n ≤ s.nCthreads)
    (hsupply : queue.length + (active (s.pc p)).toNat + (pending (s.pc p)).toNat ≤
      s.queue.length + (active b).toNat + (pending b).toNat)
    (hdrained : s.queue = [] → queue = []) (hpatient : s.pc 0 = .exitWait → 1 < n)
    (hnoticed : s.pc 0 = .idling → 1 < n ∨ b = .loop) :
    Inv ({ s with queue := queue, nCthreads := n }.goto p b) := by
  have hcount : ∀ kind, count ({ s with queue := queue, nCthreads := n }.goto p b) kind +
      (kind (s.pc p)).toNat = count s kind + (kind b).toNat :=
    fun kind => count_goto h.nodup hp kind b
  have hc := hcount charged
  have hact := hcount active
  have hpen := hcount pending
  have hasl := hcount asleep
  have hpc : ∀ q, ({ s with queue := queue, nCthreads := n }.goto p b).pc q =
      if q = p then b else s.pc q := fun q => goto_pc s p q b
  have hpc0 : ({ s with queue := queue, nCthreads := n }.goto p b).pc 0 = s.pc 0 := by
    rw [hpc, if_neg (Ne.symm hne)]
  have hlocked := (h.locked p hp).mp hholds.1
  refine ⟨h.nodup, h.main, h.cprocs, ?_, hless.trans h.enough,
    locked_move h (iff_of_true hholds.2 hlocked) (fun _ _ => Iff.rfl), h.owner, ?_, ?_, ⟨?_, ?_⟩,
    ?_, ?_, ?_⟩
  · have hold := h.cthreads
    simp only [State.goto] at hc ⊢
    omega
  · have hold := h.supply
    rw [hawake.1, Bool.toNat_false] at hasl
    simp only [State.goto] at hact hpen hasl ⊢
    omega
  · intro q hq hat
    rw [hpc] at hat
    by_cases hqp : q = p
    · rw [if_pos hqp] at hat
      exact absurd hat (not_or.mpr hawake.2)
    · rw [if_neg hqp] at hat
      exact hdrained (h.drained q hq hat)
  · rw [hpc0]
    exact h.role.1
  · intro q hq hq0
    rw [hpc]
    by_cases hqp : q = p
    · rw [if_pos hqp]
      exact hexiting
    · rw [if_neg hqp]
      exact h.role.2 q hq hq0
  · rw [hpc0]
    exact hpatient
  · rw [hpc0]
    exact fun hat => hless.trans (h.alone hat)
  · rw [hpc0]
    refine fun hat => (hnoticed hat).imp_right fun hloop => ⟨p, hp, Or.inl ?_⟩
    rw [hpc, if_pos rfl, hloop]

theorem Inv.take {request : Nat} {rest : List Nat} (h : Inv s) (hp : p ∈ s.cprocs)
    (hpc : s.pc p = .loop) (hqueue : s.queue = request :: rest) :
    Inv ({ s with queue := rest }.goto p .dispatch) := by
  refine h.resume hp (h.ne_main (by rw [hpc]; rfl)) ⟨by rw [hpc]; rfl, rfl⟩ rfl
    ⟨rfl, by decide, by decide⟩ ?_ le_rfl ?_ ?_ h.patient (fun _ => Or.inl ?_)
  · rw [hqueue, hpc, List.length_cons]
    simp only [charged, Bool.toNat_true, Bool.toNat_false]
    omega
  · rw [hqueue, hpc]
    exact Nat.le_refl _
  · rw [hqueue]
    exact nofun
  · -- the main thread and the request count
    have hmain : charged (s.pc 0) = true := by
      have hrole := h.role.1
      cases hat : s.pc 0 <;> simp_all [serving, charged]
    have hpos := count_pos h.main hmain
    have hcthreads := h.cthreads
    rw [hqueue, List.length_cons] at hcthreads
    omega

theorem Inv.account (h : Inv s) (hp : p ∈ s.cprocs) (hpc : s.pc p = .account) :
    Inv ({ s with nCthreads := s.nCthreads - 1 }.goto p .loop) := by
  have hne : p ≠ 0 := h.ne_main (by rw [hpc]; rfl)
  have hholds : holds (s.pc p) = true := by rw [hpc]; rfl
  refine h.resume hp hne ⟨hholds, rfl⟩ rfl ⟨rfl, by decide, by decide⟩ ?_ (by omega) ?_ id ?_
    (fun _ => Or.inr rfl)
  · rw [hpc]
    simp only [charged, Bool.toNat_true, Bool.toNat_false]
    omega
  · rw [hpc]
    exact Nat.le_succ _
  · -- the main thread would hold the lock, too
    intro hat
    exact absurd (h.holder_unique hp h.main hholds (by rw [hat]; rfl)) hne

/-- A new cproc, about to enter `cthread_body`. -/
def created (s : State) (child : Nat) : State :=
  { s with nCprocs := s.nCprocs + 1, cprocs := child :: s.cprocs }.goto child .start

theorem Inv.create {child : Nat} (h : Inv s) (hchild : child ∉ s.cprocs) :
    Inv (created s child) := by
  have hpc : ∀ q ∈ s.cprocs, (created s child).pc q = s.pc q := by
    intro q hq
    have hne : q ≠ child := fun heq => hchild (heq ▸ hq)
    exact Function.update_of_ne hne _ _
  have hnew : (created s child).pc child = .start := Function.update_self _ _ _
  have hmain : (created s child).pc 0 = s.pc 0 := hpc 0 h.main
  have hcount : ∀ kind, count (created s child) kind = count s kind + (kind .start).toNat := by
    intro kind
    have hold : s.cprocs.countP (fun q => kind ((created s child).pc q)) = count s kind := by
      refine List.countP_congr (fun q hq => ?_)
      rw [hpc q hq]
    have hcons : (created s child).cprocs = child :: s.cprocs := rfl
    rw [count, hcons, List.countP_cons, hnew, hold]
    cases kind .start <;> rfl
  have hcases : ∀ q, q ∈ (created s child).cprocs → q = child ∨ q ∈ s.cprocs :=
    fun q hq => List.mem_cons.mp hq
  have hfree : s.lock ≠ some child := fun hlock => hchild (h.owner child hlock)
  refine ⟨List.nodup_cons.mpr ⟨hchild, h.nodup⟩, List.mem_cons_of_mem child h.main, ?_, ?_, ?_,
    ?_, fun q hq => List.mem_cons_of_mem child (h.owner q hq), ?_, ?_, ⟨?_, ?_⟩, ?_, ?_, ?_⟩
  · have hcprocs := h.cprocs
    simp only [created, State.goto, List.length_cons]
    omega
  · rw [hcount]
    exact h.cthreads
  · exact h.enough.trans (Int.le_add_one (Int.le_refl _))
  · intro q hq
    rcases hcases q hq with rfl | hq
    · rw [hnew]
      exact ⟨nofun, fun hlock => absurd hlock hfree⟩
    · rw [hpc q hq]
      exact h.locked q hq
  · rw [hcount, hcount, hcount]
    simp only [asleep, active, pending, Bool.toNat_true, Bool.toNat_false]
    rcases h.supply with hnone | hle
    · exact Or.inl hnone
    · refine Or.inr ?_
      have hqueue : (created s child).queue = s.queue := rfl
      rw [hqueue]
      omega
  · intro q hq hat
    rcases hcases q hq with rfl | hq
    · rw [hnew] at hat
      rcases hat with hat | hat <;> cases hat
    · rw [hpc q hq] at hat
      exact h.drained q hq hat
  · rw [hmain]
    exact h.role.1
  · intro q hq hq0
    rcases hcases q hq with rfl | hq
    · rw [hnew]
      rfl
    · rw [hpc q hq]
      exact h.role.2 q hq hq0
  · rw [hmain]
    exact h.patient
  · rw [hmain]
    exact h.alone
  · rw [hmain]
    intro hat
    rcases h.noticed hat with hmany | ⟨q, hq, hqat⟩
    · exact Or.inl hmany
    · refine Or.inr ⟨q, List.mem_cons_of_mem child hq, ?_⟩
      rw [hpc q hq]
      exact hqat

/-- A request is queued and counted. -/
def queued (s : State) : State :=
  { s with
    queue := s.queue ++ [s.requests]
    requests := s.requests + 1
    nCthreads := s.nCthreads + 1 }

theorem Inv.enqueue (h : Inv s) (hp : p ∈ s.cprocs) (hpc : s.pc p = .forkEnq)
    (hroom : s.nCthreads + 1 ≤ s.nCprocs) : Inv ((queued s).goto p .forkUnlock) := by
  have hcount : ∀ kind, count ((queued s).goto p .forkUnlock) kind + (kind .forkEnq).toNat =
      count s kind + (kind .forkUnlock).toNat := by
    intro kind
    rw [← hpc]
    exact count_goto h.nodup hp kind .forkUnlock
  have hc := hcount charged
  have hact := hcount active
  have hpen := hcount pending
  have hasl := hcount asleep
  simp only [charged, active, pending, asleep, Bool.toNat_true, Bool.toNat_false]
    at hc hact hpen hasl
  have hlength : ((queued s).goto p .forkUnlock).queue.length = s.queue.length + 1 := by
    simp [queued, State.goto]
  have hpc' : ∀ q, ((queued s).goto p .forkUnlock).pc q = if q = p then .forkUnlock else s.pc q :=
    fun q => goto_pc s p q .forkUnlock
  have hholds : holds (s.pc p) = true := by rw [hpc]; rfl
  have hlocked := (h.locked p hp).mp hholds
  have hmain : ∀ c, ((queued s).goto p .forkUnlock).pc 0 = c → c = .forkUnlock ∨ s.pc 0 = c := by
    intro c hat
    rw [hpc'] at hat
    split at hat
    · exact Or.inl hat.symm
    · exact Or.inr hat
  have hmany : 1 < s.nCthreads + 1 := by
    have hpos := @count_pos s p charged hp (by rw [hpc]; rfl)
    have hcthreads := h.cthreads
    omega
  refine ⟨h.nodup, h.main, h.cprocs, ?_, hroom, locked_move h ?_ (fun _ _ => Iff.rfl), h.owner,
    ?_, ?_, ⟨?_, ?_⟩, fun _ => hmany, ?_, fun _ => Or.inl hmany⟩
  · have hcthreads := h.cthreads
    have hsame : count ((queued s).goto p .forkUnlock) charged = count s charged := by omega
    rw [hsame, hlength]
    simp only [queued, State.goto]
    omega
  · exact ⟨fun _ => hlocked, fun _ => rfl⟩
  · have hsupply := h.supply
    rw [hlength]
    omega
  · intro q hq hat
    rw [hpc'] at hat
    by_cases hqp : q = p
    · rw [if_pos hqp] at hat
      rcases hat with hat | hat <;> cases hat
    · rw [if_neg hqp] at hat
      -- no other cproc holds the lock
      have hother : holds (s.pc q) = true := by rcases hat with hat | hat <;> rw [hat] <;> rfl
      exact absurd (h.holder_unique hq hp hother hholds) hqp
  · rw [hpc']
    split
    · rfl
    · exact h.role.1
  · intro q hq hq0
    rw [hpc']
    split
    · rfl
    · exact h.role.2 q hq hq0
  · intro hat
    -- a cthread that forks is running, so the main thread cannot be leaving
    have hexit : ∃ c, s.pc 0 = c ∧ (c = .exitUnlock ∨ c = .exit ∨ c = .exited) := by
      rcases hat with hat | hat | hat
      all_goals
        rcases hmain _ hat with hc | hc
        · cases hc
        · exact ⟨_, hc, by simp⟩
    obtain ⟨c, hc0, hcases⟩ := hexit
    have halone := h.alone (by rw [hc0]; exact hcases)
    by_cases hp0 : p = 0
    · subst hp0
      rw [hpc] at hc0
      rcases hcases with rfl | rfl | rfl <;> cases hc0
    · have htwo := h.two_cthreads hp hp0 (by rw [hpc]; rfl)
      omega

end Moves

/-! ## Every step keeps the invariant -/

section Steps

variable {s s' : State} {p : Nat} {b : Pc}

theorem acquire_eq (h : acquire s p b = some s') :
    s.lock = none ∧ s' = { s with lock := some p }.goto p b := by
  unfold acquire at h
  split at h
  next hlock => exact ⟨hlock, (Option.some.inj h).symm⟩
  next => cases h

theorem signal_cases {before after : Pc} {wake : Option Nat}
    (h : signal s before after wake = some s') :
    (∃ q ∈ s.cprocs, s.pc q = before ∧ s' = s.goto q after) ∨
      ((∀ q ∈ s.cprocs, s.pc q ≠ before) ∧ s' = s) := by
  cases wake with
  | none =>
      simp only [signal] at h
      split at h
      next => cases h
      next hnone =>
        exact Or.inr ⟨fun q hq hat => hnone ⟨q, hq, hat⟩, (Option.some.inj h).symm⟩
  | some q =>
      simp only [signal] at h
      split at h
      next hq => exact Or.inl ⟨q, hq.1, hq.2, (Option.some.inj h).symm⟩
      next => cases h

theorem Inv.acquireWorker (h : Inv s) (hp : p ∈ s.cprocs) (hacquire : acquire s p b = some s')
    (hserving : serving (s.pc p) = true) (hplace : b = .loop ∨ b = .account)
    (hcharged : charged b = charged (s.pc p))
    (hactive : (active (s.pc p)).toNat ≤ (active b).toNat) : Inv s' := by
  obtain ⟨hlock, rfl⟩ := acquire_eq hacquire
  have hfree : holds (s.pc p) = false := by
    rw [Bool.eq_false_iff]
    intro hholds
    have howner := (h.locked p hp).mp hholds
    rw [hlock] at howner
    cases howner
  have hpending : pending (s.pc p) = false := by
    cases hpc : s.pc p <;> simp_all [serving, pending]
  refine @Inv.moveWorker s p b (some p) h hp (h.ne_main hserving) hcharged ?_ (acquired hlock)
    ?_ ?_ ?_ ?_
  · rcases hplace with rfl | rfl <;> exact ⟨fun _ => rfl, fun _ => rfl⟩
  · refine Or.inr ⟨?_, ?_⟩
    · rw [hpending]
      simp only [Bool.toNat_false]
      omega
    · rcases hplace with rfl | rfl <;> rfl
  · rcases hplace with rfl | rfl <;> rintro (hb | hb) <;> cases hb
  · rcases hplace with rfl | rfl <;> rfl
  · rintro (hpc | hpc)
    all_goals
      rw [hpc] at hfree
      cases hfree

theorem Inv.acquireUser (h : Inv s) (hp : p ∈ s.cprocs) (hacquire : acquire s p b = some s')
    (hserving : serving (s.pc p) = false) (hpending : pending (s.pc p) = false)
    (hplace : b = .forkEnq ∨ b = .exitTest ∧ exiting (s.pc p) = true) : Inv s' := by
  obtain ⟨hlock, rfl⟩ := acquire_eq hacquire
  refine @Inv.moveUser s p b (some p) h hp ⟨hserving, ?_⟩ ?_ (acquired hlock) ?_ ?_ ?_ ?_
  · rcases hplace with rfl | ⟨rfl, -⟩ <;> rfl
  · rcases hplace with rfl | ⟨rfl, -⟩ <;> exact ⟨fun _ => rfl, fun _ => rfl⟩
  · rw [hpending]
    exact Or.inl (Nat.zero_le _)
  · intro hne
    rcases hplace with rfl | ⟨rfl, hexiting⟩
    · rfl
    · exact absurd (h.eq_main hp hexiting) hne
  · rcases hplace with rfl | ⟨rfl, -⟩ <;> rintro (hb | hb) <;> cases hb
  · rcases hplace with rfl | ⟨rfl, -⟩ <;> rintro (hb | hb | hb) <;> cases hb

theorem Inv.findEmpty (h : Inv s) (hp : p ∈ s.cprocs) (hpc : s.pc p = .loop)
    (hqueue : s.queue = []) : Inv (s.goto p .idle) := by
  have hlocked := (h.locked p hp).mp (by rw [hpc]; rfl)
  refine @Inv.moveWorker s p .idle s.lock h hp (h.ne_main (by rw [hpc]; rfl)) ?_ ?_
    (fun _ _ => Iff.rfl) (Or.inl hqueue) (fun _ => hqueue) rfl (fun _ => Or.inr (Or.inl rfl))
  · rw [hpc]
    rfl
  · exact ⟨fun _ => hlocked, fun _ => rfl⟩

theorem Inv.releaseDispatch (h : Inv s) (hp : p ∈ s.cprocs) (hpc : s.pc p = .dispatch) :
    Inv (release s p .running) := by
  refine @Inv.moveWorker s p .running none h hp (h.ne_main (by rw [hpc]; rfl)) ?_ ⟨nofun, nofun⟩
    (h.released hp (by rw [hpc]; rfl)) ?_ ?_ rfl ?_
  · rw [hpc]
    rfl
  · rw [hpc]
    exact Or.inr ⟨by decide, rfl⟩
  · rintro (hb | hb) <;> cases hb
  · rw [hpc]
    rintro (hb | hb) <;> cases hb

theorem Inv.signalIdle {wake : Option Nat} (h : Inv s) (hpc : s.pc p = .idle)
    (hsignal : signal s .idling .exitWoken wake = some s') :
    Inv s' ∧ s'.cprocs = s.cprocs ∧ s'.pc p = .idle ∧ s'.pc 0 ≠ .idling := by
  rcases signal_cases hsignal with ⟨q, hq, hidling, rfl⟩ | ⟨hnone, rfl⟩
  · have hzero : q = 0 := h.eq_main hq (by rw [hidling]; rfl)
    have hne : p ≠ q := by
      rintro rfl
      rw [hpc] at hidling
      cases hidling
    refine ⟨h.wakeMain hq hidling, rfl, ?_, ?_⟩
    · rw [goto_pc, if_neg hne]
      exact hpc
    · rw [goto_pc, if_pos hzero.symm]
      exact nofun
  · exact ⟨h, rfl, hpc, hnone 0 h.main⟩

theorem Inv.prepareSleep (h : Inv s) (hp : p ∈ s.cprocs) (hpc : s.pc p = .idle)
    (hnoticed : s.pc 0 ≠ .idling) : Inv (s.goto p .sleep) := by
  have hlocked := (h.locked p hp).mp (by rw [hpc]; rfl)
  have hqueue := h.drained p hp (Or.inl hpc)
  refine @Inv.moveWorker s p .sleep s.lock h hp (h.ne_main (by rw [hpc]; rfl)) ?_ ?_
    (fun _ _ => Iff.rfl) (Or.inl hqueue) (fun _ => hqueue) rfl
    (fun _ => Or.inr (Or.inr (Or.inl hnoticed)))
  · rw [hpc]
    rfl
  · exact ⟨fun _ => hlocked, fun _ => rfl⟩

theorem Inv.sleep (h : Inv s) (hp : p ∈ s.cprocs) (hpc : s.pc p = .sleep) :
    Inv (release s p .needed) := by
  have hqueue := h.drained p hp (Or.inr hpc)
  refine @Inv.moveWorker s p .needed none h hp (h.ne_main (by rw [hpc]; rfl)) ?_ ⟨nofun, nofun⟩
    (h.released hp (by rw [hpc]; rfl)) (Or.inl hqueue) (fun _ => hqueue) rfl ?_
  · rw [hpc]
    rfl
  · rw [hpc]
    rintro (hb | hb) <;> cases hb

theorem Inv.forkSection {child : Nat} (h : Inv s) (hp : p ∈ s.cprocs)
    (hpc : s.pc p = .forkEnq) (hfork : forkSection s p child = some s') : Inv s' := by
  unfold Workers.forkSection at hfork
  dsimp only at hfork
  split at hfork
  next =>
    split at hfork
    next => cases hfork
    next hchild =>
      have heq : s' = (queued (created s child)).goto p .forkUnlock := (Option.some.inj hfork).symm
      have hne : p ≠ child := fun heq => hchild (heq ▸ hp)
      rw [heq]
      refine (h.create hchild).enqueue (List.mem_cons_of_mem child hp) ?_ ?_
      · exact (Function.update_of_ne hne _ _).trans hpc
      · have henough := h.enough
        simp only [created, State.goto]
        omega
  next hroom =>
    have heq : s' = (queued s).goto p .forkUnlock := (Option.some.inj hfork).symm
    rw [heq]
    exact h.enqueue hp hpc (by omega)

theorem Inv.forkUnlock (h : Inv s) (hp : p ∈ s.cprocs) (hpc : s.pc p = .forkUnlock) :
    Inv (release s p .forkSignal) := by
  refine @Inv.moveUser s p .forkSignal none h hp ⟨by rw [hpc]; rfl, rfl⟩ ⟨nofun, nofun⟩
    (h.released hp (by rw [hpc]; rfl)) ?_ (fun _ => rfl) ?_ ?_
  · rw [hpc]
    exact Or.inl (by decide)
  · rintro (hb | hb) <;> cases hb
  · rintro (hb | hb | hb) <;> cases hb

/-- The fork's own signal: whoever is woken will look at the queue, and if nobody was there to
be woken then nobody waits. -/
theorem Inv.forkSignal {wake : Option Nat} (h : Inv s) (hp : p ∈ s.cprocs)
    (hpc : s.pc p = .forkSignal) (hsignal : signal s .needed .woken wake = some s') :
    Inv (s'.goto p .running) := by
  have hfree := h.unlocked hp (by rw [hpc]; rfl)
  rcases signal_cases hsignal with ⟨q, hq, hat, rfl⟩ | ⟨hnone, rfl⟩
  · have hne : p ≠ q := by
      rintro rfl
      rw [hpc] at hat
      cases hat
    have hpc' : (s.goto q .woken).pc p = .forkSignal := by
      rw [goto_pc, if_neg hne]
      exact hpc
    have hasleep := @count_pos s q asleep hq (by rw [hat]; rfl)
    have hact := count_goto h.nodup hq active .woken
    have hpen := count_goto h.nodup hq pending .woken
    rw [hat] at hact hpen
    simp only [active, pending, Bool.toNat_true, Bool.toNat_false] at hact hpen
    refine @Inv.moveUser (s.goto q .woken) p .running s.lock (h.wake hq hat) hp
      ⟨by rw [hpc']; rfl, rfl⟩ ⟨nofun, fun hlock => absurd hlock hfree⟩ (fun _ _ => Iff.rfl) ?_
      (fun _ => rfl) ?_ ?_
    · right
      right
      have hsupply := h.supply
      have hqueue : (s.goto q .woken).queue = s.queue := rfl
      rw [hpc', hqueue]
      simp only [pending, Bool.toNat_true]
      omega
    · rintro (hb | hb) <;> cases hb
    · rintro (hb | hb | hb) <;> cases hb
  · refine @Inv.moveUser s' p .running s'.lock h hp ⟨by rw [hpc]; rfl, rfl⟩
      ⟨nofun, fun hlock => absurd hlock hfree⟩ (fun _ _ => Iff.rfl) ?_ (fun _ => rfl) ?_ ?_
    · refine Or.inr (Or.inl (List.countP_eq_zero.mpr (fun q hq => ?_)))
      have hat := hnone q hq
      cases hq : s'.pc q <;> simp_all [asleep]
    · rintro (hb | hb) <;> cases hb
    · rintro (hb | hb | hb) <;> cases hb

theorem Inv.exitMove {lock : Option Nat} (h : Inv s) (hp : p ∈ s.cprocs)
    (hfrom : exiting (s.pc p) = true) (hto : exiting b = true)
    (hholds : holds b = true ↔ lock = some p)
    (hothers : ∀ r, r ≠ p → (s.lock = some r ↔ lock = some r))
    (hpatient : b = .exitWait ∨ b = .idling → 1 < s.nCthreads)
    (halone : b = .exitUnlock ∨ b = .exit ∨ b = .exited → s.nCthreads ≤ 1) :
    Inv ({ s with lock := lock }.goto p b) := by
  have hzero : p = 0 := h.eq_main hp hfrom
  refine h.moveUser hp ⟨?_, ?_⟩ hholds hothers (Or.inl ?_) (fun hne => absurd hzero hne) hpatient
    halone
  · rw [hzero]
    exact h.role.1
  · cases b <;> simp_all [exiting, serving]
  · cases hpc : s.pc p <;> simp_all [exiting, pending]

theorem Inv.advance {child : Nat} {wake : Option Nat} (h : Inv s) (hp : p ∈ s.cprocs)
    (hadvance : advance s p child wake = some s') : Inv s' := by
  unfold Workers.advance at hadvance
  cases hpc : s.pc p with
  | start | woken =>
      rw [hpc] at hadvance
      exact h.acquireWorker hp hadvance (by rw [hpc]; rfl) (Or.inl rfl) (by rw [hpc]; rfl)
        (by rw [hpc]; decide)
  | loop =>
      rw [hpc] at hadvance
      cases hqueue : s.queue with
      | nil =>
          rw [hqueue] at hadvance
          cases hadvance
          exact h.findEmpty hp hpc hqueue
      | cons request rest =>
          rw [hqueue] at hadvance
          cases hadvance
          exact h.take hp hpc hqueue
  | dispatch =>
      rw [hpc] at hadvance
      cases hadvance
      exact h.releaseDispatch hp hpc
  | finish =>
      rw [hpc] at hadvance
      exact h.acquireWorker hp hadvance (by rw [hpc]; rfl) (Or.inr rfl) (by rw [hpc]; rfl)
        (by rw [hpc]; decide)
  | account =>
      rw [hpc] at hadvance
      cases hadvance
      exact h.account hp hpc
  | idle =>
      rw [hpc] at hadvance
      obtain ⟨middle, hsignal, hmove⟩ := Option.bind_eq_some_iff.mp hadvance
      cases hmove
      obtain ⟨hinv, hcprocs, hidle, hnoticed⟩ := h.signalIdle hpc hsignal
      exact hinv.prepareSleep (hcprocs ▸ hp) hidle hnoticed
  | sleep =>
      rw [hpc] at hadvance
      cases hadvance
      exact h.sleep hp hpc
  | fork =>
      rw [hpc] at hadvance
      exact h.acquireUser hp hadvance (by rw [hpc]; rfl) (by rw [hpc]; rfl) (Or.inl rfl)
  | forkEnq =>
      rw [hpc] at hadvance
      exact h.forkSection hp hpc hadvance
  | forkUnlock =>
      rw [hpc] at hadvance
      cases hadvance
      exact h.forkUnlock hp hpc
  | forkSignal =>
      rw [hpc] at hadvance
      obtain ⟨middle, hsignal, hmove⟩ := Option.bind_eq_some_iff.mp hadvance
      cases hmove
      exact h.forkSignal hp hpc hsignal
  | exitLock | exitWoken =>
      rw [hpc] at hadvance
      exact h.acquireUser hp hadvance (by rw [hpc]; rfl) (by rw [hpc]; rfl)
        (Or.inr ⟨rfl, by rw [hpc]; rfl⟩)
  | exitTest =>
      rw [hpc] at hadvance
      cases hadvance
      have hlocked := (h.locked p hp).mp (by rw [hpc]; rfl)
      by_cases hmany : s.nCthreads > 1
      · rw [if_pos hmany]
        refine @Inv.exitMove s p .exitWait s.lock h hp (by rw [hpc]; rfl) rfl
          ⟨fun _ => hlocked, fun _ => rfl⟩ (fun _ _ => Iff.rfl) (fun _ => hmany) ?_
        rintro (hb | hb | hb) <;> cases hb
      · rw [if_neg hmany]
        refine @Inv.exitMove s p .exitUnlock s.lock h hp (by rw [hpc]; rfl) rfl
          ⟨fun _ => hlocked, fun _ => rfl⟩ (fun _ _ => Iff.rfl) ?_ (fun _ => Int.not_lt.mp hmany)
        rintro (hb | hb) <;> cases hb
  | exitWait =>
      rw [hpc] at hadvance
      cases hadvance
      have hzero : p = 0 := h.eq_main hp (by rw [hpc]; rfl)
      have hmany := h.patient (hzero ▸ hpc)
      refine @Inv.exitMove s p .idling none h hp (by rw [hpc]; rfl) rfl ⟨nofun, nofun⟩
        (h.released hp (by rw [hpc]; rfl)) (fun _ => hmany) ?_
      rintro (hb | hb | hb) <;> cases hb
  | exitUnlock =>
      rw [hpc] at hadvance
      cases hadvance
      have hzero : p = 0 := h.eq_main hp (by rw [hpc]; rfl)
      have halone := h.alone (Or.inl (hzero ▸ hpc))
      refine @Inv.exitMove s p .exit none h hp (by rw [hpc]; rfl) rfl ⟨nofun, nofun⟩
        (h.released hp (by rw [hpc]; rfl)) ?_ (fun _ => halone)
      rintro (hb | hb) <;> cases hb
  | exit =>
      rw [hpc] at hadvance
      cases hadvance
      have hzero : p = 0 := h.eq_main hp (by rw [hpc]; rfl)
      have halone := h.alone (Or.inr (Or.inl (hzero ▸ hpc)))
      have hfree := h.unlocked hp (by rw [hpc]; rfl)
      refine @Inv.exitMove s p .exited s.lock h hp (by rw [hpc]; rfl) rfl
        ⟨nofun, fun hlock => absurd hlock hfree⟩ (fun _ _ => Iff.rfl) ?_ (fun _ => halone)
      rintro (hb | hb) <;> cases hb
  | running | needed | idling | exited =>
      rw [hpc] at hadvance
      cases hadvance

theorem Inv.step {label : Label} (h : Inv s) (hstep : step s label = some s') : Inv s' := by
  cases label with
  | fork p =>
      simp only [Workers.step] at hstep
      split at hstep
      next hguard =>
        obtain ⟨hp, hpc, -⟩ := hguard
        cases hstep
        have hfree := h.unlocked hp (by rw [hpc]; rfl)
        refine @Inv.moveUser s p .fork s.lock h hp ⟨by rw [hpc]; rfl, rfl⟩
          ⟨nofun, fun hlock => absurd hlock hfree⟩ (fun _ _ => Iff.rfl)
          (Or.inl (by rw [hpc]; decide)) (fun _ => rfl) ?_ ?_
        · rintro (hb | hb) <;> cases hb
        · rintro (hb | hb | hb) <;> cases hb
      next => cases hstep
  | finish p =>
      simp only [Workers.step] at hstep
      split at hstep
      next hguard =>
        obtain ⟨hp, hpc, -⟩ := hguard
        cases hstep
        have hfree := h.unlocked hp (by rw [hpc]; rfl)
        by_cases hzero : p = 0
        · rw [if_pos hzero]
          refine @Inv.moveUser s p .exitLock s.lock h hp ⟨by rw [hpc]; rfl, rfl⟩
            ⟨nofun, fun hlock => absurd hlock hfree⟩ (fun _ _ => Iff.rfl)
            (Or.inl (by rw [hpc]; decide)) (fun hne => absurd hzero hne) ?_ ?_
          · rintro (hb | hb) <;> cases hb
          · rintro (hb | hb | hb) <;> cases hb
        · rw [if_neg hzero]
          refine @Inv.moveWorker s p .finish s.lock h hp hzero (by rw [hpc]; rfl)
            ⟨nofun, fun hlock => absurd hlock hfree⟩ (fun _ _ => Iff.rfl)
            (Or.inr ⟨by rw [hpc]; decide, rfl⟩) ?_ rfl ?_
          · rintro (hb | hb) <;> cases hb
          · rw [hpc]
            rintro (hb | hb) <;> cases hb
      next => cases hstep
  | next p child wake =>
      simp only [Workers.step] at hstep
      split at hstep
      next hguard => exact h.advance hguard.1 hstep
      next => cases hstep
  | spurious p =>
      simp only [Workers.step] at hstep
      split at hstep
      next hguard =>
        split at hstep
        next hpc =>
          cases hstep
          exact h.wake hguard.1 hpc
        next hpc =>
          cases hstep
          exact h.wakeMain hguard.1 hpc
        next => cases hstep
      next => cases hstep

end Steps

/-! ## Every run -/

theorem initial_inv : Inv {} := by
  refine ⟨List.nodup_singleton 0, List.mem_singleton.mpr rfl, rfl, rfl, by decide, ?_, nofun,
    Or.inl rfl, ?_, ⟨rfl, ?_⟩, nofun, ?_, nofun⟩
  · intro p _
    exact ⟨nofun, nofun⟩
  · intro p _ hat
    rcases hat with hat | hat <;> cases hat
  · intro p hp hne
    exact absurd (List.mem_singleton.mp hp) hne
  · rintro (hat | hat | hat) <;> cases hat

theorem inv_of_reachable {s : State} (hreach : machine.Reachable Machine.always s) : Inv s := by
  refine hreach.invariant ?_ ?_
  · rintro s rfl
    exact initial_inv
  · intro s label s' h _ hstep
    exact h.step hstep

/-- A request is left in the queue: the lock is free, every signal was sent, and every cproc
without a cthread waits for `cthread_needed`. -/
def Stranded (s : State) : Prop :=
  s.queue ≠ [] ∧ s.lock = none ∧ (∀ p ∈ s.cprocs, pending (s.pc p) = false) ∧
    ∀ p ∈ s.cprocs, charged (s.pc p) = false → s.pc p = .needed

theorem Inv.not_stranded {s : State} (h : Inv s) : ¬ Stranded s := by
  rintro ⟨hqueue, -, hpending, hwaiting⟩
  have hnone : count s pending = 0 :=
    List.countP_eq_zero.mpr (fun p hp => by simp [hpending p hp])
  have hinactive : count s active = 0 := by
    refine List.countP_eq_zero.mpr (fun p hp => ?_)
    cases hcharged : charged (s.pc p) with
    | true => cases hpc : s.pc p <;> simp_all [charged, active]
    | false => simp [hwaiting p hp hcharged, active]
  have hpos : 0 < s.queue.length := List.length_pos_iff.mpr hqueue
  -- more cprocs than cthreads that run: one of them waits
  have hspare : count s charged < s.cprocs.length := by
    have hcthreads := h.cthreads
    have hcprocs := h.cprocs
    have henough := h.enough
    omega
  obtain ⟨p, hp, hidle⟩ : ∃ p ∈ s.cprocs, charged (s.pc p) ≠ true := by
    by_contra hall
    have hfull : count s charged = s.cprocs.length :=
      List.countP_eq_length.mpr (fun p hp => by
        by_contra hnot
        exact hall ⟨p, hp, hnot⟩)
    omega
  have hneeded := hwaiting p hp (Bool.eq_false_iff.mpr hidle)
  have hasleep := @count_pos s p asleep hp (by rw [hneeded]; rfl)
  have hsupply := h.supply
  omega

theorem Inv.exit_alone {s : State} (h : Inv s) (hexit : s.pc 0 = .exit) :
    s.queue = [] ∧ ∀ p ∈ s.cprocs, p ≠ 0 → charged (s.pc p) = false := by
  have halone := h.alone (Or.inr (Or.inl hexit))
  have hpos := @count_pos s 0 charged h.main (by rw [hexit]; rfl)
  have hcthreads := h.cthreads
  constructor
  · exact List.length_eq_zero_iff.mp (by omega)
  · intro p hp hne
    rw [Bool.eq_false_iff]
    intro hcharged
    have htwo := h.two_cthreads hp hne hcharged
    omega

/-- No request is stranded and the program does not end early: in every state of every run
`n_cthreads` counts the queued requests and the cthreads not yet accounted finished, no request
is left behind by cprocs that all wait, the main thread calls `exit` as the last cthread, and it
does not wait for `cthread_idle` when nobody is left to signal it. -/
theorem no_thread_stranded {s : State} (hreach : machine.Reachable Machine.always s) :
    s.nCthreads = s.queue.length + count s charged ∧
    ¬ Stranded s ∧
    (s.pc 0 = .exit → s.queue = [] ∧ ∀ p ∈ s.cprocs, p ≠ 0 → charged (s.pc p) = false) ∧
    ¬ (s.pc 0 = .idling ∧ s.nCthreads = 1 ∧ ∀ p ∈ s.cprocs, p ≠ 0 → s.pc p = .needed) := by
  have h := inv_of_reachable hreach
  refine ⟨h.cthreads, h.not_stranded, h.exit_alone, ?_⟩
  rintro ⟨hidling, hone, hwaiting⟩
  rcases h.noticed hidling with hmany | ⟨p, hp, hat⟩
  · omega
  · have hne : p ≠ 0 := by
      rintro rfl
      rw [hidling] at hat
      rcases hat with hat | hat <;> cases hat
    rw [hwaiting p hp hne] at hat
    rcases hat with hat | hat <;> cases hat

/-- The main thread forks a cthread and exits; the new cproc runs the cthread, and its signal
lets the main thread go on. -/
def forkExitRun : List Label :=
  [.fork 0, .next 0 1 none, .next 0 1 none, .next 0 1 none, .next 0 1 none,
    .finish 0, .next 0 0 none, .next 0 0 none, .next 0 0 none,
    .next 1 0 none, .next 1 0 none, .next 1 0 none,
    .finish 1, .next 1 0 none, .next 1 0 none, .next 1 0 none, .next 1 0 (some 0),
    .next 1 0 none, .next 0 0 none, .next 0 0 none, .next 0 0 none]

theorem no_thread_stranded_forkExitRun : ∃ s, machine.run {} forkExitRun = some s ∧
    s.pc 0 = .exit ∧ s.queue = [] ∧ ∀ p ∈ s.cprocs, p ≠ 0 → charged (s.pc p) = false := by
  obtain ⟨s, hrun⟩ : ∃ s, machine.run {} forkExitRun = some s := ⟨_, rfl⟩
  have hexit : s.pc 0 = .exit := by
    cases Option.some.inj hrun
    rfl
  have hreach : machine.Reachable Machine.always s :=
    .of_run forkExitRun (.init rfl) hrun (Machine.meets_of_forall (fun _ _ _ => trivial))
  obtain ⟨-, -, hlast, -⟩ := no_thread_stranded hreach
  exact ⟨s, hrun, hexit, hlast hexit⟩

end MachFormal.Threads.Workers
