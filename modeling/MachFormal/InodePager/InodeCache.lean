import MachFormal.Library.Machine
import MachFormal.Library.Lists

/-!
# The in-core inode cache of the inode pager

`istruct_get` and `istruct_put` run in any number of threads.  Every critical
section under `istruct_lock` is one step; the lock is dropped exactly where the
source drops it, namely while a thread sleeps on a busy record, while it calls
`iget`, and while it releases an evicted inode.
-/

namespace MachFormal.InodePager.InodeCache

open MachFormal.Library

/-- The address of an `istruct`. -/
abbrev IsId := Nat

inductive PagerState where
  | out
  | inMemory
  | busy
  deriving DecidableEq, Repr

/-- The `inode` union: an in-memory inode, or the (dev, fs, ino) of one that is out. -/
inductive InodeUnion where
  | ip (inode : Nat)
  | fsIp (dev fs ino : Nat)
  deriving DecidableEq, Repr

/-- The `ip` member of the union. -/
def InodeUnion.ip? : InodeUnion → Option Nat
  | .ip inode => some inode
  | .fsIp .. => none

structure Istruct where
  useCount : Int
  state : PagerState
  queued : Bool
  paging : Bool
  swapfile : Bool
  inode : InodeUnion
  deriving DecidableEq, Repr

/-- The data guarded by `istruct_lock`. -/
structure Core where
  istruct : IsId → Istruct
  allocated : List IsId
  queue : List IsId
  qcount : Int
  released : Int

/-- Write one record. -/
def Core.put (core : Core) (is : IsId) (rec : Istruct) : Core :=
  { core with istruct := Function.update core.istruct is rec }

inductive Pc where
  | idle
  | getSleep (is : IsId)
  | getWake (is : IsId)
  | getMoving (is : IsId)
  | putReleasing (is : IsId)
  deriving DecidableEq, Repr

/-- A thread: its control point, the istructs it got and did not put yet, and
the value its last `istruct_get` returned. -/
structure Thread where
  pc : Pc
  held : List IsId
  ip : Option Nat
  deriving DecidableEq, Repr

structure State where
  core : Core
  threads : List Thread

/-! ## The two routines -/

section Routines

variable (qmax : Nat) (ident : Nat → Nat × Nat × Nat)

/-- The part of `istruct_get` from its test of `is->state` on. -/
def istructGetTest (core : Core) (thread : Thread) (is : IsId) : Core × Thread :=
  match (core.istruct is).state with
  | .busy => (core, { thread with pc := .getSleep is })
  | .inMemory =>
      (core, { pc := .idle, held := is :: thread.held, ip := (core.istruct is).inode.ip? })
  | .out =>
      (core.put is { core.istruct is with state := .busy }, { thread with pc := .getMoving is })

/-- `istruct_get` up to the first point where it drops the lock. -/
def istructGet (core : Core) (thread : Thread) (is : IsId) : Core × Thread :=
  let rec' := core.istruct is
  let core' := core.put is { rec' with useCount := rec'.useCount + 1, queued := false }
  if rec'.queued then
    istructGetTest { core' with queue := core.queue.erase is, qcount := core.qcount - 1 } thread is
  else
    istructGetTest core' thread is

/-- The end of `istruct_get` after `iget` returned the in-memory inode. -/
def istructGetMoved (core : Core) (thread : Thread) (is : IsId) (inode : Nat) : Core × Thread :=
  ({ core.put is { core.istruct is with inode := .ip inode, state := .inMemory } with
      released := core.released - 1 },
    { pc := .idle, held := is :: thread.held, ip := some inode })

/-- Save the (dev, fs, ino) of the inode that is about to be released. -/
def saveIdentity : InodeUnion → InodeUnion
  | .ip inode => .fsIp (ident inode).1 (ident inode).2.1 (ident inode).2.2
  | saved => saved

/-- The quota loop of `istruct_put` up to the next point where it drops the lock. -/
def istructPutLoop (core : Core) (thread : Thread) : Core × Thread :=
  if core.qcount > qmax then
    match core.queue with
    | [] => (core, { thread with pc := .idle })
    | is :: rest =>
        ({ core.put is { core.istruct is with
              queued := false
              inode := saveIdentity ident (core.istruct is).inode
              state := .busy } with
            queue := rest
            qcount := core.qcount - 1
            released := core.released + 1 },
          { thread with pc := .putReleasing is })
  else
    (core, { thread with pc := .idle })

/-- The LRU bookkeeping of `istruct_put`, after the use count went down. -/
def istructPutQueue (core : Core) (is : IsId) : Core :=
  let rec' := core.istruct is
  if rec'.paging && !rec'.swapfile then
    let core' :=
      if rec'.queued then
        { core with queue := core.queue.erase is, qcount := core.qcount - 1 }
      else core
    if rec'.useCount = 0 then
      { core'.put is { rec' with queued := true } with
        queue := core'.queue ++ [is]
        qcount := core'.qcount + 1 }
    else core'.put is { rec' with queued := false }
  else core

/-- `istruct_put` up to the first point where it drops the lock. -/
def istructPut (core : Core) (thread : Thread) (is : IsId) : Core × Thread :=
  let rec' := core.istruct is
  let core' := core.put is { rec' with useCount := rec'.useCount - 1 }
  istructPutLoop qmax ident (istructPutQueue core' is)
    { thread with held := thread.held.erase is }

/-- `inode_pager_create` and `pf_pager_create` up to their final `istruct_put`:
a new record is born in use by its creator. -/
def pagerCreate (core : Core) (thread : Thread) (is : IsId) (paging swapfile : Bool)
    (inode : Nat) : Core × Thread :=
  ({ core.put is ⟨1, .inMemory, false, paging, swapfile, .ip inode⟩ with
      allocated := is :: core.allocated },
    { thread with held := is :: thread.held })

/-- `thread_wakeup`: every thread asleep on the record becomes runnable. -/
def Thread.wakeup (is : IsId) (thread : Thread) : Thread :=
  if thread.pc = .getSleep is then { thread with pc := .getWake is } else thread

/-- What a thread may do next. -/
inductive Action where
  | create (is : IsId) (paging swapfile : Bool) (inode : Nat)
  | get (is : IsId)
  | relock
  | igetDone (inode : Nat)
  | put (is : IsId)
  | releaseDone
  deriving DecidableEq, Repr

/-- One critical section of one thread, and the record it wakes sleepers of. -/
def act (core : Core) (thread : Thread) : Action → Option ((Core × Thread) × Option IsId)
  | .create is paging swapfile inode =>
      if thread.pc = .idle ∧ is ∉ core.allocated then
        some (pagerCreate core thread is paging swapfile inode, none)
      else none
  | .get is =>
      if thread.pc = .idle ∧ is ∈ core.allocated then
        some (istructGet core thread is, none)
      else none
  | .relock =>
      match thread.pc with
      | .getWake is => some (istructGetTest core thread is, none)
      | _ => none
  | .igetDone inode =>
      match thread.pc with
      | .getMoving is =>
          if (core.istruct is).inode = saveIdentity ident (.ip inode) then
            some (istructGetMoved core thread is inode, some is)
          else none
      | _ => none
  | .put is =>
      if thread.pc = .idle ∧ is ∈ thread.held then
        some (istructPut qmax ident core thread is, none)
      else none
  | .releaseDone =>
      match thread.pc with
      | .putReleasing is =>
          some (istructPutLoop qmax ident
            (core.put is { core.istruct is with state := .out }) thread, some is)
      | _ => none

/-- One step of one thread of the system. -/
def step (s : State) (label : Nat × Action) : Option State := do
  let thread ← s.threads[label.1]?
  let ((core, thread'), woken) ← act qmax ident s.core thread label.2
  let threads := s.threads.set label.1 thread'
  match woken with
  | none => some ⟨core, threads⟩
  | some is => some ⟨core, threads.map (Thread.wakeup is)⟩

/-- Contents of a record that nobody allocated yet. -/
def blank : Istruct := ⟨0, .inMemory, false, false, false, .fsIp 0 0 0⟩

/-- No record exists and every thread is outside the two routines. -/
def Initial (s : State) : Prop :=
  s.core = ⟨fun _ => blank, [], [], 0, 0⟩ ∧
    ∀ thread ∈ s.threads, thread.pc = .idle ∧ thread.held = []

def machine : Machine State (Nat × Action) where
  init := Initial
  step := step qmax ident

end Routines

/-! ## Counting what threads do with a record -/

/-- A thread inside `istruct_get` of the record. -/
def Pc.gets (is : IsId) : Pc → Nat
  | .getSleep x | .getWake x | .getMoving x => if x = is then 1 else 0
  | _ => 0

/-- A thread that is moving the record in or out. -/
def Pc.moves (is : IsId) : Pc → Nat
  | .getMoving x | .putReleasing x => if x = is then 1 else 0
  | _ => 0

/-- A thread between two rounds of the quota loop. -/
def Pc.releases : Pc → Nat
  | .putReleasing _ => 1
  | _ => 0

/-- Returned gets of the record that were not put yet. -/
def holders (threads : List Thread) (is : IsId) : Nat :=
  (threads.map (fun thread => thread.held.count is)).sum

/-- Gets of the record that are still running. -/
def getters (threads : List Thread) (is : IsId) : Nat :=
  (threads.map (fun thread => thread.pc.gets is)).sum

def movers (threads : List Thread) (is : IsId) : Nat :=
  (threads.map (fun thread => thread.pc.moves is)).sum

def releasers (threads : List Thread) : Nat :=
  (threads.map (fun thread => thread.pc.releases)).sum

@[simp] theorem wakeup_held (is : IsId) (thread : Thread) :
    (thread.wakeup is).held = thread.held := by
  unfold Thread.wakeup
  split <;> rfl

@[simp] theorem wakeup_gets (woken is : IsId) (thread : Thread) :
    (thread.wakeup woken).pc.gets is = thread.pc.gets is := by
  unfold Thread.wakeup
  split <;> simp_all [Pc.gets]

@[simp] theorem wakeup_moves (woken is : IsId) (thread : Thread) :
    (thread.wakeup woken).pc.moves is = thread.pc.moves is := by
  unfold Thread.wakeup
  split <;> simp_all [Pc.moves]

@[simp] theorem wakeup_releases (woken : IsId) (thread : Thread) :
    (thread.wakeup woken).pc.releases = thread.pc.releases := by
  unfold Thread.wakeup
  split <;> simp_all [Pc.releases]

section Counts

variable {threads : List Thread} {index : Nat} {old new : Thread}

theorem holders_set (hold : threads[index]? = some old) (new : Thread) (is : IsId) :
    holders (threads.set index new) is + old.held.count is =
      holders threads is + new.held.count is :=
  sum_map_set (fun thread => thread.held.count is) hold

theorem getters_set (hold : threads[index]? = some old) (new : Thread) (is : IsId) :
    getters (threads.set index new) is + old.pc.gets is =
      getters threads is + new.pc.gets is :=
  sum_map_set (fun thread => thread.pc.gets is) hold

theorem movers_set (hold : threads[index]? = some old) (new : Thread) (is : IsId) :
    movers (threads.set index new) is + old.pc.moves is =
      movers threads is + new.pc.moves is :=
  sum_map_set (fun thread => thread.pc.moves is) hold

theorem releasers_set (hold : threads[index]? = some old) (new : Thread) :
    releasers (threads.set index new) + old.pc.releases =
      releasers threads + new.pc.releases :=
  sum_map_set (fun thread => thread.pc.releases) hold

end Counts

/-! ## The invariant -/

/-- What holds inside every critical section, relative to what the threads do. -/
structure Consistent (core : Core) (threads : List Thread) : Prop where
  queue_iff : ∀ is, is ∈ core.queue ↔ (core.istruct is).queued = true
  queue_nodup : core.queue.Nodup
  qcount_eq : core.qcount = core.queue.length
  queued_idle : ∀ is, (core.istruct is).queued = true →
    (core.istruct is).useCount = 0 ∧ (core.istruct is).state = .inMemory
  use_eq : ∀ is, (core.istruct is).useCount = holders threads is + getters threads is
  held_inMemory : ∀ is, 0 < holders threads is → (core.istruct is).state = .inMemory
  movers_eq : ∀ is, movers threads is = if (core.istruct is).state = .busy then 1 else 0
  released_eq : core.released =
    core.allocated.countP (fun is => (core.istruct is).state != .inMemory)
  allocated_nodup : core.allocated.Nodup
  fresh : ∀ is, is ∉ core.allocated → core.istruct is = blank
  inCore : ∀ is ∈ core.allocated, (core.istruct is).state = .inMemory →
    ((core.istruct is).inode.ip?).isSome = true

/-- Between critical sections the quota is met, or some thread is still evicting. -/
structure Inv (qmax : Nat) (s : State) : Prop where
  consistent : Consistent s.core s.threads
  quota : (qmax : Int) < s.core.qcount → 0 < releasers s.threads

section Preservation

variable {core : Core} {threads : List Thread} {index : Nat} {thread : Thread} {is : IsId}

theorem Consistent.allocated (h : Consistent core threads)
    (huse : 0 < holders threads is + getters threads is ∨ 0 < movers threads is) :
    is ∈ core.allocated := by
  by_contra hfresh
  have hblank := h.fresh is hfresh
  have hcount := h.use_eq is
  have hmove := h.movers_eq is
  simp only [hblank, blank] at hcount hmove
  simp only [reduceCtorEq, if_false] at hmove
  omega

/-- Rewriting one allocated record keeps consistency when the record itself does. -/
theorem Consistent.update (h : Consistent core threads) (hmem : is ∈ core.allocated)
    {rec' : Istruct} {queue' : List IsId} {released' : Int} {threads' : List Thread}
    (hholders : ∀ x, x ≠ is → holders threads' x = holders threads x)
    (hgetters : ∀ x, x ≠ is → getters threads' x = getters threads x)
    (hmovers : ∀ x, x ≠ is → movers threads' x = movers threads x)
    (hqueue : ∀ x, x ≠ is → (x ∈ queue' ↔ x ∈ core.queue))
    (hqueued : is ∈ queue' ↔ rec'.queued = true)
    (hnodup : queue'.Nodup)
    (hidle : rec'.queued = true → rec'.useCount = 0 ∧ rec'.state = .inMemory)
    (huse : rec'.useCount = holders threads' is + getters threads' is)
    (hheld : 0 < holders threads' is → rec'.state = .inMemory)
    (hmoved : movers threads' is = if rec'.state = .busy then 1 else 0)
    (hreleased : released' + ((core.istruct is).state != .inMemory).toNat =
      core.released + (rec'.state != .inMemory).toNat)
    (hinCore : rec'.state = .inMemory → rec'.inode.ip?.isSome = true) :
    Consistent { core with
      istruct := Function.update core.istruct is rec'
      queue := queue'
      qcount := queue'.length
      released := released' } threads' := by
  have hcount := countP_update (fun r : Istruct => r.state != .inMemory) core.istruct rec'
    h.allocated_nodup hmem
  have hold := h.released_eq
  refine ⟨?_, hnodup, rfl, ?_, ?_, ?_, ?_, ?_, h.allocated_nodup, ?_, ?_⟩
  · intro x
    by_cases hx : x = is
    · subst hx
      simpa using hqueued
    · simpa [hx] using (hqueue x hx).trans (h.queue_iff x)
  · intro x
    by_cases hx : x = is
    · subst hx
      simpa using hidle
    · simpa [hx] using h.queued_idle x
  · intro x
    by_cases hx : x = is
    · subst hx
      simpa using huse
    · simpa [hx, hholders x hx, hgetters x hx] using h.use_eq x
  · intro x
    by_cases hx : x = is
    · subst hx
      simpa using hheld
    · simpa [hx, hholders x hx] using h.held_inMemory x
  · intro x
    by_cases hx : x = is
    · subst hx
      simpa using hmoved
    · simpa [hx, hmovers x hx] using h.movers_eq x
  · dsimp only
    omega
  · intro x hx
    have hne : x ≠ is := fun heq => hx (heq ▸ hmem)
    simpa [hne] using h.fresh x hx
  · intro x hx
    by_cases hxis : x = is
    · subst hxis
      simpa using hinCore
    · simpa [hxis] using h.inCore x hx

/-- `istruct_get` first counts its use and takes the record off the queue. -/
def istructGetEnter (core : Core) (is : IsId) : Core :=
  let rec' := core.istruct is
  let core' := core.put is { rec' with useCount := rec'.useCount + 1, queued := false }
  if rec'.queued then
    { core' with queue := core.queue.erase is, qcount := core.qcount - 1 }
  else core'

theorem istructGet_eq (core : Core) (thread : Thread) (is : IsId) :
    istructGet core thread is =
      istructGetTest (istructGetEnter core is) { thread with pc := .getWake is } is := by
  unfold istructGet istructGetEnter istructGetTest
  dsimp only
  split <;> rfl

theorem Consistent.dequeue_length (h : Consistent core threads) (is : IsId) :
    ((core.queue.erase is).length : Int) =
      if (core.istruct is).queued then core.qcount - 1 else core.qcount := by
  have hlength := List.length_erase (a := is) (l := core.queue)
  have hq := h.qcount_eq
  split
  · next hqueued =>
      have hin := (h.queue_iff is).mpr hqueued
      have hpos : 0 < core.queue.length := List.length_pos_of_mem hin
      rw [if_pos hin] at hlength
      omega
  · next hqueued =>
      have hnot : is ∉ core.queue := fun hin => hqueued ((h.queue_iff is).mp hin)
      rw [List.erase_of_not_mem hnot]
      omega

theorem istructGetEnter_eq (h : Consistent core threads) (is : IsId) :
    istructGetEnter core is =
      { core with
        istruct := Function.update core.istruct is
          { core.istruct is with useCount := (core.istruct is).useCount + 1, queued := false }
        queue := core.queue.erase is
        qcount := (core.queue.erase is).length } := by
  have hlength := h.dequeue_length is
  unfold istructGetEnter Core.put
  dsimp only
  split
  · next hqueued => rw [hlength, if_pos hqueued]
  · next hqueued =>
      have hnot : is ∉ core.queue := fun hin => hqueued ((h.queue_iff is).mp hin)
      rw [hlength, if_neg hqueued, List.erase_of_not_mem hnot]

theorem Consistent.getEnter (h : Consistent core threads)
    (hthread : threads[index]? = some thread) (hidle : thread.pc = .idle)
    (hmem : is ∈ core.allocated) :
    Consistent (istructGetEnter core is)
      (threads.set index { thread with pc := .getWake is }) := by
  have hH := holders_set hthread { thread with pc := .getWake is }
  have hG := getters_set hthread { thread with pc := .getWake is }
  have hM := movers_set hthread { thread with pc := .getWake is }
  simp only [hidle, Pc.gets, Pc.moves, Nat.add_zero, Nat.add_right_cancel_iff] at hH hG hM
  have huse := h.use_eq is
  rw [istructGetEnter_eq h is]
  refine h.update hmem (fun x _ => hH x) (fun x hx => ?_) (fun x _ => hM x)
    (fun x hx => List.mem_erase_of_ne hx) ?_ (h.queue_nodup.erase is) ?_ ?_ ?_ ?_ rfl ?_
  · rw [hG x, if_neg (Ne.symm hx), Nat.add_zero]
  · simp [h.queue_nodup.mem_erase_iff]
  · simp
  · rw [hH is, hG is, if_pos rfl]
    push_cast
    omega
  · rw [hH is]
    exact h.held_inMemory is
  · rw [hM is]
    exact h.movers_eq is
  · exact h.inCore is hmem

theorem Consistent.put_eq (h : Consistent core threads) (is : IsId) (rec : Istruct) :
    core.put is rec = { core with
      istruct := Function.update core.istruct is rec
      qcount := core.queue.length } := by
  rw [← h.qcount_eq]
  rfl

theorem Consistent.unqueued (h : Consistent core threads)
    (hstate : (core.istruct is).state ≠ .inMemory) : (core.istruct is).queued = false :=
  Bool.eq_false_iff.mpr fun hqueued => hstate (h.queued_idle is hqueued).2

/-- The record that a thread moves in or out. -/
theorem Consistent.moving (h : Consistent core threads) (hthread : threads[index]? = some thread)
    (hmoves : thread.pc.moves is = 1) :
    is ∈ core.allocated ∧ (core.istruct is).state = .busy ∧ (core.istruct is).queued = false := by
  have hcounted : 1 ≤ movers threads is := by
    have hle := le_sum_map (fun t : Thread => t.pc.moves is) (List.mem_of_getElem? hthread)
    rwa [hmoves] at hle
  have hstate : (core.istruct is).state = .busy := by
    have hmove := h.movers_eq is
    by_contra hne
    rw [if_neg hne] at hmove
    omega
  exact ⟨h.allocated (Or.inr (by omega)), hstate, h.unqueued (by simp [hstate])⟩

/-- A woken or new getter either returns, sleeps again, or starts to move the record in. -/
theorem Consistent.getTest (h : Consistent core threads)
    (hthread : threads[index]? = some thread) (hwake : thread.pc = .getWake is) :
    Consistent (istructGetTest core thread is).1
      (threads.set index (istructGetTest core thread is).2) := by
  have hgetting : 1 ≤ getters threads is := by
    have hle := le_sum_map (fun t : Thread => t.pc.gets is) (List.mem_of_getElem? hthread)
    simpa [hwake, Pc.gets] using! hle
  have hmem : is ∈ core.allocated := h.allocated (Or.inl (by omega))
  have huse := h.use_eq is
  have hmove := h.movers_eq is
  have hheld := h.held_inMemory is
  unfold istructGetTest
  cases hstate : (core.istruct is).state with
  | busy =>
      have hH := holders_set hthread { thread with pc := .getSleep is }
      have hG := getters_set hthread { thread with pc := .getSleep is }
      have hM := movers_set hthread { thread with pc := .getSleep is }
      simp only [hwake, Pc.gets, Pc.moves, Nat.add_right_cancel_iff] at hH hG hM
      exact { h with
        use_eq := fun x => by rw [hH x, hG x]; exact h.use_eq x
        held_inMemory := fun x => by rw [hH x]; exact h.held_inMemory x
        movers_eq := fun x => by rw [hM x]; exact h.movers_eq x }
  | inMemory =>
      have hH := holders_set hthread ⟨.idle, is :: thread.held,
        (core.istruct is).inode.ip?⟩
      have hG := getters_set hthread ⟨.idle, is :: thread.held,
        (core.istruct is).inode.ip?⟩
      have hM := movers_set hthread ⟨.idle, is :: thread.held,
        (core.istruct is).inode.ip?⟩
      simp only [hwake, Pc.gets, Pc.moves, Nat.add_zero, List.count_cons,
        beq_iff_eq] at hH hG hM
      dsimp only
      exact { h with
        use_eq := fun x => by
          have hx := h.use_eq x
          have hHx := hH x
          have hGx := hG x
          omega
        held_inMemory := fun x hpos => by
          have hHx := hH x
          by_cases hx : is = x
          · subst hx
            exact hstate
          · rw [if_neg hx] at hHx
            exact h.held_inMemory x (by omega)
        movers_eq := fun x => by rw [hM x]; exact h.movers_eq x }
  | out =>
      have hH := holders_set hthread { thread with pc := .getMoving is }
      have hG := getters_set hthread { thread with pc := .getMoving is }
      have hM := movers_set hthread { thread with pc := .getMoving is }
      simp only [hwake, Pc.gets, Pc.moves, Nat.add_right_cancel_iff, Nat.add_zero] at hH hG hM
      have hqueued : (core.istruct is).queued = false := h.unqueued (by simp [hstate])
      have hnone : holders threads is = 0 := by
        by_contra hpos
        have hmemory := hheld (by omega)
        simp [hstate] at hmemory
      dsimp only
      rw [h.put_eq]
      refine h.update hmem (fun x _ => hH x) (fun x _ => hG x) (fun x hx => ?_)
        (fun x _ => Iff.rfl) ?_ h.queue_nodup ?_ ?_ ?_ ?_ ?_ ?_
      · rw [hM x, if_neg (Ne.symm hx), Nat.add_zero]
      · simpa [hqueued] using h.queue_iff is
      · simp [hqueued]
      · rw [hH is, hG is]
        exact huse
      · rw [hH is, hnone]
        omega
      · rw [hM is, if_pos rfl, if_pos rfl, hmove, hstate]
        rfl
      · rw [hstate]
        rfl
      · simp

theorem Consistent.getMoved (h : Consistent core threads)
    (hthread : threads[index]? = some thread) (hmoving : thread.pc = .getMoving is)
    (inode : Nat) :
    Consistent (istructGetMoved core thread is inode).1
      (threads.set index (istructGetMoved core thread is inode).2) := by
  obtain ⟨hmem, hstate, hqueued⟩ : is ∈ core.allocated ∧ _ ∧ _ :=
    h.moving hthread (by simp [hmoving, Pc.moves])
  have huse := h.use_eq is
  have hmove := h.movers_eq is
  have hH := holders_set hthread ⟨.idle, is :: thread.held, some inode⟩
  have hG := getters_set hthread ⟨.idle, is :: thread.held, some inode⟩
  have hM := movers_set hthread ⟨.idle, is :: thread.held, some inode⟩
  simp only [hmoving, Pc.gets, Pc.moves, Nat.add_zero, List.count_cons, beq_iff_eq] at hH hG hM
  have hcore : (istructGetMoved core thread is inode).1 =
      { core with
        istruct := Function.update core.istruct is
          { core.istruct is with inode := .ip inode, state := .inMemory }
        qcount := core.queue.length
        released := core.released - 1 } := by
    rw [← h.qcount_eq]
    rfl
  rw [hcore]
  unfold istructGetMoved
  dsimp only
  refine h.update hmem (fun x hx => ?_) (fun x hx => ?_) (fun x hx => ?_)
    (fun x _ => Iff.rfl) ?_ h.queue_nodup ?_ ?_ ?_ ?_ ?_ ?_
  · have hHx := hH x
    rw [if_neg (Ne.symm hx)] at hHx
    omega
  · have hGx := hG x
    rw [if_neg (Ne.symm hx)] at hGx
    omega
  · have hMx := hM x
    rw [if_neg (Ne.symm hx)] at hMx
    omega
  · simpa [hqueued] using h.queue_iff is
  · simp [hqueued]
  · have hHis := hH is
    have hGis := hG is
    rw [if_pos rfl] at hHis hGis
    dsimp only
    omega
  · intro _
    rfl
  · have hMis := hM is
    rw [if_pos rfl, hmove, if_pos hstate] at hMis
    simp only [reduceCtorEq, if_false]
    omega
  · simp [hstate, show (PagerState.busy != PagerState.inMemory) = true from rfl]
  · intro _
    rfl

theorem Consistent.create (h : Consistent core threads)
    (hthread : threads[index]? = some thread) (hnew : is ∉ core.allocated)
    (paging swapfile : Bool) (inode : Nat) :
    Consistent (pagerCreate core thread is paging swapfile inode).1
      (threads.set index (pagerCreate core thread is paging swapfile inode).2) := by
  have hblank := h.fresh is hnew
  have huse := h.use_eq is
  have hmove := h.movers_eq is
  have hnotQueued : is ∉ core.queue := by
    rw [h.queue_iff is, hblank]
    simp [blank]
  simp only [hblank, blank, reduceCtorEq, if_false] at huse hmove
  have hH := holders_set hthread { thread with held := is :: thread.held }
  have hG := getters_set hthread { thread with held := is :: thread.held }
  have hM := movers_set hthread { thread with held := is :: thread.held }
  simp only [List.count_cons, beq_iff_eq, Nat.add_right_cancel_iff] at hH hG hM
  unfold pagerCreate Core.put
  dsimp only
  refine ⟨?_, h.queue_nodup, h.qcount_eq, ?_, ?_, ?_, ?_, ?_,
    List.nodup_cons.mpr ⟨hnew, h.allocated_nodup⟩, ?_, ?_⟩
  · intro x
    by_cases hx : x = is
    · subst hx
      simpa using hnotQueued
    · simpa [hx] using h.queue_iff x
  · intro x
    by_cases hx : x = is
    · subst hx
      simp
    · simpa [hx] using h.queued_idle x
  · intro x
    have hHx := hH x
    have hGx := hG x
    by_cases hx : x = is
    · subst hx
      simp only [Function.update_self]
      rw [if_pos rfl] at hHx
      omega
    · have hold := h.use_eq x
      rw [if_neg (Ne.symm hx)] at hHx
      simp only [Function.update_of_ne hx]
      omega
  · intro x hpos
    have hHx := hH x
    by_cases hx : x = is
    · subst hx
      simp
    · rw [if_neg (Ne.symm hx)] at hHx
      simpa [hx] using h.held_inMemory x (by omega)
  · intro x
    by_cases hx : x = is
    · subst hx
      simpa [hM x] using hmove
    · simpa [hx, hM x] using h.movers_eq x
  · have hrest : core.allocated.countP (fun x =>
        ((Function.update core.istruct is
          ⟨1, .inMemory, false, paging, swapfile, .ip inode⟩) x).state != .inMemory) =
        core.allocated.countP (fun x => (core.istruct x).state != .inMemory) :=
      List.countP_congr (fun x hx => by
        have hne : x ≠ is := fun heq => hnew (heq ▸ hx)
        rw [Function.update_of_ne hne])
    dsimp only
    rw [List.countP_cons, hrest, Function.update_self]
    simpa using h.released_eq
  · intro x hx
    obtain ⟨hne, hold⟩ := not_or.mp (fun hor => hx (List.mem_cons.mpr hor))
    simpa [hne] using h.fresh x hold
  · intro x hx
    by_cases hxis : x = is
    · subst hxis
      simp [InodeUnion.ip?]
    · simpa [hxis] using h.inCore x ((List.mem_cons.mp hx).resolve_left hxis)

/-- A held record is on no queue, so a put only decides whether to queue it now. -/
theorem istructPutQueue_eq (h : Consistent core threads)
    (hheld : 0 < holders threads is) :
    istructPutQueue (core.put is { core.istruct is with
        useCount := (core.istruct is).useCount - 1 }) is =
      { core with
        istruct := Function.update core.istruct is { core.istruct is with
          useCount := (core.istruct is).useCount - 1
          queued := (core.istruct is).paging && !(core.istruct is).swapfile &&
            decide ((core.istruct is).useCount - 1 = 0) }
        queue := core.queue ++ (if (core.istruct is).paging && !(core.istruct is).swapfile &&
          decide ((core.istruct is).useCount - 1 = 0) then [is] else [])
        qcount := (core.queue ++ (if (core.istruct is).paging && !(core.istruct is).swapfile &&
          decide ((core.istruct is).useCount - 1 = 0) then [is] else [])).length } := by
  have huse := h.use_eq is
  have hlen := h.qcount_eq
  have hqueued : (core.istruct is).queued = false := by
    by_contra hq
    have hidle := h.queued_idle is (by simpa using hq)
    omega
  unfold istructPutQueue Core.put
  simp only [Function.update_self, hqueued, Bool.false_eq_true, if_false,
    Function.update_idem]
  by_cases hpaging : ((core.istruct is).paging && !(core.istruct is).swapfile) = true
  · by_cases hzero : (core.istruct is).useCount - 1 = 0
    · simp [hpaging, hzero, hlen]
    · simp [hpaging, hzero, hlen]
  · simp only [Bool.not_eq_true] at hpaging
    simp [hpaging, hlen]

theorem Consistent.putEnter (h : Consistent core threads)
    (hthread : threads[index]? = some thread) (hheld : is ∈ thread.held) :
    Consistent (istructPutQueue (core.put is { core.istruct is with
        useCount := (core.istruct is).useCount - 1 }) is)
      (threads.set index { thread with held := thread.held.erase is }) := by
  have hcount : 1 ≤ thread.held.count is := List.count_pos_iff.mpr hheld
  have hholders : 1 ≤ holders threads is :=
    Nat.le_trans hcount (le_sum_map (fun t : Thread => t.held.count is)
      (List.mem_of_getElem? hthread))
  have hmem : is ∈ core.allocated := h.allocated (Or.inl (by omega))
  have hstate := h.held_inMemory is hholders
  have huse := h.use_eq is
  have hnot : is ∉ core.queue := by
    intro hin
    have hidle := h.queued_idle is ((h.queue_iff is).mp hin)
    omega
  have hH := holders_set hthread { thread with held := thread.held.erase is }
  have hG := getters_set hthread { thread with held := thread.held.erase is }
  have hM := movers_set hthread { thread with held := thread.held.erase is }
  simp only [Nat.add_right_cancel_iff, List.count_erase, beq_iff_eq] at hH hG hM
  rw [istructPutQueue_eq h hholders]
  refine h.update hmem (fun x hx => ?_) (fun x _ => hG x) (fun x _ => hM x) (fun x hx => ?_)
    ?_ ?_ ?_ ?_ ?_ ?_ rfl ?_
  · have hHx := hH x
    rw [if_neg (Ne.symm hx)] at hHx
    omega
  · split <;> simp [hx]
  · split
    · next hqueue => simpa using hqueue
    · next hqueue => simpa [hnot] using hqueue
  · split
    · exact List.nodup_append.mpr ⟨h.queue_nodup, by simp,
        fun x hx y hy hxy => hnot (by rw [← List.mem_singleton.mp hy, ← hxy]; exact hx)⟩
    · simpa using h.queue_nodup
  · intro hqueue
    simp only [Bool.and_eq_true, decide_eq_true_eq] at hqueue
    exact ⟨hqueue.2, hstate⟩
  · have hHis := hH is
    rw [if_pos rfl] at hHis
    rw [hG is]
    dsimp only
    omega
  · intro _
    exact hstate
  · rw [hM is]
    exact h.movers_eq is
  · intro _
    exact h.inCore is hmem hstate

/-- The evicting thread marks its record out and is at the head of the quota loop again. -/
theorem Consistent.releaseEnd (h : Consistent core threads)
    (hthread : threads[index]? = some thread) (hreleasing : thread.pc = .putReleasing is) :
    Consistent (core.put is { core.istruct is with state := .out })
      (threads.set index { thread with pc := .idle }) := by
  obtain ⟨hmem, hstate, hqueued⟩ : is ∈ core.allocated ∧ _ ∧ _ :=
    h.moving hthread (by simp [hreleasing, Pc.moves])
  have hmove := h.movers_eq is
  have hH := holders_set hthread { thread with pc := .idle }
  have hG := getters_set hthread { thread with pc := .idle }
  have hM := movers_set hthread { thread with pc := .idle }
  simp only [hreleasing, Pc.gets, Pc.moves, Nat.add_right_cancel_iff, Nat.add_zero] at hH hG hM
  rw [h.put_eq]
  refine h.update hmem (fun x _ => hH x) (fun x _ => hG x) (fun x hx => ?_)
    (fun x _ => Iff.rfl) ?_ h.queue_nodup ?_ ?_ ?_ ?_ ?_ ?_
  · have hMx := hM x
    rw [if_neg (Ne.symm hx)] at hMx
    exact hMx
  · simpa [hqueued] using h.queue_iff is
  · simp [hqueued]
  · rw [hH is, hG is]
    exact h.use_eq is
  · intro hpos
    have hmemory := h.held_inMemory is (by rw [← hH is]; exact hpos)
    simp [hstate] at hmemory
  · have hMis := hM is
    rw [if_pos rfl, hmove, if_pos hstate] at hMis
    simp only [reduceCtorEq, if_false]
    omega
  · rw [hstate]
    rfl
  · simp

variable (qmax : Nat) (ident : Nat → Nat × Nat × Nat)

/-- One round of the quota loop: leave with the quota met, or evict the first record. -/
theorem Consistent.putLoop (h : Consistent core threads)
    (hthread : threads[index]? = some thread) (hidle : thread.pc = .idle) :
    Inv qmax ⟨(istructPutLoop qmax ident core thread).1,
      threads.set index (istructPutLoop qmax ident core thread).2⟩ := by
  have hback : threads.set index { thread with pc := .idle } = threads := by
    have hsame : { thread with pc := .idle } = thread := by
      cases thread
      simp_all
    obtain ⟨hlt, hget⟩ := List.getElem?_eq_some_iff.mp hthread
    rw [hsame, ← hget]
    exact List.set_getElem_self hlt
  unfold istructPutLoop
  split
  · next hover =>
      cases hqueue : core.queue with
      | nil =>
          have hlen := h.qcount_eq
          rw [hqueue] at hlen
          simp only [List.length_nil] at hlen
          omega
      | cons is rest =>
          have hin : is ∈ core.queue := by
            rw [hqueue]
            exact List.mem_cons_self
          have hqueued := (h.queue_iff is).mp hin
          obtain ⟨hzero, hstate⟩ := h.queued_idle is hqueued
          have hmem : is ∈ core.allocated := by
            by_contra hfresh
            rw [h.fresh is hfresh] at hqueued
            cases hqueued
          have hnodup := h.queue_nodup
          have hlen := h.qcount_eq
          have huse := h.use_eq is
          have hmove := h.movers_eq is
          rw [hqueue] at hnodup hlen
          obtain ⟨hhead, htail⟩ := List.nodup_cons.mp hnodup
          have hH := holders_set hthread { thread with pc := .putReleasing is }
          have hG := getters_set hthread { thread with pc := .putReleasing is }
          have hM := movers_set hthread { thread with pc := .putReleasing is }
          have hR := releasers_set hthread { thread with pc := .putReleasing is }
          simp only [hidle, Pc.gets, Pc.moves, Pc.releases, Nat.add_right_cancel_iff,
            Nat.add_zero] at hH hG hM hR
          have hqcount : core.qcount - 1 = rest.length := by
            rw [hlen, List.length_cons]
            omega
          refine ⟨?_, fun _ => by dsimp only; omega⟩
          dsimp only [Core.put]
          rw [hqcount]
          refine h.update hmem (fun x _ => hH x) (fun x _ => hG x) (fun x hx => ?_)
            (fun x hx => ?_) ?_ htail ?_ ?_ ?_ ?_ ?_ ?_
          · rw [hM x, if_neg (Ne.symm hx), Nat.add_zero]
          · rw [hqueue, List.mem_cons]
            exact ⟨Or.inr, fun hor => hor.resolve_left hx⟩
          · simpa using hhead
          · simp
          · rw [hH is, hG is]
            exact huse
          · rw [hH is]
            intro hpos
            omega
          · rw [hM is, if_pos rfl, if_pos rfl, hmove, hstate]
            rfl
          · simp [hstate, show (PagerState.busy != PagerState.inMemory) = true from rfl]
          · simp
  · next hover =>
      dsimp only
      rw [hback]
      exact ⟨h, fun hq => absurd hq hover⟩

theorem Inv.wakeup {s : State} (h : Inv qmax s) (woken : IsId) :
    Inv qmax ⟨s.core, s.threads.map (Thread.wakeup woken)⟩ := by
  have hH : ∀ is, holders (s.threads.map (Thread.wakeup woken)) is = holders s.threads is :=
    fun is => by simp [holders, Function.comp_def]
  have hG : ∀ is, getters (s.threads.map (Thread.wakeup woken)) is = getters s.threads is :=
    fun is => by simp [getters, Function.comp_def]
  have hM : ∀ is, movers (s.threads.map (Thread.wakeup woken)) is = movers s.threads is :=
    fun is => by simp [movers, Function.comp_def]
  have hR : releasers (s.threads.map (Thread.wakeup woken)) = releasers s.threads := by
    simp [releasers, Function.comp_def]
  have hc := h.consistent
  exact ⟨{ hc with
    use_eq := fun is => by rw [hH, hG]; exact hc.use_eq is
    held_inMemory := fun is => by rw [hH]; exact hc.held_inMemory is
    movers_eq := fun is => by rw [hM]; exact hc.movers_eq is }, fun hq => by
      rw [hR]
      exact h.quota hq⟩

theorem Inv.of_consistent {s : State} (h : Inv qmax s) {core' : Core} {new : Thread}
    (hthread : s.threads[index]? = some thread)
    (hconsistent : Consistent core' (s.threads.set index new))
    (hqcount : core'.qcount ≤ s.core.qcount)
    (hreleases : thread.pc.releases = new.pc.releases) :
    Inv qmax ⟨core', s.threads.set index new⟩ := by
  refine ⟨hconsistent, fun hover => ?_⟩
  have hR := releasers_set hthread new
  have hold := h.quota (by dsimp only at hover; omega)
  dsimp only
  omega

theorem istructGetTest_qcount (core : Core) (thread : Thread) (is : IsId) :
    (istructGetTest core thread is).1.qcount = core.qcount := by
  unfold istructGetTest
  split <;> rfl

theorem istructGetTest_releases (core : Core) (thread : Thread) (is : IsId) :
    (istructGetTest core thread is).2.pc.releases = 0 := by
  unfold istructGetTest
  split <;> rfl

theorem istructGetEnter_qcount_le (core : Core) (is : IsId) :
    (istructGetEnter core is).qcount ≤ core.qcount := by
  unfold istructGetEnter Core.put
  dsimp only
  split
  · dsimp only
    omega
  · exact le_rfl

theorem Inv.act {s : State} (h : Inv qmax s) (hthread : s.threads[index]? = some thread)
    {action : Action} {result : Core × Thread} {woken : Option IsId}
    (hact : act qmax ident s.core thread action = some (result, woken)) :
    Inv qmax ⟨result.1, s.threads.set index result.2⟩ := by
  have hset : ∀ middle last : Thread,
      (s.threads.set index middle).set index last = s.threads.set index last :=
    fun middle last => List.set_set ..
  have hmiddle : ∀ middle : Thread, (s.threads.set index middle)[index]? = some middle :=
    fun middle => by
      obtain ⟨hlt, _⟩ := List.getElem?_eq_some_iff.mp hthread
      exact List.getElem?_set_self hlt
  cases action with
  | create is paging swapfile inode =>
      simp only [InodeCache.act] at hact
      split at hact
      · next hguard =>
          cases hact
          exact h.of_consistent qmax hthread
            (h.consistent.create hthread hguard.2 paging swapfile inode) le_rfl rfl
      · cases hact
  | get is =>
      simp only [InodeCache.act] at hact
      split at hact
      · next hguard =>
          have hentered := h.consistent.getEnter hthread hguard.1 hguard.2
          have htested := hentered.getTest (hmiddle _) rfl
          rw [hset] at htested
          rw [istructGet_eq] at hact
          cases hact
          refine h.of_consistent qmax hthread htested ?_ ?_
          · rw [istructGetTest_qcount]
            exact istructGetEnter_qcount_le s.core is
          · rw [istructGetTest_releases, hguard.1]
            rfl
      · cases hact
  | relock =>
      simp only [InodeCache.act] at hact
      split at hact
      · next is hwake =>
          cases hact
          refine h.of_consistent qmax hthread (h.consistent.getTest hthread hwake) ?_ ?_
          · rw [istructGetTest_qcount]
          · rw [istructGetTest_releases, hwake]
            rfl
      · cases hact
  | igetDone inode =>
      simp only [InodeCache.act] at hact
      split at hact
      · next is hmoving =>
          split at hact
          · cases hact
            refine h.of_consistent qmax hthread
              (h.consistent.getMoved hthread hmoving inode) le_rfl ?_
            rw [hmoving]
            rfl
          · cases hact
      · cases hact
  | put is =>
      simp only [InodeCache.act] at hact
      split at hact
      · next hguard =>
          have hentered := h.consistent.putEnter hthread hguard.2
          have hlooped := hentered.putLoop qmax ident (hmiddle _) hguard.1
          rw [hset] at hlooped
          cases hact
          exact hlooped
      · cases hact
  | releaseDone =>
      simp only [InodeCache.act] at hact
      split at hact
      · next is hreleasing =>
          have hended := h.consistent.releaseEnd hthread hreleasing
          have hlooped := hended.putLoop qmax ident (hmiddle _) rfl
          have hsame : ∀ core' : Core, istructPutLoop qmax ident core' thread =
              istructPutLoop qmax ident core' { thread with pc := .idle } := by
            intro core'
            unfold istructPutLoop
            split
            · split <;> rfl
            · rfl
          rw [hset] at hlooped
          rw [hsame] at hact
          cases hact
          exact hlooped
      · cases hact

theorem Inv.step {s s' : State} {label : Nat × Action} (h : Inv qmax s)
    (hstep : step qmax ident s label = some s') : Inv qmax s' := by
  unfold InodeCache.step at hstep
  obtain ⟨thread, hthread, hrest⟩ := Option.bind_eq_some_iff.mp hstep
  obtain ⟨⟨⟨core', new⟩, woken⟩, hact, hend⟩ := Option.bind_eq_some_iff.mp hrest
  have hnext := h.act qmax ident hthread hact
  cases woken with
  | none =>
      cases hend
      exact hnext
  | some is =>
      cases hend
      exact hnext.wakeup qmax is

theorem Inv.initial {s : State} (hinit : Initial s) : Inv qmax s := by
  obtain ⟨hcore, hthreads⟩ := hinit
  have hH : ∀ is, holders s.threads is = 0 := by
    intro is
    by_contra hpos
    obtain ⟨t, ht, hcount⟩ := exists_pos_of_sum_pos _ (Nat.pos_of_ne_zero hpos)
    simp [(hthreads t ht).2] at hcount
  have hG : ∀ is, getters s.threads is = 0 := by
    intro is
    by_contra hpos
    obtain ⟨t, ht, hcount⟩ := exists_pos_of_sum_pos _ (Nat.pos_of_ne_zero hpos)
    simp [(hthreads t ht).1, Pc.gets] at hcount
  have hM : ∀ is, movers s.threads is = 0 := by
    intro is
    by_contra hpos
    obtain ⟨t, ht, hcount⟩ := exists_pos_of_sum_pos _ (Nat.pos_of_ne_zero hpos)
    simp [(hthreads t ht).1, Pc.moves] at hcount
  refine ⟨?_, ?_⟩
  · rw [hcore]
    constructor <;> simp [hH, hG, hM, blank]
  · rw [hcore]
    intro hover
    dsimp only at hover
    omega

end Preservation

/-! ## The cache in every reachable state -/

/-- What the cache promises in a state. -/
structure CacheSpec (qmax : Nat) (s : State) : Prop where
  /-- A record is on the queue iff its flag says so, and then once. -/
  queue_count : ∀ is, s.core.queue.count is =
    if (s.core.istruct is).queued = true then 1 else 0
  qcount_eq : s.core.qcount = s.core.queue.length
  queued_idle : ∀ is ∈ s.core.queue,
    (s.core.istruct is).useCount = 0 ∧ (s.core.istruct is).state = .inMemory
  /-- What a get returned stays in memory and is neither queued nor being released. -/
  held_inMemory : ∀ thread ∈ s.threads, ∀ is ∈ thread.held,
    (s.core.istruct is).state = .inMemory ∧ is ∉ s.core.queue ∧
      ∀ other ∈ s.threads, other.pc ≠ .putReleasing is
  /-- Uses are the returned and the running gets that were not put. -/
  use_eq : ∀ is, (s.core.istruct is).useCount =
    (holders s.threads is + getters s.threads is : Nat)
  /-- One thread moves a busy record, none moves another. -/
  movers_eq : ∀ is, movers s.threads is =
    if (s.core.istruct is).state = .busy then 1 else 0
  released_eq : s.core.released = s.core.allocated.countP (fun is =>
    (s.core.istruct is).state == .out || (s.core.istruct is).state == .busy)
  quota : (∀ thread ∈ s.threads, ∀ is, thread.pc ≠ .putReleasing is) →
    s.core.qcount ≤ qmax

theorem Inv.cacheSpec {qmax : Nat} {s : State} (h : Inv qmax s) : CacheSpec qmax s := by
  have hc := h.consistent
  refine ⟨?_, hc.qcount_eq, ?_, ?_, ?_, hc.movers_eq, ?_, ?_⟩
  · intro is
    rw [hc.queue_nodup.count, if_congr (hc.queue_iff is) rfl rfl]
  · intro is hin
    exact hc.queued_idle is ((hc.queue_iff is).mp hin)
  · intro thread hthread is hheld
    have hholders : 0 < holders s.threads is :=
      Nat.lt_of_lt_of_le (List.count_pos_iff.mpr hheld)
        (le_sum_map (fun t : Thread => t.held.count is) hthread)
    have hstate := hc.held_inMemory is hholders
    refine ⟨hstate, ?_, ?_⟩
    · intro hin
      have hzero := (hc.queued_idle is ((hc.queue_iff is).mp hin)).1
      have huse := hc.use_eq is
      omega
    · intro other hother hpc
      have hle : other.pc.moves is ≤ movers s.threads is :=
        le_sum_map (fun t : Thread => t.pc.moves is) hother
      have hmove := hc.movers_eq is
      rw [hpc, hmove, hstate] at hle
      simp [Pc.moves] at hle
  · intro is
    rw [hc.use_eq is]
    push_cast
    rfl
  · rw [hc.released_eq]
    congr 2
    funext is
    cases (s.core.istruct is).state <;> rfl
  · intro hnone
    by_contra hover
    obtain ⟨t, ht, hpos⟩ := exists_pos_of_sum_pos _ (h.quota (by omega))
    cases hpc : t.pc with
    | putReleasing is => exact hnone t ht is hpc
    | idle | getSleep is | getWake is | getMoving is => simp [hpc, Pc.releases] at hpos

/-- For any number of threads and any interleaving of their critical sections,
the cache specification holds in every reachable state. -/
theorem cacheSpec_of_reachable (qmax : Nat) (ident : Nat → Nat × Nat × Nat) {s : State}
    (hreach : (machine qmax ident).Reachable Machine.always s) : CacheSpec qmax s :=
  (hreach.invariant (P := Inv qmax) (fun _ hinit => Inv.initial qmax hinit)
    (fun _ _ _ hinv _ hstep => hinv.step qmax ident hstep)).cacheSpec

/-- Two threads race on one record with an empty quota: the first evicts it while
the second sleeps on it, and the second then brings it back. -/
def evictionStart : State :=
  ⟨⟨fun _ => blank, [], [], 0, 0⟩, [⟨.idle, [], none⟩, ⟨.idle, [], none⟩]⟩

def evictionRun : List (Nat × Action) :=
  [(0, .create 7 true false 3), (0, .put 7), (1, .get 7), (0, .releaseDone),
    (1, .relock), (1, .igetDone 3)]

theorem cacheSpec_after_eviction :
    ∃ s, (machine 0 (fun inode => (inode, 0, 0))).run evictionStart evictionRun = some s ∧
      s.threads = [⟨.idle, [], none⟩, ⟨.idle, [7], some 3⟩] ∧ CacheSpec 0 s := by
  refine ⟨_, rfl, rfl, ?_⟩
  refine cacheSpec_of_reachable 0 (fun inode => (inode, 0, 0))
    (Machine.Reachable.of_run (s := evictionStart) evictionRun (.init ⟨rfl, ?_⟩) rfl
      (Machine.meets_of_forall (fun _ _ _ => trivial)))
  intro thread hthread
  simp only [evictionStart, List.mem_cons, List.not_mem_nil, or_false, or_self] at hthread
  rw [hthread]
  exact ⟨rfl, rfl⟩

end MachFormal.InodePager.InodeCache
