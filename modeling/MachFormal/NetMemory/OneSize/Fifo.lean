import MachFormal.NetMemory.OneSize.Access
import MachFormal.NetMemory.OneSize.Requests

/-!
# The scheduler for kernels of one page size: locks

Every call of the scheduler is a call of the readers-writer lock of one unit: it
leaves the lock that the call of the lock returns, and it sends the messages for
what the lock says.  The requests of the queue are the waiting clients, and the
sets of waiters hold what they wait for.
-/

namespace MachFormal.NetMemory.OneSize

open Library.ReadersWriters

variable {u : Nat}

/-- The kernel of a request. -/
def clientOf (object : Object) (r : Nat) : Nat := ((object.requests r).kernel).getD maxNumKernels

/-- The lock of unit `j` with this queue. -/
def lockOf (u : Nat) (object : Object) (j : Nat) (queue : List Nat) : RWLock Nat where
  access := accessOf (object.minPages (u * j))
  queue := queue.map fun r => waiterOf (object.minPages (u * j)) (clientOf object r)

/-- The sets of waiters of unit `j` have nobody but those of the queue. -/
structure Marked (u : Nat) (object : Object) (j : Nat) (queue : List Nat) : Prop where
  write : ∀ k, setMember (object.minPages (u * j)).writeWaiters k = true →
    k ∈ queue.map (clientOf object)
  data : ∀ k, setMember (object.minPages (u * j)).dataWaiters k = true →
    k ∈ queue.map (clientOf object)
  others : ∀ i, 0 < i → i < u → (object.minPages (u * j + i)).writeWaiters = 0 ∧
    (object.minPages (u * j + i)).dataWaiters = 0

/-- A call for unit `j` has this result. -/
structure Outcome (u j : Nat) (object object' : Object) (lists lists' : Lists)
    (result : RWLock Nat × List (Word Nat)) : Prop where
  lock : lockOf u object' j (lists'.queue j) = result.1
  sent : object'.sent = tell u object.kerninfo j result.2 object.sent
  marked : Marked u object' j (lists'.queue j)
  queues : ∀ j', j' ≠ j → lists'.queue j' = lists.queue j'
  pages : ∀ page, page / u ≠ j → object'.minPages page = object.minPages page
  clients : ∀ j', j' ≠ j → ∀ r ∈ lists.queue j', clientOf object' r = clientOf object r

section Steps

variable {object object' object'' : Object} {lists lists' lists'' : Lists} {acked : List Nat}
  {locks : List Lock} {j j' kernel : Nat} {queue : List Nat}
  {result : RWLock Nat × List (Word Nat)}

/-- The other locks stay as they are. -/
theorem Outcome.other (outcome : Outcome u j object object' lists lists' result) (hu : 0 < u)
    (hne : j' ≠ j) :
    lockOf u object' j' (lists'.queue j') = lockOf u object j' (lists.queue j') := by
  have page := outcome.pages (u * j') (by rwa [Nat.mul_div_cancel_left _ hu])
  rw [lockOf, lockOf, page, outcome.queues j' hne]
  refine congrArg _ (List.map_congr_left fun r inside => ?_)
  rw [outcome.clients j' hne r inside]

theorem Outcome.marked_other (outcome : Outcome u j object object' lists lists' result)
    (hu : 0 < u) (hne : j' ≠ j) (marked : Marked u object j' (lists.queue j')) :
    Marked u object' j' (lists'.queue j') := by
  have page := outcome.pages (u * j') (by rwa [Nat.mul_div_cancel_left _ hu])
  have same : (lists'.queue j').map (clientOf object') =
      (lists.queue j').map (clientOf object) := by
    rw [outcome.queues j' hne]
    exact List.map_congr_left fun r inside => outcome.clients j' hne r inside
  refine ⟨fun k => ?_, fun k => ?_, fun i positive inside => ?_⟩
  · rw [page, same]
    exact marked.write k
  · rw [page, same]
    exact marked.data k
  · rw [outcome.pages _ (by rwa [unit_div inside])]
    exact marked.others i positive inside

/-- Nothing has happened but some words. -/
theorem Outcome.told {words : List (Word Nat)} {sent : List Message}
    (marked : Marked u object j (lists.queue j))
    (said : sent = tell u object.kerninfo j words object.sent) :
    Outcome u j object { object with sent := sent } lists lists
      (lockOf u object j (lists.queue j), words) :=
  ⟨rfl, said, ⟨marked.write, marked.data, marked.others⟩, fun _ _ => rfl, fun _ _ => rfl,
    fun _ _ _ _ => rfl⟩

/-- The books of the pages and the kernels of the requests are the same. -/
structure Alike (object object' : Object) : Prop where
  pages : ∀ page, (object'.minPages page).use = (object.minPages page).use ∧
    (object'.minPages page).user = (object.minPages page).user
  waiters : KeepsWaiters object object'
  clients : clientOf object' = clientOf object

theorem Alike.lockOf (alike : Alike object object') (j : Nat) (queue : List Nat) :
    lockOf u object' j queue = lockOf u object j queue := by
  obtain ⟨use, user⟩ := alike.pages (u * j)
  obtain ⟨write, data⟩ := alike.waiters (u * j)
  rw [OneSize.lockOf, OneSize.lockOf, accessOf_congr use user, alike.clients]
  refine congrArg _ (List.map_congr_left fun r _ => ?_)
  rw [waiterOf, waiterOf, write, data]

theorem Marked.kept (marked : Marked u object j queue) (waiters : KeepsWaiters object object')
    (clients : clientOf object' = clientOf object) : Marked u object' j queue := by
  refine ⟨fun k => ?_, fun k => ?_, fun i positive inside => ?_⟩
  · rw [(waiters _).1, clients]
    exact marked.write k
  · rw [(waiters _).2, clients]
    exact marked.data k
  · rw [(waiters _).1, (waiters _).2]
    exact marked.others i positive inside

theorem alike_evict (object : Object) (j x w : Nat) : Alike object (evict u object j x w) := by
  refine ⟨fun page => ?_, fun page => ?_, ?_⟩
  · rw [evict_minPages]
    split
    · exact ⟨rfl, rfl⟩
    · exact ⟨rfl, rfl⟩
  · rw [evict_minPages]
    split
    · exact ⟨rfl, rfl⟩
    · exact ⟨rfl, rfl⟩
  · funext r
    rw [clientOf, clientOf, evict_requests]
    split
    · rfl
    · rfl

/-- The writer is asked last. -/
theorem Outcome.evict (outcome : Outcome u j object object' lists lists' result) (hu : 0 < u)
    (info : object'.kerninfo = object.kerninfo) (x w : Nat) :
    Outcome u j object (evict u object' j x w) lists lists'
      (result.1, result.2 ++ [.recall w]) := by
  have alike := alike_evict (u := u) object' j x w
  refine ⟨?_, ?_, outcome.marked.kept alike.waiters alike.clients, outcome.queues, fun page hpage => ?_,
    fun j' hne r inside => ?_⟩
  · rw [alike.lockOf, outcome.lock]
  · rw [tell_concat, ← outcome.sent, ← info]
    rfl
  · have other : page ≠ u * j := by
      rintro rfl
      exact hpage (Nat.mul_div_cancel_left j hu)
    rw [evict_minPages, if_neg other]
    exact outcome.pages page hpage
  · rw [alike.clients]
    exact outcome.clients j' hne r inside

/-- A call goes on. -/
theorem Outcome.trans {next : RWLock Nat × List (Word Nat)} {words : List (Word Nat)}
    {lock : RWLock Nat} (first : Outcome u j object object' lists lists' (lock, words))
    (info : object'.kerninfo = object.kerninfo)
    (second : Outcome u j object' object'' lists' lists'' next) :
    Outcome u j object object'' lists lists'' (next.1, words ++ next.2) := by
  refine ⟨second.lock, ?_, second.marked, fun j' hne => ?_, fun page hpage => ?_,
    fun j' hne r inside => ?_⟩
  · rw [tell_append, ← first.sent, ← info]
    exact second.sent
  · exact (second.queues j' hne).trans (first.queues j' hne)
  · exact (second.pages page hpage).trans (first.pages page hpage)
  · rw [second.clients j' hne r (by rwa [first.queues j' hne])]
    exact first.clients j' hne r inside

/-! ## Satisfying requests -/

theorem serve_cons (waiter : Waiter Nat) (rest : List (Waiter Nat)) (access : Nat → Access) :
    serve kernels (waiter :: rest) access =
      if waiter.write then
        (⟨(letIn access waiter).1, rest⟩,
          (letIn access waiter).2 ++ if rest.isEmpty then [] else [.recall waiter.client])
      else
        ((serve kernels rest (letIn access waiter).1).1,
          (letIn access waiter).2 ++ (serve kernels rest (letIn access waiter).1).2) := by
  rw [serve, letIn]
  split
  · rfl
  · rfl

theorem waiterOf_served {page : MinPage} {k : Nat} (other : k ≠ kernel) :
    waiterOf (served kernel page) k = waiterOf page k := by
  rw [waiterOf, waiterOf, served]
  rcases Nat.lt_or_ge k 32 with small | large
  · rw [setMember_setDelete _ small, setMember_setDelete _ small,
      decide_eq_true (Ne.symm other), Bool.and_true, Bool.and_true]
  · rw [setMember_large _ large, setMember_large _ large, setMember_large _ large,
      setMember_large _ large]

theorem member_served {set : BitVec 32} {k : Nat} (member : setMember (setDelete set kernel) k) :
    setMember set k = true ∧ k ≠ kernel := by
  rcases Nat.lt_or_ge k 32 with small | large
  · rw [setMember_setDelete _ small, Bool.and_eq_true] at member
    exact ⟨member.1, Ne.symm (of_decide_eq_true member.2)⟩
  · rw [setMember_large _ large] at member
    cases member

/-- The page at its turn has been given away. -/
structure GaveAway (u j kernel : Nat) (object object' : Object) : Prop where
  sent : object'.sent = tell u object.kerninfo j (letIn (accessOf (object.minPages (u * j)))
    (waiterOf (object.minPages (u * j)) kernel)).2 object.sent
  access : accessOf (object'.minPages (u * j)) = (letIn (accessOf (object.minPages (u * j)))
    (waiterOf (object.minPages (u * j)) kernel)).1
  waiters : KeepsWaiters (object.setPage (u * j) (served kernel)) object'

theorem gaveAway_outcome {r : Nat} {rest : List Nat} (mid : Mid u object lists acked locks j)
    (hqueue : lists.queue j = r :: rest) (hattached : Attached object kernel) :
    GaveAway u j kernel object (gaveAway u object j r kernel) ∧
      ((object.satisfyKernel kernel (u * j) (u * j + u - 1)).2 = .write ↔
        (waiterOf (object.minPages (u * j)) kernel).write = true) := by
  obtain ⟨use, user, looks, huse, readers⟩ := mid.opened
  rw [hqueue] at looks
  obtain ⟨sent, access, waiters, write⟩ :=
    satisfyKernel_outcome mid.pos mid.sized looks huse readers hattached
  refine ⟨⟨sent, ?_, waiters.trans (keepsWaiters_setUnit fun _ => ⟨rfl, rfl⟩)⟩, write⟩
  rw [← access, gaveAway, setUnit_first mid.pos]
  rfl

theorem GaveAway.page (gave : GaveAway u j kernel object object') {k : Nat} (other : k ≠ kernel) :
    waiterOf (object'.minPages (u * j)) k = waiterOf (object.minPages (u * j)) k := by
  obtain ⟨write, data⟩ := gave.waiters (u * j)
  have first : (object.setPage (u * j) (served kernel)).minPages (u * j) =
      served kernel (object.minPages (u * j)) := Function.update_self _ _ _
  rw [first] at write data
  calc waiterOf (object'.minPages (u * j)) k
      = waiterOf (served kernel (object.minPages (u * j))) k := by
        rw [waiterOf, waiterOf, write, data]
    _ = waiterOf (object.minPages (u * j)) k := waiterOf_served other

/-- The request that has left was the only one of its kernel. -/
theorem GaveAway.marked {r : Nat} {rest : List Nat} (gave : GaveAway u j kernel object object')
    (requests : object'.requests = object.requests)
    (marked : Marked u object j (r :: rest)) (hkernel : clientOf object r = kernel) :
    Marked u object' j rest := by
  have clients : clientOf object' = clientOf object := by
    funext x
    rw [clientOf, clientOf, requests]
  obtain ⟨write, data⟩ := gave.waiters (u * j)
  have first : (object.setPage (u * j) (served kernel)).minPages (u * j) =
      served kernel (object.minPages (u * j)) := Function.update_self _ _ _
  rw [first] at write data
  have left : ∀ k, k ∈ (r :: rest).map (clientOf object) → k ≠ kernel →
      k ∈ rest.map (clientOf object) := by
    intro k inside other
    rw [List.map_cons, hkernel] at inside
    exact (List.mem_cons.mp inside).resolve_left other
  rw [← clients] at left
  refine ⟨fun k member => ?_, fun k member => ?_, fun i positive inside => ?_⟩
  · rw [write] at member
    obtain ⟨before, other⟩ := member_served member
    refine left k ?_ other
    rw [clients]
    exact marked.write k before
  · rw [data] at member
    obtain ⟨before, other⟩ := member_served member
    refine left k ?_ other
    rw [clients]
    exact marked.data k before
  · obtain ⟨write, data⟩ := gave.waiters (u * j + i)
    have apart : (object.setPage (u * j) (served kernel)).minPages (u * j + i) =
        object.minPages (u * j + i) := Function.update_of_ne (by omega) _ _
    rw [write, data, apart]
    exact marked.others i positive inside

/-- The lock of the requests behind one whose kernel has got the page. -/
theorem GaveAway.lock {rest : List Nat} (gave : GaveAway u j kernel object object')
    (requests : object'.requests = object.requests)
    (apart : kernel ∉ rest.map (clientOf object)) :
    lockOf u object' j rest =
      ⟨(letIn (accessOf (object.minPages (u * j)))
        (waiterOf (object.minPages (u * j)) kernel)).1, (lockOf u object j rest).queue⟩ := by
  rw [lockOf, lockOf, gave.access]
  refine congrArg _ (List.map_congr_left fun x inside => ?_)
  have client : clientOf object' x = clientOf object x := by
    rw [clientOf, clientOf, requests]
  rw [client]
  refine gave.page fun same => apart ?_
  rw [← same]
  exact List.mem_map_of_mem inside

theorem Lists.detach_other {lists : Lists} {r : Nat} {rest : List Nat} (hne : j' ≠ j) :
    (lists.detach j r rest).queue j' = lists.queue j' := Function.update_of_ne hne _ _

theorem Lists.detach_self (lists : Lists) (j r : Nat) (rest : List Nat) :
    (lists.detach j r rest).queue j = rest := Function.update_self _ _ _

theorem clientOf_setRequest {change : Request → Request} (r : Nat)
    (kept : ∀ request, (change request).kernel = request.kernel) :
    clientOf (object.setRequest r change) = clientOf object := by
  funext x
  dsimp only [clientOf, Object.setRequest]
  by_cases self : x = r
  · rw [self, Function.update_self, kept]
  · rw [Function.update_of_ne self]

/-- Of the requests only their kernels are looked at. -/
theorem Outcome.same (outcome : Outcome u j object object' lists lists' result)
    (clients : clientOf object'' = clientOf object') (pages : object''.minPages = object'.minPages)
    (sent : object''.sent = object'.sent) (queues : lists''.queue = lists'.queue) :
    Outcome u j object object'' lists lists'' result := by
  have marked := outcome.marked
  refine ⟨?_, sent.trans outcome.sent, ⟨?_, ?_, ?_⟩, ?_, ?_, ?_⟩
  · rw [← outcome.lock, lockOf, lockOf, clients, pages, queues]
  · rw [clients, pages, queues]
    exact marked.write
  · rw [clients, pages, queues]
    exact marked.data
  · rw [pages]
    exact marked.others
  · rw [queues]
    exact outcome.queues
  · rw [pages]
    exact outcome.pages
  · rw [clients]
    exact outcome.clients

/-- The record of a freed request is not looked at. -/
theorem Outcome.reqFree (outcome : Outcome u j object object' lists lists' result) (x : Nat)
    (loose : List Nat) :
    Outcome u j object (object'.reqFree x) lists (lists'.release x loose) result := by
  have clients : clientOf (object'.setRequest x (fun request =>
      { request with follow := object'.freeRequests })) = clientOf object' :=
    clientOf_setRequest x fun _ => rfl
  exact outcome.same clients rfl rfl rfl

/-- `satisfy_request` serves the lock. -/
theorem satisfyRequest_outcome (junk : Nat → Junk) (fuel : Nat) :
    ∀ (rest : List Nat) (r : Nat) (object : Object) (lists : Lists),
      Mid u object lists acked locks j → lists.queue j = r :: rest → rest.length < fuel →
      Marked u object j (r :: rest) → ((r :: rest).map (clientOf object)).Nodup →
      ∃ object' lists' locks', Object.satisfyRequest junk fuel r object = some object' ∧
        Good u object' lists' acked locks' ∧ lists'.loose = r :: lists.loose ∧
        After object object' locks locks' ∧
        Outcome u j object object' lists lists' (serve kernels
          (lockOf u object j (r :: rest)).queue (accessOf (object.minPages (u * j)))) := by
  induction fuel with
  | zero => exact fun _ _ _ _ _ _ hfuel => absurd hfuel (Nat.not_lt_zero _)
  | succ fuel ih =>
      intro rest r object lists mid hqueue hfuel marked distinct
      obtain ⟨kernel, hkernel, hattached, given⟩ := mid.given hqueue
      obtain ⟨gave, write⟩ := gaveAway_outcome mid hqueue hattached
      have client : clientOf object r = kernel := by
        rw [clientOf, hkernel]
        rfl
      obtain ⟨apart, distinct⟩ := List.nodup_cons.mp distinct
      rw [client] at apart
      have waits := mid.waits j
      rw [hqueue] at waits
      have hrequests := given.grants.requests
      have clients : clientOf (gaveAway u object j r kernel) = clientOf object := by
        funext x
        rw [clientOf, clientOf, hrequests]
      have marked' := gave.marked hrequests marked client
      have lock := gave.lock hrequests apart
      have queue : (lockOf u object j (r :: rest)).queue =
          waiterOf (object.minPages (u * j)) kernel :: (lockOf u object j rest).queue := by
        rw [lockOf, List.map_cons, client]
        rfl
      have hfollow : ((gaveAway u object j r kernel).requests r).follow = rest.head? := by
        rw [hrequests]
        exact waits.linked.2.head_eq
      rw [satisfyRequest_eq junk fuel mid.pos hkernel (waits.first r List.mem_cons_self)
        (waits.last r List.mem_cons_self) (fun x hx => ?_), hfollow, queue, serve_cons]
      · have given_away : Outcome u j object (gaveAway u object j r kernel) lists
            (lists.detach j r rest)
            (⟨(letIn (accessOf (object.minPages (u * j)))
              (waiterOf (object.minPages (u * j)) kernel)).1, (lockOf u object j rest).queue⟩,
              (letIn (accessOf (object.minPages (u * j)))
                (waiterOf (object.minPages (u * j)) kernel)).2) := by
          refine ⟨?_, gave.sent, ?_, fun j' hne => Lists.detach_other hne,
            given.grants.pages, fun j' _ x _ => congrFun clients x⟩
          · rw [Lists.detach_self]
            exact lock
          · rw [Lists.detach_self]
            exact marked'
        cases rest with
        | nil =>
            refine ⟨_, _, locks, rfl, mid.alone hqueue hattached given, rfl,
              given.grants.after locks, ?_⟩
            have nobody : (lockOf u object j []).queue = [] := rfl
            rw [nobody] at given_away ⊢
            split
            · rw [List.isEmpty_nil, if_pos rfl, List.append_nil]
              exact given_away
            · rw [serve, List.append_nil]
              exact given_away
        | cons x rest =>
            dsimp only [List.head?_cons]
            have hbound : x < object.allocated :=
              mid.pool.bound_queue j x (by rw [hqueue]; simp)
            obtain ⟨count, hcount⟩ : ∃ count, object.allocated = count + 1 :=
              ⟨object.allocated - 1, by omega⟩
            have hallocated : (gaveAway u object j r kernel).allocated = count + 1 :=
              given.grants.allocated.trans hcount
            split
            · next hwrite =>
                rw [hwrite] at given
                have hsize : ((gaveAway u object j r kernel).kerninfo kernel).pageSize =
                    u * minPageSize := by
                  rw [given.grants.kerninfo]
                  exact mid.sized kernel hattached
                have hfirst : ((gaveAway u object j r kernel).requests x).firstPage = u * j := by
                  rw [hrequests]
                  exact waits.first x (by simp)
                have hsibling : ((gaveAway u object j r kernel).requests x).sibling = none := by
                  rw [hrequests]
                  exact mid.pool.siblings x
                rw [given.writer mid.pos, hallocated, setHeads_eq hsibling hfirst hsize]
                have evicts := evicts_evict (u := u) (gaveAway u object j r kernel) j x kernel
                refine ⟨_, _, _, rfl, mid.evicted hqueue hattached given evicts, rfl,
                  (given.grants.after locks).trans (evicts.after locks), ?_⟩
                have more : (lockOf u object j (x :: rest)).queue.isEmpty = false := rfl
                rw [if_pos (write.mp hwrite), more, if_neg Bool.false_ne_true]
                exact given_away.evict mid.pos given.grants.kerninfo x kernel
            · next hread =>
                have mid' := mid.next hqueue given hread
                have rest' := ih rest x _ _ mid'
                  (Function.update_self _ _ _) (by simpa using hfuel) marked'
                  (by rwa [clients])
                obtain ⟨object₂, lists₂, locks₂, heq, good, hloose, after, outcome⟩ := rest'
                rw [hallocated, satisfySiblings_eq heq (good.pool.siblings x)]
                refine ⟨_, _, locks₂, rfl, good.release hloose, rfl,
                  (given.grants.after locks).trans (after.trans (After.reqFree object₂ x locks₂)),
                  Outcome.reqFree ?_ x _⟩
                rw [lock, gave.access] at outcome
                rw [if_neg (mt write.mpr hread)]
                exact given_away.trans given.grants.kerninfo outcome
      · rw [hfollow] at hx
        have hin : x ∈ r :: rest := List.mem_cons_of_mem r (List.mem_of_head? hx)
        rw [hrequests]
        exact ⟨waits.first x hin, waits.last x hin⟩

/-! ## Answers -/

theorem vacate_minPages (object : Object) (j r w page : Nat) :
    ∃ use head, (vacate u object j r w).minPages page =
        { object.minPages page with use := use, head := head } ∧
      (page / u = j → use = .none) ∧ (page / u ≠ j → page ≠ u * j →
        (vacate u object j r w).minPages page = object.minPages page) := by
  dsimp only [vacate, Object.reqUnmark, Object.addOutstanding, Object.setPage, setUnit]
  by_cases first : page = u * j
  · subst first
    rw [Function.update_self]
    split
    · exact ⟨_, _, rfl, fun _ => rfl, fun _ other => absurd rfl other⟩
    · next apart =>
        exact ⟨_, _, rfl, fun same => absurd same apart, fun _ other => absurd rfl other⟩
  · rw [Function.update_of_ne first]
    split
    · next same => exact ⟨_, _, rfl, fun _ => rfl, fun apart => absurd same apart⟩
    · next apart => exact ⟨_, _, rfl, fun same => absurd same apart, fun _ _ => rfl⟩

/-- The writer of the unit is gone. -/
theorem Outcome.vacate (hu : 0 < u) (marked : Marked u object j (lists.queue j)) (r w : Nat) :
    Outcome u j object (vacate u object j r w) lists lists
      (⟨fun _ => .none, (lockOf u object j (lists.queue j)).queue⟩, []) := by
  obtain ⟨use, head, page, none, -⟩ := vacate_minPages (u := u) object j r w (u * j)
  have keeps : KeepsWaiters object (OneSize.vacate u object j r w) := by
    intro other
    obtain ⟨use, head, page, -⟩ := vacate_minPages (u := u) object j r w other
    rw [page]
    exact ⟨rfl, rfl⟩
  refine ⟨?_, rfl, ⟨fun k => ?_, fun k => ?_, fun i positive inside => ?_⟩, fun _ _ => rfl,
    fun other apart => ?_, fun _ _ _ _ => rfl⟩
  · rw [lockOf, accessOf_none, page]
    · rfl
    · rw [page]
      exact none (Nat.mul_div_cancel_left j hu)
  · rw [(keeps _).1]
    exact marked.write k
  · rw [(keeps _).2]
    exact marked.data k
  · rw [(keeps _).1, (keeps _).2]
    exact marked.others i positive inside
  · obtain ⟨-, -, -, -, same⟩ := vacate_minPages (u := u) object j r w other
    refine same apart ?_
    rintro rfl
    exact apart (Nat.mul_div_cancel_left j hu)

/-- An answer to a lock gives the lock of its unit back. -/
theorem Good.lockCompleted_outcome (junk : Nat → Junk) {lock : Lock}
    (good : Good u object lists acked locks) (hlock : lock ∈ locks)
    (marked : Marked u object lock.unit (lists.queue lock.unit))
    (distinct : ((lists.queue lock.unit).map (clientOf object)).Nodup) :
    (lockOf u object lock.unit (lists.queue lock.unit)).access lock.kernel = .write ∧
    ∃ object' lists' locks',
      object.memoryObjectLockCompleted junk (object.kerninfo lock.kernel).requestPort
        (pageToOffset (u * lock.unit)) (u * minPageSize) = some object' ∧
      Good u object' lists' (lock.serial :: acked) locks' ∧ lists'.loose = lists.loose ∧
      After object object' (locks.erase lock) locks' ∧
      Outcome u lock.unit object object' lists lists'
        ((lockOf u object lock.unit (lists.queue lock.unit)).giveBack kernels lock.kernel) := by
  have hattached := good.books.attached lock hlock
  obtain ⟨r, rest, hqueue, -, hwriter⟩ := good.books.front lock hlock
  have waits := good.waits lock.unit
  have hlength := good.pool.length_queue waits
  have hinside := good.inside lock.unit (by rw [hqueue]; exact List.cons_ne_nil r rest)
  have vacated := Outcome.vacate good.pos marked r lock.kernel
  obtain ⟨use, user, looks, hbusy, -, -⟩ := good.units lock.unit
  rw [hqueue] at looks hbusy waits hlength marked distinct
  rw [hbusy (List.cons_ne_nil r rest)] at looks
  have hkernel : writerOf user = lock.kernel := by
    rw [← hwriter, MinPage.writer, looks.user_first good.pos]
    rfl
  have access := accessOf_of_looks good.pos looks hkernel
  refine ⟨?_, ?_⟩
  · show accessOf _ lock.kernel = .write
    rw [access, Function.update_self]
  have hsub := subtractKernel_eq junk good.pos looks hkernel (waits.first r List.mem_cons_self)
    (waits.last r List.mem_cons_self)
  have marked' := vacated.marked
  rw [hqueue] at marked'
  obtain ⟨object', lists', locks', hsatisfy, good', hloose, after, outcome⟩ :=
    satisfyRequest_outcome junk (object.allocated + 1) rest r _ lists (good.answer hlock hqueue)
      hqueue (by rw [List.length_cons] at hlength; omega) marked' distinct
  rw [hsatisfy, Option.bind_some] at hsub
  refine ⟨object'.reqFree r, _, locks', ?_, good'.release hloose, rfl, ?_, Outcome.reqFree ?_ r _⟩
  · unfold Object.memoryObjectLockCompleted
    rw [if_neg hattached.2, good.portToKernel hattached]
    dsimp only
    rw [good.sized lock.kernel hattached, if_neg (by simp), misaligned_pageToOffset,
      if_neg (by simp), if_neg (by omega)]
    exact hsub
  · refine After.trans ?_ (after.trans (After.reqFree object' r locks'))
    exact After.same object (vacate u object lock.unit r lock.kernel) rfl rfl rfl rfl _
  · have gone : Function.update (accessOf (object.minPages (u * lock.unit))) lock.kernel .none =
        fun _ => .none := by
      rw [access, Function.update_idem, Function.update_eq_self_iff]
    have start := vacated.lock
    dsimp only at start
    rw [hqueue] at start
    have left : (lockOf u (vacate u object lock.unit r lock.kernel) lock.unit (r :: rest)).queue =
        (lockOf u object lock.unit (r :: rest)).queue := by rw [start]
    have free : accessOf ((vacate u object lock.unit r lock.kernel).minPages (u * lock.unit)) =
        fun _ => .none := congrArg RWLock.access start
    rw [left, free] at outcome
    rw [hqueue, RWLock.giveBack]
    show Outcome _ _ _ _ _ _ (serve kernels _ (Function.update (accessOf _) _ _))
    rw [gone]
    exact vacated.trans rfl outcome

/-! ## Waiting -/

theorem member_addWaiter {set : BitVec 32} {k : Nat} {add : Bool}
    (member : setMember (if add then setAdd set kernel else set) k = true) :
    setMember set k = true ∨ k = kernel := by
  split at member
  · rcases Nat.lt_or_ge k 32 with small | large
    · rw [setMember_setAdd _ small, Bool.or_eq_true] at member
      exact member.imp_right fun same => (of_decide_eq_true same).symm
    · rw [setMember_large _ large] at member
      cases member
  · exact Or.inl member

theorem waiterOf_addWaiter {page : MinPage} {k : Nat} (other : k ≠ kernel) (write data : Bool) :
    waiterOf (addWaiter kernel write data page) k = waiterOf page k := by
  have kept : ∀ (add : Bool) (set : BitVec 32),
      setMember (if add then setAdd set kernel else set) k = setMember set k := by
    intro add set
    split
    · rcases Nat.lt_or_ge k 32 with small | large
      · rw [setMember_setAdd _ small, decide_eq_false (Ne.symm other), Bool.or_false]
      · rw [setMember_large _ large, setMember_large _ large]
    · rfl
  rw [waiterOf, waiterOf, addWaiter, kept, kept]

/-- The new entries, where there were none. -/
theorem waiterOf_addWaiter_self {page : MinPage} (small : kernel < 32)
    (write : setMember page.writeWaiters kernel = false)
    (data : setMember page.dataWaiters kernel = false) (w d : Bool) :
    waiterOf (addWaiter kernel w d page) kernel = ⟨kernel, w, d⟩ := by
  have added : ∀ (add : Bool) (set : BitVec 32), setMember set kernel = false →
      setMember (if add then setAdd set kernel else set) kernel = add := by
    intro add set absent
    cases add with
    | false => exact absent
    | true =>
        rw [if_pos rfl, setMember_setAdd _ small]
        simp
  rw [waiterOf, addWaiter, added w _ write, added d _ data]

/-- A kernel that does not wait has no entries. -/
theorem Marked.absent (marked : Marked u object j queue)
    (apart : kernel ∉ queue.map (clientOf object)) :
    setMember (object.minPages (u * j)).writeWaiters kernel = false ∧
      setMember (object.minPages (u * j)).dataWaiters kernel = false :=
  ⟨Bool.eq_false_iff.mpr (mt (marked.write kernel) apart),
    Bool.eq_false_iff.mpr (mt (marked.data kernel) apart)⟩

/-- Request `r` of the kernel joins the queue. -/
theorem Outcome.enqueue {r : Nat} {loose : List Nat} (write data : Bool) (hu : 0 < u)
    (hkernel : kernel < maxNumKernels) (marked : Marked u object j (lists.queue j))
    (apart : kernel ∉ (lists.queue j).map (clientOf object))
    (fresh : ∀ j', r ∉ lists.queue j')
    (enqueues : Enqueues u j r (lists.queue j)
      (registered object r kernel (u * j) (u * j + u - 1) write data) object') :
    Outcome u j object object' lists (lists.enqueue j r loose)
      ({ lockOf u object j (lists.queue j) with
        queue := (lockOf u object j (lists.queue j)).queue ++ [⟨kernel, write, data⟩] }, []) := by
  have request : clientOf object' r = kernel := by
    rw [clientOf, (enqueues.requests r).2.2.1]
    dsimp only [registered, Object.setPage, Object.setRequest]
    rw [Function.update_self]
    rfl
  have others : ∀ x, x ≠ r → clientOf object' x = clientOf object x := by
    intro x hne
    rw [clientOf, clientOf, (enqueues.requests x).2.2.1]
    dsimp only [registered, Object.setPage, Object.setRequest]
    rw [Function.update_of_ne hne]
  have old : ∀ j', ∀ x ∈ lists.queue j', clientOf object' x = clientOf object x := by
    intro j' x inside
    refine others x ?_
    rintro rfl
    exact fresh j' inside
  have same : (lists.queue j).map (clientOf object') = (lists.queue j).map (clientOf object) :=
    List.map_congr_left (old j)
  have first : object'.minPages (u * j) =
      { addWaiter kernel write data (object.minPages (u * j)) with tail := some r } := by
    rw [enqueues.pages, if_pos (Nat.mul_div_cancel_left j hu)]
    dsimp only [registered, Object.setPage, Object.setRequest]
    rw [Function.update_self]
  have apages : ∀ page, page ≠ u * j → object'.minPages page =
      if page / u = j then { object.minPages page with tail := some r }
      else object.minPages page := by
    intro page hne
    rw [enqueues.pages]
    dsimp only [registered, Object.setPage, Object.setRequest]
    rw [Function.update_of_ne hne]
  have absent := marked.absent apart
  have ends : (lists.queue j).map (clientOf object) ++ [kernel] =
      ((lists.enqueue j r loose).queue j).map (clientOf object') := by
    rw [queue_enqueue, List.map_append, same, List.map_cons, request, List.map_nil]
  refine ⟨?_, enqueues.sent, ⟨fun k member => ?_, fun k member => ?_, fun i positive inside => ?_⟩,
    fun j' hne => Function.update_of_ne hne _ _, fun page apart => ?_,
    fun j' _ => old j'⟩
  · rw [lockOf, lockOf, queue_enqueue, List.map_append, List.map_cons, List.map_nil, request, first]
    have waiter : ∀ k, waiterOf { addWaiter kernel write data (object.minPages (u * j)) with
        tail := some r } k = waiterOf (addWaiter kernel write data (object.minPages (u * j))) k :=
      fun _ => rfl
    have kept : ∀ x ∈ lists.queue j, waiterOf (addWaiter kernel write data
        (object.minPages (u * j))) (clientOf object' x) =
          waiterOf (object.minPages (u * j)) (clientOf object x) := by
      intro x inside
      rw [old j x inside]
      refine waiterOf_addWaiter (fun self => apart ?_) write data
      rw [← self]
      exact List.mem_map_of_mem inside
    rw [waiter, waiterOf_addWaiter_self hkernel absent.1 absent.2]
    refine congrArg₂ RWLock.mk rfl (congrArg (· ++ _) (List.map_congr_left kept))
  · rw [← ends, List.mem_append, List.mem_singleton]
    rw [first] at member
    exact (member_addWaiter member).imp_left (marked.write k)
  · rw [← ends, List.mem_append, List.mem_singleton]
    rw [first] at member
    exact (member_addWaiter member).imp_left (marked.data k)
  · rw [apages _ (by omega), if_pos (unit_div inside)]
    exact marked.others i positive inside
  · have hne : page ≠ u * j := by
      rintro rfl
      exact apart (Nat.mul_div_cancel_left j hu)
    rw [apages page hne, if_neg apart]

/-- The counter of a request is not looked at. -/
theorem Outcome.setCount (outcome : Outcome u j object object' lists lists' result) (r : Nat)
    (count : Int → Int) :
    Outcome u j object (object'.setRequest r (fun request =>
      { request with count := count request.count })) lists lists' result :=
  outcome.same (clientOf_setRequest r fun _ => rfl) rfl rfl rfl

theorem writer_lockOf {w : Nat} (writes : accessOf (object.minPages (u * j)) =
      Function.update (fun _ => .none) w .write) (hw : w < maxNumKernels) :
    (lockOf u object j queue).writer kernels = some w := by
  have only : ∀ k, (lockOf u object j queue).access k = .write ↔ k = w := by
    intro k
    show accessOf _ k = _ ↔ _
    rw [writes]
    by_cases self : k = w
    · rw [self, Function.update_self]
      exact ⟨fun _ => rfl, fun _ => rfl⟩
    · rw [Function.update_of_ne self]
      exact ⟨nofun, fun same => absurd same self⟩
  cases found : (lockOf u object j queue).writer kernels with
  | none =>
      have nobody := List.find?_eq_none.mp found w (List.mem_range.mpr hw)
      exact absurd (decide_eq_true ((only w).mpr rfl)) nobody
  | some k => rw [(only k).mp (access_of_writer found)]

/-! ## Waiting -/

section Waiting

variable (good : Good u object lists acked locks) (marked : Marked u object j (lists.queue j))
  (hattached : Attached object kernel) (hinside : pageToOffset (u * j) < object.objectSize)
  (huse : (object.minPages (u * j)).use = .write)
  (apart : kernel ∉ (lists.queue j).map (clientOf object)) (write data : Bool)

include good marked hattached hinside huse apart

/-- The queue of a unit with a writer takes a new request. -/
theorem Good.register_outcome {r : Nat} {loose : List Nat} (hloose : lists.loose = r :: loose) :
    ∃ object' lists' locks',
      (if (registered object r kernel (u * j) (u * j + u - 1) write data).haveExpecting
          (u * j) (u * j + u - 1) then
        (registered object r kernel (u * j) (u * j + u - 1) write data).addSleeping r
      else (registered object r kernel (u * j) (u * j + u - 1) write data).addExpecting r) =
        some object' ∧
      Good u object' lists' acked locks' ∧ lists'.loose = loose ∧
      After object object' locks locks' ∧
      Outcome u j object object' lists lists'
        ((lockOf u object j (lists.queue j)).ask kernels kernel write data) := by
  have hu := good.pos
  have hr : r ∈ lists.loose := by rw [hloose]; exact List.mem_cons_self
  have fresh : ∀ j', r ∉ lists.queue j' := good.pool.loose_apart r hr
  have good₁ : Good u (object.setRequest r (fun request =>
      { request with kernel := some kernel, firstPage := u * j, lastPage := u * j + u - 1 }))
      lists acked locks := good.setLoose hr (fun _ => rfl)
  have hview : ∀ page, view ((registered object r kernel (u * j) (u * j + u - 1) write
      data).minPages page) = view (object.minPages page) :=
    view_setPage _ (u * j) (fun _ => rfl)
  have good₂ : Good u (registered object r kernel (u * j) (u * j + u - 1) write data) lists acked
      locks := good₁.quiet (Grants.setPage (Nat.mul_div_cancel_left j hu) _) hview
  have after : After object (registered object r kernel (u * j) (u * j + u - 1) write data) locks
      locks := After.same object (registered object r kernel _ _ write data) rfl rfl rfl rfl locks
  obtain ⟨object₂, hobject₂⟩ : ∃ object₂,
    object₂ = registered object r kernel (u * j) (u * j + u - 1) write data := ⟨_, rfl⟩
  have huse' : (object₂.minPages (u * j)).use = .write := by
    rw [hobject₂]
    exact ((Prod.mk.inj (hview (u * j))).1).trans huse
  have hrequest : object₂.requests r = { object.requests r with
      kernel := some kernel, firstPage := u * j, lastPage := u * j + u - 1 } := by
    rw [hobject₂]
    exact Function.update_self _ _ _
  have hsame : object₂.kerninfo = object.kerninfo := by rw [hobject₂]; rfl
  have joins : ∀ object', Enqueues u j r (lists.queue j) object₂ object' →
      Outcome u j object object' lists (lists.enqueue j r loose)
        ({ lockOf u object j (lists.queue j) with
          queue := (lockOf u object j (lists.queue j)).queue ++ [⟨kernel, write, data⟩] }, []) := by
    intro object' enqueues
    rw [hobject₂] at enqueues
    exact Outcome.enqueue write data hu hattached.1 marked apart fresh enqueues
  rw [← hobject₂] at good₂ after ⊢
  have hkernel : (object₂.requests r).kernel = some kernel := by rw [hrequest]
  have hfirst : (object₂.requests r).firstPage = u * j := by rw [hrequest]
  have hlast : (object₂.requests r).lastPage = u * j + u - 1 := by rw [hrequest]
  have hattached₂ : Attached object₂ kernel := (Attached.congr hsame).mpr hattached
  have hinside₂ : pageToOffset (u * j) < object₂.objectSize := by
    rw [after.objectSize]
    exact hinside
  obtain ⟨use, user, looks, -, hwriter, -⟩ := good₂.units j
  have hpage := looks.use_first hu
  rw [huse'] at hpage
  subst hpage
  have hw := hwriter rfl
  have named : (lockOf u object j (lists.queue j)).writer kernels = some (writerOf user) := by
    refine writer_lockOf ?_ hw.1
    have user₂ := looks.user_first hu
    have user₁ := (Prod.mk.inj (Prod.mk.inj (hview (u * j))).2).1
    rw [← hobject₂, user₂] at user₁
    rw [accessOf_write huse, MinPage.writer, ← user₁]
    rfl
  rw [haveExpecting_eq hu looks, RWLock.ask, named]
  cases hqueue : (lists.queue j).getLast? with
  | none =>
      have hempty : lists.queue j = [] := List.getLast?_eq_none_iff.mp hqueue
      have enqueues : Enqueues u j r (lists.queue j) object₂ (expecting u object₂ j r) := by
        rw [hempty]
        exact enqueues_expecting good₂.pool.siblings
      have joined := joins _ enqueues
      have nobody : (lockOf u object j (lists.queue j)).queue.isEmpty = true := by
        rw [hempty]
        rfl
      rw [hempty] at looks
      have heq := addExpecting_eq hu good₂.sized hkernel hattached₂ hfirst hlast looks rfl hw
      have evicts := (evicts_evict (u := u) (expecting u object₂ j r) j r (writerOf user)).setCount
        (fun count => count + 1)
      refine ⟨_, _, _, heq, good₂.expect hloose enqueues hkernel hattached₂ hfirst hlast hinside₂
        hempty looks rfl hw evicts, rfl,
        after.trans ((enqueues.after locks).trans (evicts.after locks)), ?_⟩
      rw [nobody]
      exact (joined.evict hu (enqueues.kerninfo.trans hsame) r (writerOf user)).setCount r
        (fun count => count + 1)
  | some y =>
      have hy : y ∈ lists.queue j := List.mem_of_getLast? hqueue
      have hne : y ≠ r := by
        rintro rfl
        exact fresh j hy
      have somebody : (lockOf u object j (lists.queue j)).queue.isEmpty = false := by
        rw [lockOf, List.isEmpty_eq_false_iff]
        exact mt List.map_eq_nil_iff.mp (List.ne_nil_of_mem hy)
      rw [hqueue] at looks
      have heq := addSleeping_eq hu hfirst hlast looks hne ((good₂.waits j).last_follow hqueue)
      have enqueues := enqueues_sleeping (u := u) (j := j) good₂.pool.siblings hqueue hne
      refine ⟨_, _, locks, heq, good₂.enqueue hloose enqueues hkernel hattached₂ hfirst hlast
        hinside₂ (List.ne_nil_of_mem hy), rfl, after.trans (enqueues.after locks), ?_⟩
      rw [somebody]
      exact joins _ enqueues

theorem Good.addRequest_outcome :
    ∃ object' lists' locks',
      object.addRequest kernel (u * j) (u * j + u - 1) write data = some object' ∧
      Good u object' lists' acked locks' ∧ lists'.loose = lists.loose ∧
      After object object' locks locks' ∧
      Outcome u j object object' lists lists'
        ((lockOf u object j (lists.queue j)).ask kernels kernel write data) := by
  obtain ⟨hpages, hkerninfo, hsize, hmark, hsent⟩ := reqAlloc_frame object
  have requests : object.reqAlloc.2.requests = object.requests := by
    unfold Object.reqAlloc
    cases object.freeRequests with
    | none => rfl
    | some r => rfl
  have clients : clientOf object.reqAlloc.2 = clientOf object := by
    funext x
    rw [clientOf, clientOf, requests]
  have alike : Alike object object.reqAlloc.2 := by
    refine ⟨fun page => ?_, fun page => ?_, clients⟩
    · rw [hpages]
      exact ⟨rfl, rfl⟩
    · rw [hpages]
      exact ⟨rfl, rfl⟩
  obtain ⟨free, good₁⟩ := good.reqAlloc
  have after : After object object.reqAlloc.2 locks locks :=
    After.same object _ hkerninfo hsize hmark hsent locks
  obtain ⟨object', lists', locks', heq, good', hloose, after', outcome⟩ :=
    good₁.register_outcome (marked.kept alike.waiters clients) ((Attached.congr hkerninfo).mpr hattached)
      (by rw [hsize]; exact hinside) (by rw [hpages]; exact huse) (by rw [clients]; exact apart)
      write data rfl
  rw [alike.lockOf] at outcome
  refine ⟨object', lists', locks', heq, good', hloose, after.trans after',
    outcome.lock, ?_, outcome.marked, outcome.queues, ?_, ?_⟩
  · rw [← hkerninfo, ← hsent]
    exact outcome.sent
  · rw [← hpages]
    exact outcome.pages
  · rw [← clients]
    exact outcome.clients

end Waiting

/-! ## Requests -/

/-- A call returns, keeps the books, and has this result for the lock of unit `j`. -/
def Answers (u j : Nat) (object : Object) (lists : Lists) (acked : List Nat) (locks : List Lock)
    (called : Option Object) (result : RWLock Nat × List (Word Nat)) : Prop :=
  ∃ object' lists' locks', called = some object' ∧ Good u object' lists' acked locks' ∧
    lists'.loose = lists.loose ∧ After object object' locks locks' ∧
    Outcome u j object object' lists lists' result

theorem clients_lockOf (object : Object) (j : Nat) (queue : List Nat) :
    (lockOf u object j queue).queue.map Waiter.client = queue.map (clientOf object) := by
  rw [lockOf, List.map_map]
  rfl

/-- Who waits has an entry in the sets of waiters, and nobody else has one. -/
theorem Marked.waits_iff (marked : Marked u object j queue)
    (sound : (lockOf u object j queue).Sound kernels) :
    kernel ∈ (lockOf u object j queue).queue.map Waiter.client ↔
      setMember (object.minPages (u * j)).writeWaiters kernel = true ∨
        setMember (object.minPages (u * j)).dataWaiters kernel = true := by
  constructor
  · intro inside
    obtain ⟨waiter, member, rfl⟩ := List.mem_map.mp inside
    have asks := sound.asks waiter member
    obtain ⟨r, -, rfl⟩ := List.mem_map.mp member
    exact asks
  · rw [clients_lockOf]
    rintro (write | data)
    · exact marked.write kernel write
    · exact marked.data kernel data

theorem writer_none {use : Use} {user : BitVec 32} {head tail : Option Nat} (hu : 0 < u)
    (looks : Looks u object j use user head tail) (huse : use ≠ .write) :
    (lockOf u object j queue).writer kernels = none := by
  refine List.find?_eq_none.mpr fun k _ writes => huse ?_
  rw [← looks.use_first hu]
  exact (accessOf_eq_write.mp (of_decide_eq_true writes)).1

section Serving

variable (good : Good u object lists acked locks)

include good

/-- The kernel is the writer and nobody waits. -/
theorem Good.stillWriting_iff :
    object.stillWriting kernel (u * j) (u * j + u - 1) = true ↔
      (lockOf u object j (lists.queue j)).access kernel = .write ∧
        (lockOf u object j (lists.queue j)).queue.isEmpty = true := by
  obtain ⟨use, user, looks, -, -, -⟩ := good.units j
  have access : (lockOf u object j (lists.queue j)).access kernel = .write ↔
      (object.minPages (u * j)).use = .write ∧ (object.minPages (u * j)).writer = kernel :=
    accessOf_eq_write
  have empty : (lockOf u object j (lists.queue j)).queue.isEmpty = true ↔
      (lists.queue j).getLast? = none := by
    rw [lockOf, List.isEmpty_iff, List.map_eq_nil_iff, List.getLast?_eq_none_iff]
  rw [access, empty, Object.stillWriting, writerEvicted_eq good.pos looks]
  simp

variable (marked : Marked u object j (lists.queue j))

include marked

theorem Good.answers_told {words : List (Word Nat)} {sent : List Message}
    (said : sent = tell u object.kerninfo j words object.sent)
    (grants : Grants u j object { object with sent := sent }) :
    Answers u j object lists acked locks (some { object with sent := sent })
      (lockOf u object j (lists.queue j), words) :=
  ⟨_, lists, locks, rfl, good.quiet grants (fun _ => rfl), rfl, grants.after locks,
    Outcome.told marked said⟩

theorem Good.answers_same :
    Answers u j object lists acked locks (some object) (lockOf u object j (lists.queue j), []) :=
  good.answers_told marked rfl (Grants.refl u j object)

/-- The kernel is the writer and nobody waits, so it gets the page again. -/
theorem Good.answers_writing {needsData : Bool} (kernel : Nat) :
    Answers u j object lists acked locks
      (if needsData then some (object.dataProvided kernel (pageToOffset (u * j)) .supplyAll)
      else some (object.send kernel .unlockWriter (pageToOffset (u * j)) (u * minPageSize)))
      (lockOf u object j (lists.queue j), [.grant kernel true needsData]) := by
  cases needsData with
  | true =>
      have grants : Grants u j object
          (object.dataProvided kernel (pageToOffset (u * j)) .supplyAll) :=
        Grants.dataProvided kernel _ (by decide)
      rw [dataProvided_eq] at grants
      rw [if_pos rfl, dataProvided_eq]
      exact good.answers_told marked rfl grants
  | false => exact good.answers_told marked rfl (Grants.send kernel _ _ (by decide))

/-- A waiting kernel asks to write. -/
theorem Good.answers_upgrade {change : MinPage → MinPage} {data : Bool}
    (hview : ∀ page : MinPage, view (change page) = view page)
    (inside : kernel ∈ (lists.queue j).map (clientOf object))
    (waiters : ∀ k, waiterOf (change (object.minPages (u * j))) k =
      if k = kernel then (waiterOf (object.minPages (u * j)) k).upgrade data
      else waiterOf (object.minPages (u * j)) k) :
    Answers u j object lists acked locks (some (object.setPage (u * j) change))
      ({ lockOf u object j (lists.queue j) with
        queue := (lockOf u object j (lists.queue j)).queue.map fun waiter =>
          if waiter.client = kernel then waiter.upgrade data else waiter }, []) := by
  have grants : Grants u j object (object.setPage (u * j) change) :=
    Grants.setPage (Nat.mul_div_cancel_left j good.pos) _
  have first : (object.setPage (u * j) change).minPages (u * j) =
      change (object.minPages (u * j)) := Function.update_self _ _ _
  have same := hview (object.minPages (u * j))
  simp only [view, Prod.mk.injEq] at same
  have write : ∀ k, setMember (change (object.minPages (u * j))).writeWaiters k =
      (waiterOf (change (object.minPages (u * j))) k).write := fun _ => rfl
  have datum : ∀ k, setMember (change (object.minPages (u * j))).dataWaiters k =
      (waiterOf (change (object.minPages (u * j))) k).data := fun _ => rfl
  refine ⟨_, lists, locks, rfl, good.quiet grants (view_setPage object (u * j) hview), rfl,
    grants.after locks, ?_, rfl, ⟨fun k member => ?_, fun k member => ?_,
      fun i positive below => ?_⟩, fun _ _ => rfl, grants.pages, fun _ _ _ _ => rfl⟩
  · rw [lockOf, lockOf, first, accessOf_congr same.1 same.2.1]
    dsimp only
    rw [List.map_map]
    refine congrArg _ (List.map_congr_left fun r _ => ?_)
    exact waiters (clientOf object r)
  · rw [first, write, waiters] at member
    split at member
    · next self =>
        rw [self]
        exact inside
    · exact marked.write k member
  · rw [first, datum, waiters] at member
    split at member
    · next self =>
        rw [self]
        exact inside
    · exact marked.data k member
  · have apart : (object.setPage (u * j) change).minPages (u * j + i) =
        object.minPages (u * j + i) := Function.update_of_ne (by omega) _ _
    rw [apart]
    exact marked.others i positive below

variable (hattached : Attached object kernel)

include hattached

/-- A unit without a writer is given to the kernel. -/
theorem Good.answers_give {use : Use} (hempty : lists.queue j = [])
    (given : Given u object object' j kernel use none none) {access : Nat → Access}
    {words : List (Word Nat)} (waiters : KeepsWaiters object object')
    (now : accessOf (object'.minPages (u * j)) = access)
    (said : object'.sent = tell u object.kerninfo j words object.sent) :
    Answers u j object lists acked locks (some object')
      ({ lockOf u object j (lists.queue j) with access := access }, words) := by
  have clients : clientOf object' = clientOf object := by
    funext x
    rw [clientOf, clientOf, given.grants.requests]
  refine ⟨_, lists, locks, rfl, good.give hempty hattached given, rfl, given.grants.after locks,
    ?_, said, marked.kept waiters clients, fun _ _ => rfl, given.grants.pages,
    fun _ _ x _ => congrFun clients x⟩
  rw [lockOf, lockOf, now, hempty]
  rfl

variable (hinside : pageToOffset (u * j) < object.objectSize)

include hinside

/-- The part of both requests behind the tests of the waiters. -/
theorem Good.answers_ask {called : Option Object} (write data : Bool)
    (apart : kernel ∉ (lists.queue j).map (clientOf object))
    (hfree : ∀ use user, Looks u object j use user none none → use ≠ .write →
      Readers object use user → lists.queue j = [] →
      Answers u j object lists acked locks called
        ((lockOf u object j (lists.queue j)).ask kernels kernel write data)) :
    Answers u j object lists acked locks
      (if object.haveWriter (u * j) (u * j + u - 1) then
        object.addRequest kernel (u * j) (u * j + u - 1) write data
      else called) ((lockOf u object j (lists.queue j)).ask kernels kernel write data) := by
  obtain ⟨use, user, looks, hbusy, -, readers⟩ := good.units j
  rw [haveWriter_eq good.pos looks]
  by_cases huse : use = .write
  · rw [if_pos (decide_eq_true huse)]
    exact good.addRequest_outcome marked hattached hinside ((looks.use_first good.pos).trans huse)
      apart write data
  · have hempty : lists.queue j = [] := by
      by_contra hne
      exact huse (hbusy hne)
    rw [if_neg (by simpa using huse)]
    rw [hempty] at looks
    exact hfree use user looks huse readers hempty

variable (sound : (lockOf u object j (lists.queue j)).Sound kernels)

include sound

theorem Good.addReadingKernel_outcome (needsData : Bool) :
    Answers u j object lists acked locks
      (object.addReadingKernel kernel (pageToOffset (u * j)) (u * minPageSize) needsData)
      ((lockOf u object j (lists.queue j)).request kernels kernel false needsData) := by
  unfold Object.addReadingKernel
  dsimp only
  rw [offsetToPage_pageToOffset, offsetToPage_end, RWLock.request]
  by_cases still : object.stillWriting kernel (u * j) (u * j + u - 1) = true
  · rw [if_pos still, if_pos (good.stillWriting_iff.mp still)]
    exact good.answers_writing marked kernel
  rw [if_neg still, if_neg (mt good.stillWriting_iff.mpr still)]
  by_cases waits : kernel ∈ (lockOf u object j (lists.queue j)).queue.map Waiter.client
  · rw [if_pos waits, if_neg Bool.false_ne_true]
    rcases (marked.waits_iff sound).mp waits with write | data
    · rw [if_pos write]
      exact good.answers_same marked
    · rw [if_pos data, ite_self]
      exact good.answers_same marked
  have absent := mt (marked.waits_iff sound).mpr waits
  rw [if_neg waits, if_neg fun write => absent (Or.inl write),
    if_neg fun data => absent (Or.inr data), Bool.false_or]
  cases needsData with
  | false => exact good.answers_same marked
  | true =>
      rw [if_neg (by decide), if_pos rfl]
      rw [clients_lockOf] at waits
      split
      · next reads =>
          simp only [Bool.and_eq_true, decide_eq_true_eq] at reads
          obtain ⟨use, user, looks, -, -, -⟩ := good.units j
          have huse := (looks.use_first good.pos).symm.trans reads.1
          have now : accessOf (object.minPages (u * j)) kernel = .read := by
            rw [accessOf_read reads.1, reading_eq_read]
            exact reads.2
          have grants : Grants u j object
              (object.dataProvided kernel (pageToOffset (u * j)) .supplyRead) :=
            Grants.dataProvided kernel _ (by decide)
          have told : (lockOf u object j (lists.queue j)).ask kernels kernel false true =
              (lockOf u object j (lists.queue j), [.grant kernel false true]) := by
            have same : (admitReader (accessOf (object.minPages (u * j))) kernel).1 =
                accessOf (object.minPages (u * j)) := by
              rw [admitReader_access, ← now, Function.update_eq_self]
            rw [RWLock.ask, writer_none good.pos looks (by rw [huse]; decide)]
            exact congrArg₂ Prod.mk (congrArg₂ RWLock.mk same rfl) rfl
          rw [dataProvided_eq] at grants ⊢
          rw [told]
          exact good.answers_told marked rfl grants
      · refine good.answers_ask marked hattached hinside false true waits
          (fun use user looks huse readers hempty => ?_)
        obtain ⟨grants, user', looks', readers'⟩ :=
          addReader_grants good.pos looks huse readers hattached
        obtain ⟨said, now, waiters⟩ := addReader_outcome good.pos looks huse hattached.1
        rw [RWLock.ask, writer_none good.pos looks huse]
        exact good.answers_give marked hattached hempty
          ⟨grants, user', looks', fun same => absurd same (by decide), readers'⟩ waiters now said

theorem Good.addWritingKernel_outcome (needsData : Bool) :
    Answers u j object lists acked locks
      (object.addWritingKernel kernel (pageToOffset (u * j)) (u * minPageSize) needsData)
      ((lockOf u object j (lists.queue j)).request kernels kernel true needsData) := by
  unfold Object.addWritingKernel
  dsimp only
  rw [offsetToPage_pageToOffset, offsetToPage_end, RWLock.request]
  by_cases still : object.stillWriting kernel (u * j) (u * j + u - 1) = true
  · rw [if_pos still, if_pos (good.stillWriting_iff.mp still)]
    exact good.answers_writing marked kernel
  rw [if_neg still, if_neg (mt good.stillWriting_iff.mpr still)]
  by_cases waits : kernel ∈ (lockOf u object j (lists.queue j)).queue.map Waiter.client
  · have entries := (marked.waits_iff sound).mp waits
    rw [if_pos waits, if_pos rfl]
    rw [clients_lockOf] at waits
    have added : ∀ (set : BitVec 32) (k : Nat), setMember (setAdd set kernel) k =
        if k = kernel then true else setMember set k := by
      intro set k
      rcases Nat.lt_or_ge k 32 with small | large
      · rw [setMember_setAdd _ small]
        split
        · next self => rw [decide_eq_true self.symm, Bool.or_true]
        · next other => rw [decide_eq_false (Ne.symm other), Bool.or_false]
      · have other : k ≠ kernel := by
          rintro rfl
          exact absurd hattached.1 (Nat.not_lt.mpr large)
        rw [if_neg other, setMember_large _ large, setMember_large _ large]
    by_cases write : setMember (object.minPages (u * j)).writeWaiters kernel = true
    · rw [if_pos write]
      cases needsData with
      | true =>
          rw [if_pos rfl]
          refine good.answers_upgrade marked (fun _ => rfl) waits fun k => ?_
          rw [waiterOf, added]
          split
          · next self => rw [self, waiterOf, Waiter.upgrade, write, Bool.or_true]
          · rfl
      | false =>
          have same : object.setPage (u * j) id = object := by
            dsimp only [Object.setPage, id]
            rw [Function.update_eq_self]
          have waiters : ∀ k, waiterOf (id (object.minPages (u * j))) k =
              if k = kernel then (waiterOf (object.minPages (u * j)) k).upgrade false
              else waiterOf (object.minPages (u * j)) k := by
            intro k
            rw [id]
            split
            · next self => rw [self, waiterOf, Waiter.upgrade, write, Bool.or_false]
            · rfl
          have answered := good.answers_upgrade marked
            (fun page => (rfl : view (id page) = view page)) waits waiters
          rw [same] at answered
          exact answered
    · have data := entries.resolve_left write
      rw [if_neg write, if_pos data]
      refine good.answers_upgrade marked (fun _ => rfl) waits fun k => ?_
      rw [waiterOf, added]
      split
      · next self => rw [self, waiterOf, Waiter.upgrade, data, Bool.true_or]
      · rfl
  have absent := mt (marked.waits_iff sound).mpr waits
  rw [if_neg waits, if_neg fun write => absent (Or.inl write),
    if_neg fun data => absent (Or.inr data), Bool.true_or, if_pos rfl]
  rw [clients_lockOf] at waits
  refine good.answers_ask marked hattached hinside true needsData waits
    (fun use user looks huse readers hempty => ?_)
  obtain ⟨grants, user', looks', hwriter⟩ :=
    addWriter_grants good.pos good.sized looks readers hattached needsData
  obtain ⟨said, now, waiters⟩ :=
    addWriter_outcome good.pos good.sized looks readers hattached needsData
  rw [RWLock.ask, writer_none good.pos looks huse]
  exact good.answers_give marked hattached hempty
    ⟨grants, user', looks', fun _ => hwriter, fun same => absurd same (by decide)⟩
    waiters now said

end Serving

/-! ## Books and locks -/

/-- The books are kept, the sets of waiters are those of the queues, and the locks are sound. -/
structure Locked (u : Nat) (object : Object) (lists : Lists) (acked : List Nat)
    (locks : List Lock) : Prop where
  good : Good u object lists acked locks
  marked : ∀ j, Marked u object j (lists.queue j)
  sound : ∀ j, (lockOf u object j (lists.queue j)).Sound kernels

/-- An aligned request that is let through is a request for the lock of a unit. -/
theorem Locked.accepted {port offset : Nat} (write needsData : Bool)
    (locked : Locked u object lists acked locks) (rounded : Rounded u object) (hport : port ≠ 0)
    (hkernel : object.portToKernel port = some kernel)
    (haligned : offset % (object.kerninfo kernel).realPageSize = 0)
    (hfits : ¬(Object.misaligned offset (object.kerninfo kernel).realPageSize ∨
      offset ≥ object.objectSize)) :
    Attached object kernel ∧ ∃ j, Answers u j object lists acked locks
      (object.memoryObjectRequest port offset (object.kerninfo kernel).realPageSize write needsData)
      ((lockOf u object j (lists.queue j)).request kernels kernel write needsData) := by
  obtain ⟨good, marked, sound⟩ := locked
  have hfound : (object.kerninfo kernel).requestPort = port := by
    unfold Object.portToKernel at hkernel
    simpa using List.find?_some hkernel
  have hlt : kernel < maxNumKernels := by
    unfold Object.portToKernel at hkernel
    exact List.mem_range.mp (List.mem_of_find?_eq_some hkernel)
  have hattached : Attached object kernel := ⟨hlt, by rw [hfound]; exact hport⟩
  obtain ⟨j, hoffset, hlength⟩ := request_unit (rounded kernel hattached) haligned
  have hinside : pageToOffset (u * j) < object.objectSize := by
    rw [← hoffset]
    have hlow : offset < object.objectSize := Nat.not_le.mp fun large => hfits (Or.inr large)
    split
    · omega
    · exact hlow
  refine ⟨hattached, j, ?_⟩
  unfold Object.memoryObjectRequest
  rw [if_neg hport, hkernel, Option.bind_some]
  dsimp only
  rw [if_neg (by rintro (h | h | h)
                 · exact hfits (Or.inl h)
                 · exact h rfl
                 · exact hfits (Or.inr h)), hoffset, hlength]
  cases write with
  | true => exact good.addWritingKernel_outcome (marked j) hattached hinside (sound j) needsData
  | false => exact good.addReadingKernel_outcome (marked j) hattached hinside (sound j) needsData

/-- An aligned request that is served is a request for the lock of a unit. -/
theorem Locked.served {port offset : Nat} (write needsData : Bool)
    (locked : Locked u object lists acked locks) (rounded : Rounded u object)
    (hkernel : object.portToKernel port = some kernel)
    (haligned : offset % (object.kerninfo kernel).realPageSize = 0) {served : Object}
    (hserved : object.memoryObjectRequest port offset (object.kerninfo kernel).realPageSize write
      needsData = some served) :
    Attached object kernel ∧ ∃ j, Answers u j object lists acked locks (some served)
      ((lockOf u object j (lists.queue j)).request kernels kernel write needsData) := by
  have hmade := hserved
  unfold Object.memoryObjectRequest at hmade
  split at hmade
  · cases hmade
  next hport =>
  rw [hkernel, Option.bind_some] at hmade
  dsimp only at hmade
  split at hmade
  · cases hmade
  next hfits =>
  rw [← hserved]
  exact locked.accepted write needsData rounded hport hkernel haligned
    (fun h => hfits (h.imp_right Or.inr))

/-- A call on the lock of one unit keeps the books of all. -/
theorem Locked.call {acked' : List Nat} {locks' : List Lock}
    (locked : Locked u object lists acked locks) (good : Good u object' lists' acked' locks')
    (outcome : Outcome u j object object' lists lists' result) (sound : result.1.Sound kernels) :
    Locked u object' lists' acked' locks' := by
  refine ⟨good, fun j' => ?_, fun j' => ?_⟩
  · by_cases same : j' = j
    · rw [same]
      exact outcome.marked
    · exact outcome.marked_other good.pos same (locked.marked j')
  · by_cases same : j' = j
    · rw [same, outcome.lock]
      exact sound
    · rw [outcome.other good.pos same]
      exact locked.sound j'

theorem Locked.memoryObjectRequest {port offset : Nat} (write needsData : Bool)
    (locked : Locked u object lists acked locks) (rounded : Rounded u object)
    (hkernel : object.portToKernel port = some kernel)
    (haligned : offset % (object.kerninfo kernel).realPageSize = 0) {served : Object}
    (hserved : object.memoryObjectRequest port offset (object.kerninfo kernel).realPageSize write
      needsData = some served) :
    ∃ lists' locks', Locked u served lists' acked locks' ∧ lists'.loose = lists.loose ∧
      After object served locks locks' := by
  obtain ⟨hattached, j, object', lists', locks', same, good, loose, after, outcome⟩ :=
    locked.served write needsData rounded hkernel haligned hserved
  obtain rfl := Option.some.inj same
  have sound := (locked.sound j).request (List.mem_range.mpr hattached.1) write needsData
  exact ⟨lists', locks', locked.call good outcome sound, loose, after⟩

/-- An answer to a lock is served, and the lock is off the books. -/
theorem Locked.lockCompleted (junk : Nat → Junk) {lock : Lock}
    (locked : Locked u object lists acked locks) (hlock : lock ∈ locks) :
    ∃ object' lists' locks',
      object.memoryObjectLockCompleted junk (object.kerninfo lock.kernel).requestPort
        (pageToOffset (u * lock.unit)) (u * minPageSize) = some object' ∧
      Locked u object' lists' (lock.serial :: acked) locks' ∧ lists'.loose = lists.loose ∧
      After object object' (locks.erase lock) locks' := by
  have sound := locked.sound lock.unit
  have distinct := sound.distinct
  rw [clients_lockOf] at distinct
  obtain ⟨writes, object', lists', locks', served, good, loose, after, outcome⟩ :=
    locked.good.lockCompleted_outcome junk hlock (locked.marked lock.unit) distinct
  exact ⟨object', lists', locks', served, locked.call good outcome (sound.giveBack writes), loose,
    after⟩

/-- A kernel with the page size of the others is let in under a port of its own. -/
theorem Locked.letIn {info : Kernel} (locked : Locked u object lists acked locks)
    (rounded : Rounded u object) (hslot : object.portToKernel 0 = some kernel)
    (hunknown : object.portToKernel info.requestPort = none)
    (hsize : info.pageSize = u * minPageSize)
    (hreal : max info.realPageSize minPageSize = u * minPageSize) :
    Locked u { object with kerninfo := Function.update object.kerninfo kernel info } lists acked
        locks ∧
      Rounded u { object with kerninfo := Function.update object.kerninfo kernel info } := by
  obtain ⟨good, rounded⟩ := locked.good.letIn rounded hslot hunknown hsize hreal
  have marked := locked.marked
  exact ⟨⟨good, fun j => ⟨(marked j).write, (marked j).data, (marked j).others⟩, locked.sound⟩,
    rounded⟩

/-- `memory_object_init` of a kernel with the page size of the others. -/
theorem Locked.memoryObjectInit {port pageSize : Nat} (locked : Locked u object lists acked locks)
    (rounded : Rounded u object) (hsize : max pageSize minPageSize = u * minPageSize) :
    Locked u (object.memoryObjectInit port pageSize) lists acked locks ∧
      Rounded u (object.memoryObjectInit port pageSize) := by
  unfold Object.memoryObjectInit
  split
  · exact ⟨locked, rounded⟩
  split
  · exact ⟨locked, rounded⟩
  split
  · exact ⟨locked, rounded⟩
  split
  · exact ⟨locked, rounded⟩
  next hport _ _ hunknown =>
  cases hslot : object.portToKernel 0 with
  | none => exact ⟨locked, rounded⟩
  | some kernel =>
      exact locked.letIn rounded hslot (not_not.mp hunknown) (rounded_size hsize) hsize

theorem Locked.setMark (locked : Locked u object lists acked locks) (mark : Bool) :
    Locked u { object with mark := mark } lists acked locks := by
  have marked := locked.marked
  exact ⟨locked.good.setMark mark,
    fun j => ⟨(marked j).write, (marked j).data, (marked j).others⟩, locked.sound⟩

/-- A new object. -/
theorem locked_new (hu : 0 < u) (n : Nat) :
    Locked u { objectSize := n } ⟨fun _ => [], [], []⟩ [] [] := by
  refine ⟨good_new hu n, fun j => ⟨fun k member => ?_, fun k member => ?_, fun _ _ _ =>
    ⟨rfl, rfl⟩⟩, fun j => sound_new⟩
  · simp [setMember] at member
  · simp [setMember] at member

end Steps

end MachFormal.NetMemory.OneSize
