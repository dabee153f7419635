import MachFormal.NetMemory.OneSize.Units
import MachFormal.Library.Linked
import Mathlib.Data.List.Nodup
import Mathlib.Data.List.Perm.Basic

/-!
# The scheduler for kernels of one page size: queues

The requests that wait for a unit form one queue.  Its first request has a
LOCK_WRITER out to the writer of the unit, and the books say that these are all
the locks that were not answered.  An answer gives the unit to the requests of
the queue, up to the first one that writes.
-/

namespace MachFormal.NetMemory.OneSize

open MachFormal.Library

variable {u : Nat}

/-! ## Queues -/

/-- A LOCK_WRITER that was not answered: its place in the log, the kernel it was sent to, the
unit it is for and the mark it was counted under. -/
structure Lock where
  serial : Nat
  kernel : Nat
  unit : Nat
  mark : Bool
  deriving DecidableEq, Repr

/-- The lists of requests of an object: a queue for every unit, the free requests, and requests
that are neither waiting nor free. -/
structure Lists where
  queue : Nat → List Nat
  free : List Nat
  loose : List Nat

/-- The queue of unit `j` is linked by `follow`, and its requests span the unit. -/
structure Waits (u : Nat) (object : Object) (j : Nat) (queue : List Nat) : Prop where
  linked : Linked (fun r => (object.requests r).follow) queue.head? queue
  nodup : queue.Nodup
  first : ∀ r ∈ queue, (object.requests r).firstPage = u * j
  last : ∀ r ∈ queue, (object.requests r).lastPage = u * j + u - 1
  kernel : ∀ r ∈ queue, ∃ kernel, (object.requests r).kernel = some kernel ∧
    Attached object kernel

/-- The lists do not share requests, and they have all that were allocated. -/
structure Pool (object : Object) (lists : Lists) : Prop where
  apart : ∀ j j' r, r ∈ lists.queue j → r ∈ lists.queue j' → j = j'
  free_linked : Linked (fun r => (object.requests r).follow) object.freeRequests lists.free
  free_nodup : lists.free.Nodup
  free_apart : ∀ r ∈ lists.free, ∀ j, r ∉ lists.queue j
  loose_nodup : lists.loose.Nodup
  loose_free : ∀ r ∈ lists.loose, r ∉ lists.free
  loose_apart : ∀ r ∈ lists.loose, ∀ j, r ∉ lists.queue j
  bound_queue : ∀ j, ∀ r ∈ lists.queue j, r < object.allocated
  bound_free : ∀ r ∈ lists.free, r < object.allocated
  bound_loose : ∀ r ∈ lists.loose, r < object.allocated
  siblings : ∀ r, (object.requests r).sibling = none
  covers : ∀ r < object.allocated, r ∈ lists.free ∨ r ∈ lists.loose ∨ ∃ j, r ∈ lists.queue j

/-- The locks are those of the log that were not answered, each for a unit with a queue whose
first request carries its mark, and `outstanding` counts them. -/
structure Books (u : Nat) (object : Object) (queue : Nat → List Nat) (acked : List Nat)
    (locks : List Lock) : Prop where
  front : ∀ lock ∈ locks, ∃ r rest, queue lock.unit = r :: rest ∧
    (object.requests r).mark = lock.mark ∧
    (object.minPages (u * lock.unit)).writer = lock.kernel
  attached : ∀ lock ∈ locks, Attached object lock.kernel
  units : (locks.map Lock.unit).Nodup
  serials : (locks.map Lock.serial).Nodup
  count : ∀ kernel mark, object.outstanding kernel mark =
    locks.countP (fun lock => decide (lock.kernel = kernel ∧ lock.mark = mark))
  logged : ∀ serial, serial ∈ locks.map Lock.serial ↔ ∃ message,
    messageAt object.sent serial = some message ∧ message.kind = .lockWriter ∧ serial ∉ acked
  message : ∀ lock ∈ locks, messageAt object.sent lock.serial =
    some ⟨(object.kerninfo lock.kernel).requestPort, .lockWriter, pageToOffset (u * lock.unit),
      u * minPageSize⟩
  answered : ∀ serial ∈ acked, serial < object.sent.length

/-- A unit that is not being worked on: a queue has a writer before it. -/
def Settled (u : Nat) (object : Object) (j : Nat) (queue : List Nat) : Prop :=
  ∃ use user, Looks u object j use user queue.head? queue.getLast? ∧
    (queue ≠ [] → use = .write) ∧ (use = .write → Attached object (writerOf user)) ∧
    Readers object use user

/-- A unit whose writer has just left: nobody is its head yet. -/
def Opened (u : Nat) (object : Object) (j : Nat) (queue : List Nat) : Prop :=
  ∃ use user, Looks u object j use user none queue.getLast? ∧ use ≠ .write ∧
    Readers object use user

/-- What holds at every point of a call. -/
structure Common (u : Nat) (object : Object) (lists : Lists) (acked : List Nat)
    (locks : List Lock) : Prop where
  pos : 0 < u
  sized : Sized u object
  ports : ∀ k k', Attached object k → Attached object k' →
    (object.kerninfo k).requestPort = (object.kerninfo k').requestPort → k = k'
  waits : ∀ j, Waits u object j (lists.queue j)
  inside : ∀ j, lists.queue j ≠ [] → pageToOffset (u * j) < object.objectSize
  pool : Pool object lists
  books : Books u object lists.queue acked locks

/-- Between the calls. -/
structure Good (u : Nat) (object : Object) (lists : Lists) (acked : List Nat)
    (locks : List Lock) : Prop extends Common u object lists acked locks where
  units : ∀ j, Settled u object j (lists.queue j)

/-- While unit `j` is given away. -/
structure Mid (u : Nat) (object : Object) (lists : Lists) (acked : List Nat)
    (locks : List Lock) (j : Nat) : Prop extends Common u object lists acked locks where
  others : ∀ j', j' ≠ j → Settled u object j' (lists.queue j')
  opened : Opened u object j (lists.queue j)
  unlocked : ∀ lock ∈ locks, lock.unit ≠ j

section Steps

variable {object object' : Object} {lists : Lists} {acked : List Nat} {locks : List Lock}
  {j : Nat} {queue : List Nat}

/-! ### The log -/

theorem messageAt_old {sent new : List Message} {serial : Nat} (hold : serial < sent.length) :
    messageAt (new ++ sent) serial = messageAt sent serial := by
  unfold messageAt
  rw [List.reverse_append, List.getElem?_append_left (by simpa using hold)]

theorem messageAt_new {sent new : List Message} {serial : Nat} (hnew : sent.length ≤ serial) :
    messageAt (new ++ sent) serial = new.reverse[serial - sent.length]? := by
  unfold messageAt
  rw [List.reverse_append, List.getElem?_append_right (by simpa using hnew), List.length_reverse]

theorem messageAt_lt {sent : List Message} {serial : Nat} {message : Message}
    (hmessage : messageAt sent serial = some message) : serial < sent.length := by
  unfold messageAt at hmessage
  obtain ⟨hlt, -⟩ := List.getElem?_eq_some_iff.mp hmessage
  simpa using hlt

/-- Messages without a LOCK_WRITER leave the log of the locks as it is. -/
theorem logged_append {sent new : List Message} (hnew : ∀ message ∈ new, message.kind ≠ .lockWriter)
    (serial : Nat) :
    (∃ message, messageAt (new ++ sent) serial = some message ∧ message.kind = .lockWriter ∧
        serial ∉ acked) ↔
      ∃ message, messageAt sent serial = some message ∧ message.kind = .lockWriter ∧
        serial ∉ acked := by
  rcases Nat.lt_or_ge serial sent.length with hold | hge
  · rw [messageAt_old hold]
  · constructor
    · rintro ⟨message, hmessage, hkind, -⟩
      rw [messageAt_new hge] at hmessage
      exact absurd hkind (hnew message (List.mem_reverse.mp (List.mem_of_getElem? hmessage)))
    · rintro ⟨message, hmessage, -⟩
      exact absurd (messageAt_lt hmessage) (by omega)

/-! ### Frames -/

theorem Attached.congr {kernel : Nat} (hkerninfo : object'.kerninfo = object.kerninfo) :
    Attached object' kernel ↔ Attached object kernel := by
  unfold Attached
  rw [hkerninfo]

theorem Readers.congr {use : Use} {user : BitVec 32}
    (hkerninfo : object'.kerninfo = object.kerninfo) (readers : Readers object use user) :
    Readers object' use user :=
  fun huse kernel hkernel hmember =>
    (Attached.congr hkerninfo).mpr (readers huse kernel hkernel hmember)

/-- A queue depends on its own requests only. -/
theorem Waits.congr (waits : Waits u object j queue)
    (hkerninfo : object'.kerninfo = object.kerninfo)
    (hrequests : ∀ r ∈ queue,
      (object'.requests r).follow = (object.requests r).follow ∧
      (object'.requests r).firstPage = (object.requests r).firstPage ∧
      (object'.requests r).lastPage = (object.requests r).lastPage ∧
      (object'.requests r).kernel = (object.requests r).kernel) : Waits u object' j queue where
  linked := waits.linked.congr (fun r hr => (hrequests r hr).1)
  nodup := waits.nodup
  first := fun r hr => (hrequests r hr).2.1.trans (waits.first r hr)
  last := fun r hr => (hrequests r hr).2.2.1.trans (waits.last r hr)
  kernel := by
    intro r hr
    obtain ⟨kernel, hkernel, hattached⟩ := waits.kernel r hr
    exact ⟨kernel, (hrequests r hr).2.2.2.trans hkernel, (Attached.congr hkerninfo).mpr hattached⟩

theorem Settled.congr (settled : Settled u object j queue)
    (hpages : object'.minPages = object.minPages)
    (hkerninfo : object'.kerninfo = object.kerninfo) : Settled u object' j queue := by
  obtain ⟨use, user, looks, hbusy, hwriter, readers⟩ := settled
  refine ⟨use, user, ⟨?_, ?_, ?_, ?_, ?_, ?_⟩, hbusy,
    fun huse => (Attached.congr hkerninfo).mpr (hwriter huse), readers.congr hkerninfo⟩
  all_goals rw [hpages]
  · exact looks.use
  · exact looks.user
  · exact looks.tail
  · exact looks.head
  · exact looks.heads
  · exact looks.completes

theorem Settled.of_grants (settled : Settled u object j queue) (hu : 0 < u) {unit : Nat}
    (hne : j ≠ unit) (grants : Grants u unit object object') : Settled u object' j queue := by
  obtain ⟨use, user, looks, hbusy, hwriter, readers⟩ := settled
  exact ⟨use, user, grants.looks hu hne looks, hbusy,
    fun huse => (Attached.congr grants.kerninfo).mpr (hwriter huse),
    readers.congr grants.kerninfo⟩

/-- A page that is given away changes nothing of the queues and the books. -/
theorem Common.of_grants (common : Common u object lists acked locks)
    (grants : Grants u j object object')
    (hwriter : ∀ lock ∈ locks, lock.unit = j → (object'.minPages (u * j)).writer =
      (object.minPages (u * j)).writer) : Common u object' lists acked locks := by
  have hattached : ∀ kernel, Attached object' kernel ↔ Attached object kernel :=
    fun _ => Attached.congr grants.kerninfo
  obtain ⟨new, hsent, hnew⟩ := grants.sent
  refine ⟨common.pos, fun kernel h => ?_, fun k k' h h' => ?_, fun j' => ?_, ?_, ?_, ?_⟩
  · rw [grants.kerninfo]
    exact common.sized kernel ((hattached kernel).mp h)
  · rw [grants.kerninfo]
    exact common.ports k k' ((hattached k).mp h) ((hattached k').mp h')
  · refine (common.waits j').congr grants.kerninfo (fun r _ => ?_)
    rw [grants.requests]
    exact ⟨rfl, rfl, rfl, rfl⟩
  · rw [grants.objectSize]
    exact common.inside
  · have pool := common.pool
    refine ⟨pool.apart, ?_, pool.free_nodup, pool.free_apart, pool.loose_nodup, pool.loose_free,
      pool.loose_apart, ?_, ?_, ?_, ?_, ?_⟩
    · rw [grants.requests, grants.freeRequests]; exact pool.free_linked
    · rw [grants.allocated]; exact pool.bound_queue
    · rw [grants.allocated]; exact pool.bound_free
    · rw [grants.allocated]; exact pool.bound_loose
    · rw [grants.requests]; exact pool.siblings
    · rw [grants.allocated]; exact pool.covers
  · have books := common.books
    refine ⟨fun lock hlock => ?_, fun lock hlock => (hattached _).mpr (books.attached lock hlock),
      books.units, books.serials, ?_, fun serial => ?_, fun lock hlock => ?_,
      fun serial hserial => ?_⟩
    · obtain ⟨r, rest, hqueue, hmark, hkernel⟩ := books.front lock hlock
      refine ⟨r, rest, hqueue, by rw [grants.requests]; exact hmark, ?_⟩
      by_cases hunit : lock.unit = j
      · rw [hunit, hwriter lock hlock hunit, ← hunit]
        exact hkernel
      · rw [grants.pages _ (by rw [Nat.mul_div_cancel_left _ common.pos]; exact hunit)]
        exact hkernel
    · rw [grants.outstanding]; exact books.count
    · rw [hsent, logged_append hnew]
      exact books.logged serial
    · have hmessage := books.message lock hlock
      rw [hsent, messageAt_old (messageAt_lt hmessage), grants.kerninfo]
      exact hmessage
    · rw [hsent, List.length_append]
      exact Nat.lt_add_left _ (books.answered serial hserial)

/-! ### Evicting the writer of a unit -/

/-- The writer `w` of unit `j` is sent a LOCK_WRITER for request `r`. -/
structure Evicts (u j r w : Nat) (object object' : Object) : Prop where
  head : (object'.minPages (u * j)).head = some r
  page : ∀ page, (object'.minPages page).use = (object.minPages page).use ∧
    (object'.minPages page).user = (object.minPages page).user ∧
    (object'.minPages page).tail = (object.minPages page).tail ∧
    (object'.minPages page).pendingCompletes = (object.minPages page).pendingCompletes
  heads : ∀ page, page ≠ u * j → (object'.minPages page).head = (object.minPages page).head
  requests : ∀ x, (object'.requests x).follow = (object.requests x).follow ∧
    (object'.requests x).firstPage = (object.requests x).firstPage ∧
    (object'.requests x).lastPage = (object.requests x).lastPage ∧
    (object'.requests x).kernel = (object.requests x).kernel ∧
    (object'.requests x).sibling = (object.requests x).sibling
  mark : (object'.requests r).mark = object.mark
  marks : ∀ x, x ≠ r → (object'.requests x).mark = (object.requests x).mark
  outstanding : object'.outstanding = (object.addOutstanding w object.mark 1).outstanding
  sent : object'.sent = ⟨(object.kerninfo w).requestPort, .lockWriter, pageToOffset (u * j),
    u * minPageSize⟩ :: object.sent
  kerninfo : object'.kerninfo = object.kerninfo
  objectSize : object'.objectSize = object.objectSize
  objectMark : object'.mark = object.mark
  allocated : object'.allocated = object.allocated
  freeRequests : object'.freeRequests = object.freeRequests

theorem addOutstanding_apply (object : Object) (w k : Nat) (mark m : Bool) (delta : Int) :
    (object.addOutstanding w mark delta).outstanding k m =
      object.outstanding k m + if w = k ∧ mark = m then delta else 0 := by
  dsimp only [Object.addOutstanding]
  by_cases hk : k = w
  · subst hk
    rw [Function.update_self]
    by_cases hm : m = mark
    · subst hm
      rw [Function.update_self, if_pos ⟨rfl, rfl⟩]
    · rw [Function.update_of_ne hm, if_neg (fun h => hm h.2.symm), add_zero]
  · rw [Function.update_of_ne hk, if_neg (fun h => hk h.1.symm), add_zero]

theorem Evicts.looks {r w : Nat} (evicts : Evicts u j r w object object') {use : Use}
    {user : BitVec 32} {head tail : Option Nat} (looks : Looks u object j use user head tail) :
    Looks u object' j use user (some r) tail where
  use := fun i hi => (evicts.page _).1.trans (looks.use i hi)
  user := fun i hi => (evicts.page _).2.1.trans (looks.user i hi)
  tail := fun i hi => (evicts.page _).2.2.1.trans (looks.tail i hi)
  head := evicts.head
  heads := fun i hpos hi => (evicts.heads _ (by omega)).trans (looks.heads i hpos hi)
  completes := fun i hi => (evicts.page _).2.2.2.trans (looks.completes i hi)

theorem Evicts.settled {r w j' : Nat} (evicts : Evicts u j r w object object') (hu : 0 < u)
    (hne : j' ≠ j) (settled : Settled u object j' queue) : Settled u object' j' queue := by
  obtain ⟨use, user, looks, hbusy, hwriter, readers⟩ := settled
  refine ⟨use, user, looks.of_view hu (fun i hi => ?_), hbusy,
    fun huse => (Attached.congr evicts.kerninfo).mpr (hwriter huse),
    readers.congr evicts.kerninfo⟩
  have hother : u * j' + i ≠ u * j := by
    intro heq
    have hdiv := unit_div (j := j') hi
    rw [heq, Nat.mul_div_cancel_left _ hu] at hdiv
    exact hne hdiv.symm
  obtain ⟨h1, h2, h3, h4⟩ := evicts.page (u * j' + i)
  rw [view, view, h1, h2, h3, h4, evicts.heads _ hother]

/-- Request `r` becomes the head of unit `j`, and writer `w` is sent a LOCK_WRITER. -/
def evict (u : Nat) (object : Object) (j r w : Nat) : Object :=
  ((object.setPage (u * j) (fun minPage => { minPage with head := some r })).reqMark r w).send w
    .lockWriter (pageToOffset (u * j)) (u * minPageSize)

theorem evict_requests (object : Object) (j r w x : Nat) :
    (evict u object j r w).requests x =
      if x = r then { object.requests x with mark := object.mark } else object.requests x := by
  dsimp only [evict, Object.send, Object.setPage, Object.reqMark, Object.setRequest,
    Object.addOutstanding]
  by_cases hx : x = r
  · subst hx
    rw [Function.update_self, if_pos rfl]
  · rw [Function.update_of_ne hx, if_neg hx]

theorem evict_minPages (object : Object) (j r w page : Nat) :
    (evict u object j r w).minPages page =
      if page = u * j then { object.minPages page with head := some r }
      else object.minPages page := by
  dsimp only [evict, Object.send, Object.setPage, Object.reqMark, Object.setRequest,
    Object.addOutstanding]
  by_cases hpage : page = u * j
  · subst hpage
    rw [Function.update_self, if_pos rfl]
  · rw [Function.update_of_ne hpage, if_neg hpage]

theorem evicts_evict (object : Object) (j r w : Nat) :
    Evicts u j r w object (evict u object j r w) := by
  refine ⟨?_, fun page => ?_, fun page hpage => ?_, fun x => ?_, ?_, fun x hx => ?_, rfl, rfl, rfl,
    rfl, rfl, rfl, rfl⟩
  · rw [evict_minPages, if_pos rfl]
  · rw [evict_minPages]
    split <;> exact ⟨rfl, rfl, rfl, rfl⟩
  · rw [evict_minPages, if_neg hpage]
  · rw [evict_requests]
    split <;> exact ⟨rfl, rfl, rfl, rfl, rfl⟩
  · rw [evict_requests, if_pos rfl]
  · rw [evict_requests, if_neg hx]

/-- The eviction of the writer in `satisfy_request`. -/
theorem setHeads_eq {x w fuel : Nat} (hsibling : (object.requests x).sibling = none)
    (hfirst : (object.requests x).firstPage = u * j)
    (hsize : (object.kerninfo w).pageSize = u * minPageSize) :
    Object.setHeads w (fuel + 1) (some x)
        (object.send w .lockWriter (pageToOffset (u * j)) (object.kerninfo w).pageSize) =
      some (evict u object j x w) := by
  have hstop : ∀ o : Object, Object.setHeads w fuel none o = some o := by
    intro o
    cases fuel with
    | zero => rfl
    | succ fuel => rfl
  have hnone : ((evict u object j x w).requests x).sibling = none := by
    rw [evict_requests, if_pos rfl]
    exact hsibling
  have hturn : Object.setHeads w (fuel + 1) (some x)
      (object.send w .lockWriter (pageToOffset (u * j)) (u * minPageSize)) =
        Object.setHeads w fuel ((evict u object j x w).requests x).sibling
          (evict u object j x w) := by
    have hpage : ((object.send w .lockWriter (pageToOffset (u * j))
        (u * minPageSize)).requests x).firstPage = u * j := hfirst
    conv_lhs => unfold Object.setHeads
    dsimp only
    rw [hpage]
    rfl
  rw [hsize, hturn, hnone, hstop]

/-- The books after an eviction. -/
theorem Common.evict {r w : Nat} {rest : List Nat} (common : Common u object lists acked locks)
    (evicts : Evicts u j r w object object') (hqueue : lists.queue j = r :: rest)
    (hunlocked : ∀ lock ∈ locks, lock.unit ≠ j)
    (hwriter : (object.minPages (u * j)).writer = w) (hattached : Attached object w) :
    Common u object' lists acked (⟨object.sent.length, w, j, object.mark⟩ :: locks) := by
  have hkernels : ∀ kernel, Attached object' kernel ↔ Attached object kernel :=
    fun _ => Attached.congr evicts.kerninfo
  have books := common.books
  have pool := common.pool
  have hfollow : (fun r => (object'.requests r).follow) = fun r => (object.requests r).follow :=
    funext fun x => (evicts.requests x).1
  have hfresh : object.sent.length ∉ locks.map Lock.serial := by
    intro hin
    obtain ⟨message, hmessage, -⟩ := (books.logged _).mp hin
    exact absurd (messageAt_lt hmessage) (Nat.lt_irrefl _)
  have hsent : object'.sent = [⟨(object.kerninfo w).requestPort, .lockWriter,
      pageToOffset (u * j), u * minPageSize⟩] ++ object.sent := evicts.sent
  have hpageWriter : ∀ page, (object'.minPages page).writer = (object.minPages page).writer := by
    intro page
    unfold MinPage.writer
    rw [(evicts.page page).2.1]
  refine ⟨common.pos, fun kernel h => ?_, fun k k' h h' => ?_, fun j' => ?_, ?_, ?_, ?_⟩
  · rw [evicts.kerninfo]
    exact common.sized kernel ((hkernels kernel).mp h)
  · rw [evicts.kerninfo]
    exact common.ports k k' ((hkernels k).mp h) ((hkernels k').mp h')
  · exact (common.waits j').congr evicts.kerninfo (fun x _ =>
      ⟨(evicts.requests x).1, (evicts.requests x).2.1, (evicts.requests x).2.2.1,
        (evicts.requests x).2.2.2.1⟩)
  · rw [evicts.objectSize]
    exact common.inside
  · refine ⟨pool.apart, ?_, pool.free_nodup, pool.free_apart, pool.loose_nodup, pool.loose_free,
      pool.loose_apart, ?_, ?_, ?_, fun x => ?_, ?_⟩
    · rw [hfollow, evicts.freeRequests]; exact pool.free_linked
    · rw [evicts.allocated]; exact pool.bound_queue
    · rw [evicts.allocated]; exact pool.bound_free
    · rw [evicts.allocated]; exact pool.bound_loose
    · rw [(evicts.requests x).2.2.2.2]; exact pool.siblings x
    · rw [evicts.allocated]; exact pool.covers
  · refine ⟨fun lock hlock => ?_, fun lock hlock => ?_, ?_, ?_, fun kernel mark => ?_,
      fun serial => ?_, fun lock hlock => ?_, fun serial hserial => ?_⟩
    · rcases List.mem_cons.mp hlock with rfl | hold
      · exact ⟨r, rest, hqueue, evicts.mark, (hpageWriter _).trans hwriter⟩
      · obtain ⟨x, rest', hqueue', hmark, hkernel⟩ := books.front lock hold
        have hne : x ≠ r := by
          rintro rfl
          refine hunlocked lock hold (pool.apart lock.unit j x ?_ ?_)
          · rw [hqueue']; exact List.mem_cons_self
          · rw [hqueue]; exact List.mem_cons_self
        exact ⟨x, rest', hqueue', (evicts.marks x hne).trans hmark,
          (hpageWriter _).trans hkernel⟩
    · rw [hkernels]
      rcases List.mem_cons.mp hlock with rfl | hold
      · exact hattached
      · exact books.attached lock hold
    · rw [List.map_cons, List.nodup_cons]
      refine ⟨fun hin => ?_, books.units⟩
      obtain ⟨lock, hlock, hunit⟩ := List.mem_map.mp hin
      exact hunlocked lock hlock hunit
    · rw [List.map_cons, List.nodup_cons]
      exact ⟨hfresh, books.serials⟩
    · rw [evicts.outstanding, addOutstanding_apply, books.count, List.countP_cons]
      by_cases hthis : w = kernel ∧ object.mark = mark
      · rw [if_pos hthis, if_pos (by simpa using hthis)]
        push_cast
        rfl
      · rw [if_neg hthis, if_neg (by simpa using hthis)]
        simp
    · rw [hsent, List.map_cons, List.mem_cons]
      rcases Nat.lt_trichotomy serial object.sent.length with hlt | heq | hgt
      · rw [messageAt_old hlt, ← books.logged serial]
        exact or_iff_right (by dsimp only; omega)
      · subst heq
        rw [messageAt_new (le_refl _), Nat.sub_self]
        refine ⟨fun _ => ⟨_, rfl, rfl, fun hin => ?_⟩, fun _ => Or.inl rfl⟩
        exact absurd (books.answered _ hin) (Nat.lt_irrefl _)
      · constructor
        · rintro (heq | hin)
          · exact absurd heq (by dsimp only; omega)
          · obtain ⟨message, hmessage, -⟩ := (books.logged serial).mp hin
            exact absurd (messageAt_lt hmessage) (by omega)
        · rintro ⟨message, hmessage, -⟩
          have := messageAt_lt hmessage
          simp at this
          omega
    · rw [evicts.kerninfo, hsent]
      rcases List.mem_cons.mp hlock with rfl | hold
      · dsimp only
        rw [messageAt_new (le_refl _)]
        simp
      · have hmessage := books.message lock hold
        rw [messageAt_old (messageAt_lt hmessage)]
        exact hmessage
    · rw [hsent, List.length_append]
      exact Nat.lt_add_left _ (books.answered serial hserial)

/-! ### Satisfying requests -/

/-- The first request of a queue leaves it. -/
def Lists.detach (lists : Lists) (j r : Nat) (rest : List Nat) : Lists :=
  { lists with
    queue := Function.update lists.queue j rest
    loose := r :: lists.loose }

theorem Common.detach {r : Nat} {rest : List Nat} (common : Common u object lists acked locks)
    (hqueue : lists.queue j = r :: rest) (hunlocked : ∀ lock ∈ locks, lock.unit ≠ j) :
    Common u object (lists.detach j r rest) acked locks := by
  have pool := common.pool
  have waits := common.waits j
  rw [hqueue] at waits
  have hsub : ∀ j' x, x ∈ (lists.detach j r rest).queue j' → x ∈ lists.queue j' ∧ x ≠ r := by
    intro j' x hx
    dsimp only [Lists.detach] at hx
    by_cases heq : j' = j
    · subst heq
      rw [Function.update_self] at hx
      refine ⟨by rw [hqueue]; exact List.mem_cons_of_mem r hx, ?_⟩
      rintro rfl
      exact (List.nodup_cons.mp waits.nodup).1 hx
    · rw [Function.update_of_ne heq] at hx
      refine ⟨hx, ?_⟩
      rintro rfl
      exact heq (pool.apart j' j x hx (by rw [hqueue]; exact List.mem_cons_self))
  have hr : r ∈ lists.queue j := by rw [hqueue]; exact List.mem_cons_self
  refine ⟨common.pos, common.sized, common.ports, fun j' => ?_, fun j' hne => ?_, ?_, ?_⟩
  · dsimp only [Lists.detach]
    by_cases heq : j' = j
    · subst heq
      rw [Function.update_self]
      refine ⟨?_, (List.nodup_cons.mp waits.nodup).2,
        fun x hx => waits.first x (List.mem_cons_of_mem r hx),
        fun x hx => waits.last x (List.mem_cons_of_mem r hx),
        fun x hx => waits.kernel x (List.mem_cons_of_mem r hx)⟩
      have hrest := waits.linked.2
      rwa [hrest.head_eq] at hrest
    · rw [Function.update_of_ne heq]
      exact common.waits j'
  · refine common.inside j' ?_
    obtain ⟨x, hx⟩ := List.exists_mem_of_ne_nil _ hne
    exact List.ne_nil_of_mem (hsub j' x hx).1
  · refine ⟨fun j₁ j₂ x h₁ h₂ => pool.apart j₁ j₂ x (hsub j₁ x h₁).1 (hsub j₂ x h₂).1,
      pool.free_linked, pool.free_nodup,
      fun x hx j' hin => pool.free_apart x hx j' (hsub j' x hin).1, ?_, ?_, ?_,
      fun j' x hx => pool.bound_queue j' x (hsub j' x hx).1, pool.bound_free, ?_, pool.siblings,
      fun x hx => ?_⟩
    · exact List.nodup_cons.mpr ⟨fun hin => pool.loose_apart r hin j hr, pool.loose_nodup⟩
    · intro x hx
      rcases List.mem_cons.mp hx with rfl | hx
      · exact fun hin => pool.free_apart x hin j hr
      · exact pool.loose_free x hx
    · intro x hx j' hin
      rcases List.mem_cons.mp hx with rfl | hx
      · exact (hsub j' x hin).2 rfl
      · exact pool.loose_apart x hx j' (hsub j' x hin).1
    · intro x hx
      rcases List.mem_cons.mp hx with rfl | hx
      · exact pool.bound_queue j x hr
      · exact pool.bound_loose x hx
    · rcases pool.covers x hx with hfree | hloose | ⟨j', hin⟩
      · exact Or.inl hfree
      · exact Or.inr (Or.inl (List.mem_cons_of_mem r hloose))
      · dsimp only [Lists.detach]
        by_cases heq : j' = j
        · rw [heq, hqueue] at hin
          rcases List.mem_cons.mp hin with rfl | hin
          · exact Or.inr (Or.inl List.mem_cons_self)
          · exact Or.inr (Or.inr ⟨j, by rwa [Function.update_self]⟩)
        · exact Or.inr (Or.inr ⟨j', by rwa [Function.update_of_ne heq]⟩)
  · have books := common.books
    refine ⟨fun lock hlock => ?_, books.attached, books.units, books.serials, books.count,
      books.logged, books.message, books.answered⟩
    obtain ⟨x, rest', hqueue', hmark, hkernel⟩ := books.front lock hlock
    refine ⟨x, rest', ?_, hmark, hkernel⟩
    dsimp only [Lists.detach]
    rw [Function.update_of_ne (hunlocked lock hlock), hqueue']

/-- A request that left its queue is freed. -/
def Lists.release (lists : Lists) (r : Nat) (loose : List Nat) : Lists :=
  { lists with free := r :: lists.free, loose := loose }

theorem Good.release {r : Nat} {loose : List Nat} (good : Good u object lists acked locks)
    (hloose : lists.loose = r :: loose) :
    Good u (object.reqFree r) (lists.release r loose) acked locks := by
  have pool := good.pool
  have hr : r ∈ lists.loose := by rw [hloose]; exact List.mem_cons_self
  have hin : ∀ x ∈ loose, x ∈ lists.loose :=
    fun x hx => by rw [hloose]; exact List.mem_cons_of_mem r hx
  have hrequests : ∀ x, x ≠ r → (object.reqFree r).requests x = object.requests x :=
    fun x hx => Function.update_of_ne hx _ _
  have hself : (object.reqFree r).requests r =
      { object.requests r with follow := object.freeRequests } := Function.update_self _ _ _
  have hfields : ∀ x, ((object.reqFree r).requests x).mark = (object.requests x).mark ∧
      ((object.reqFree r).requests x).sibling = (object.requests x).sibling := by
    intro x
    by_cases heq : x = r
    · subst heq
      rw [hself]
      exact ⟨rfl, rfl⟩
    · rw [hrequests x heq]
      exact ⟨rfl, rfl⟩
  have hqueues : ∀ j, ∀ x ∈ lists.queue j, x ≠ r := by
    rintro j x hx rfl
    exact pool.loose_apart x hr j hx
  have hnodup := pool.loose_nodup
  rw [hloose] at hnodup
  refine ⟨⟨good.pos, good.sized, good.ports, fun j => ?_, good.inside, ?_, ?_⟩,
    fun j => (good.units j).congr rfl rfl⟩
  · refine (good.waits j).congr rfl (fun x hx => ?_)
    rw [hrequests x (hqueues j x hx)]
    exact ⟨rfl, rfl, rfl, rfl⟩
  · refine ⟨pool.apart, ⟨rfl, ?_⟩, List.nodup_cons.mpr ⟨pool.loose_free r hr, pool.free_nodup⟩,
      ?_, (List.nodup_cons.mp hnodup).2, ?_, fun x hx => pool.loose_apart x (hin x hx),
      pool.bound_queue, ?_, fun x hx => pool.bound_loose x (hin x hx),
      fun x => (hfields x).2.trans (pool.siblings x), fun x hx => ?_⟩
    · show Linked _ ((object.reqFree r).requests r).follow lists.free
      rw [hself]
      refine pool.free_linked.congr (fun x hx => ?_)
      rw [hrequests x (fun heq => pool.loose_free r hr (heq ▸ hx))]
    · intro x hx
      rcases List.mem_cons.mp hx with rfl | hx
      · exact pool.loose_apart x hr
      · exact pool.free_apart x hx
    · intro x hx hfree
      rcases List.mem_cons.mp hfree with rfl | hfree
      · exact (List.nodup_cons.mp hnodup).1 hx
      · exact pool.loose_free x (hin x hx) hfree
    · intro x hx
      rcases List.mem_cons.mp hx with rfl | hx
      · exact pool.bound_loose x hr
      · exact pool.bound_free x hx
    · rcases pool.covers x hx with hfree | hin | hqueue
      · exact Or.inl (List.mem_cons_of_mem r hfree)
      · rw [hloose] at hin
        rcases List.mem_cons.mp hin with rfl | hin
        · exact Or.inl List.mem_cons_self
        · exact Or.inr (Or.inl hin)
      · exact Or.inr (Or.inr hqueue)
  · have books := good.books
    refine ⟨fun lock hlock => ?_, books.attached, books.units, books.serials, books.count,
      books.logged, books.message, books.answered⟩
    obtain ⟨x, rest, hqueue, hmark, hkernel⟩ := books.front lock hlock
    exact ⟨x, rest, hqueue, (hfields x).1.trans hmark, hkernel⟩

/-- The object after the part of `satisfy_request` that gives the page away. -/
def gaveAway (u : Nat) (object : Object) (j r kernel : Nat) : Object :=
  setUnit u (object.satisfyKernel kernel (u * j) (u * j + u - 1)).1 j (clearTail r)

/-- The first request of the queue of unit `j` gets the unit. -/
theorem Mid.given {r : Nat} {rest : List Nat} (mid : Mid u object lists acked locks j)
    (hqueue : lists.queue j = r :: rest) :
    ∃ kernel, (object.requests r).kernel = some kernel ∧ Attached object kernel ∧
      Given u object (gaveAway u object j r kernel) j kernel
        (object.satisfyKernel kernel (u * j) (u * j + u - 1)).2 none rest.getLast? := by
  have waits := mid.waits j
  rw [hqueue] at waits
  obtain ⟨kernel, hkernel, hattached⟩ := waits.kernel r List.mem_cons_self
  obtain ⟨use, user, looks, huse, readers⟩ := mid.opened
  rw [hqueue] at looks
  have given := (satisfyKernel_given mid.pos mid.sized looks huse readers hattached).clearTail
    mid.pos r
  refine ⟨kernel, hkernel, hattached, ?_⟩
  have htail : (if (r :: rest).getLast? = some r then none else (r :: rest).getLast?) =
      rest.getLast? := by
    cases hrest : rest with
    | nil => simp
    | cons x more =>
        rw [List.getLast?_cons_cons, if_neg]
        intro hlast
        refine (List.nodup_cons.mp waits.nodup).1 ?_
        rw [hrest]
        exact List.mem_of_getLast? hlast
  rw [htail] at given
  exact given

theorem Given.writer {kernel : Nat} {head tail : Option Nat}
    (given : Given u object object' j kernel .write head tail) (hu : 0 < u) :
    (object'.minPages (u * j)).writer = kernel := by
  obtain ⟨user, looks, hwriter, -⟩ := given.looks
  have huser := looks.user 0 hu
  rw [Nat.add_zero] at huser
  unfold MinPage.writer
  rw [huser]
  exact hwriter rfl

/-- The unit of an empty queue was given away. -/
theorem Mid.alone {r kernel : Nat} {use : Use} (mid : Mid u object lists acked locks j)
    (hqueue : lists.queue j = [r]) (hattached : Attached object kernel)
    (given : Given u object object' j kernel use none none) :
    Good u object' (lists.detach j r []) acked locks := by
  have common := (mid.detach hqueue mid.unlocked).of_grants given.grants
    (fun lock hlock hunit => absurd hunit (mid.unlocked lock hlock))
  obtain ⟨user, looks, hwriter, readers⟩ := given.looks
  refine ⟨common, fun j' => ?_⟩
  by_cases hne : j' = j
  · subst hne
    dsimp only [Lists.detach]
    rw [Function.update_self]
    refine ⟨use, user, looks, fun h => absurd rfl h, fun huse => ?_,
      readers.congr given.grants.kerninfo⟩
    rw [hwriter huse]
    exact (Attached.congr given.grants.kerninfo).mpr hattached
  · dsimp only [Lists.detach]
    rw [Function.update_of_ne hne]
    exact (mid.others j' hne).of_grants mid.pos hne given.grants

/-- The unit was given to a reader, and the next request follows at once. -/
theorem Mid.next {r kernel : Nat} {rest : List Nat} {use : Use}
    (mid : Mid u object lists acked locks j) (hqueue : lists.queue j = r :: rest)
    (given : Given u object object' j kernel use none rest.getLast?) (huse : use ≠ .write) :
    Mid u object' (lists.detach j r rest) acked locks j := by
  have common := (mid.detach hqueue mid.unlocked).of_grants given.grants
    (fun lock hlock hunit => absurd hunit (mid.unlocked lock hlock))
  obtain ⟨user, looks, -, readers⟩ := given.looks
  refine ⟨common, fun j' hne => ?_, ?_, mid.unlocked⟩
  · dsimp only [Lists.detach]
    rw [Function.update_of_ne hne]
    exact (mid.others j' hne).of_grants mid.pos hne given.grants
  · dsimp only [Lists.detach]
    rw [Function.update_self]
    exact ⟨use, user, looks, huse, readers.congr given.grants.kerninfo⟩

/-- The unit was given to a writer, which is evicted for the next request. -/
theorem Mid.evicted {r x kernel : Nat} {rest : List Nat} {object'' : Object}
    (mid : Mid u object lists acked locks j) (hqueue : lists.queue j = r :: x :: rest)
    (hattached : Attached object kernel)
    (given : Given u object object' j kernel .write none (x :: rest).getLast?)
    (evicts : Evicts u j x kernel object' object'') :
    Good u object'' (lists.detach j r (x :: rest)) acked
      (⟨object'.sent.length, kernel, j, object'.mark⟩ :: locks) := by
  have common := (mid.detach hqueue mid.unlocked).of_grants given.grants
    (fun lock hlock hunit => absurd hunit (mid.unlocked lock hlock))
  obtain ⟨user, looks, hwriter, readers⟩ := given.looks
  have hqueue' : (lists.detach j r (x :: rest)).queue j = x :: rest := Function.update_self _ _ _
  have hattached' := (Attached.congr given.grants.kerninfo).mpr hattached
  refine ⟨common.evict evicts hqueue' mid.unlocked (given.writer mid.pos) hattached',
    fun j' => ?_⟩
  by_cases hne : j' = j
  · subst hne
    rw [hqueue']
    refine ⟨.write, user, evicts.looks looks, fun _ => rfl, fun _ => ?_, nofun⟩
    rw [hwriter rfl]
    exact (Attached.congr evicts.kerninfo).mpr hattached'
  · have hother : (lists.detach j r (x :: rest)).queue j' = lists.queue j' :=
      Function.update_of_ne hne _ _
    rw [hother]
    exact evicts.settled mid.pos hne ((mid.others j' hne).of_grants mid.pos hne given.grants)

/-- What a call leaves of the marks: new locks are counted under the current mark. -/
structure After (object object' : Object) (locks locks' : List Lock) : Prop where
  kerninfo : object'.kerninfo = object.kerninfo
  objectSize : object'.objectSize = object.objectSize
  mark : object'.mark = object.mark
  sent : object.sent.length ≤ object'.sent.length
  locks : ∀ lock ∈ locks', lock ∈ locks ∨
    lock.mark = object.mark ∧ object.sent.length ≤ lock.serial

theorem After.trans {object'' : Object} {locks' locks'' : List Lock}
    (first : After object object' locks locks') (second : After object' object'' locks' locks'') :
    After object object'' locks locks'' where
  kerninfo := second.kerninfo.trans first.kerninfo
  objectSize := second.objectSize.trans first.objectSize
  mark := second.mark.trans first.mark
  sent := le_trans first.sent second.sent
  locks := by
    intro lock hlock
    rcases second.locks lock hlock with hold | ⟨hmark, hserial⟩
    · exact first.locks lock hold
    · exact Or.inr ⟨hmark.trans first.mark, le_trans first.sent hserial⟩

theorem Grants.after (grants : Grants u j object object') (locks : List Lock) :
    After object object' locks locks where
  kerninfo := grants.kerninfo
  objectSize := grants.objectSize
  mark := grants.mark
  sent := by
    obtain ⟨new, hnew, -⟩ := grants.sent
    rw [hnew, List.length_append]
    omega
  locks := fun _ hlock => Or.inl hlock

theorem After.same (object object' : Object) (hkerninfo : object'.kerninfo = object.kerninfo)
    (hsize : object'.objectSize = object.objectSize) (hmark : object'.mark = object.mark)
    (hsent : object'.sent = object.sent) (locks : List Lock) :
    After object object' locks locks where
  kerninfo := hkerninfo
  objectSize := hsize
  mark := hmark
  sent := by rw [hsent]
  locks := fun _ hlock => Or.inl hlock

theorem After.reqFree (object : Object) (r : Nat) (locks : List Lock) :
    After object (object.reqFree r) locks locks :=
  After.same object (object.reqFree r) rfl rfl rfl rfl locks

theorem Evicts.after {r w : Nat} (evicts : Evicts u j r w object object') (locks : List Lock) :
    After object object' locks (⟨object.sent.length, w, j, object.mark⟩ :: locks) where
  kerninfo := evicts.kerninfo
  objectSize := evicts.objectSize
  mark := evicts.objectMark
  sent := by
    rw [evicts.sent, List.length_cons]
    omega
  locks := by
    intro lock hlock
    rcases List.mem_cons.mp hlock with rfl | hold
    · exact Or.inr ⟨rfl, le_refl _⟩
    · exact Or.inl hold

/-- `satisfy_request` for the first request of the queue of a unit. -/
theorem satisfyRequest_eq (junk : Nat → Junk) (fuel : Nat) {r kernel : Nat} (hu : 0 < u)
    (hkernel : (object.requests r).kernel = some kernel)
    (hfirst : (object.requests r).firstPage = u * j)
    (hlast : (object.requests r).lastPage = u * j + u - 1)
    (hfollow : ∀ x, ((gaveAway u object j r kernel).requests r).follow = some x →
      ((gaveAway u object j r kernel).requests x).firstPage = u * j ∧
      ((gaveAway u object j r kernel).requests x).lastPage = u * j + u - 1) :
    Object.satisfyRequest junk (fuel + 1) r object =
      match ((gaveAway u object j r kernel).requests r).follow with
      | none => some (gaveAway u object j r kernel)
      | some x =>
          if (object.satisfyKernel kernel (u * j) (u * j + u - 1)).2 = .write then
            let writer := ((gaveAway u object j r kernel).minPages (u * j)).writer
            Object.setHeads writer (gaveAway u object j r kernel).allocated (some x)
              ((gaveAway u object j r kernel).send writer .lockWriter (pageToOffset (u * j))
                ((gaveAway u object j r kernel).kerninfo writer).pageSize)
          else Object.satisfySiblings (Object.satisfyRequest junk fuel)
            (gaveAway u object j r kernel).allocated (some x) (gaveAway u object j r kernel) := by
  have hclear : forPages (u * j) (u * j + u - 1)
      (fun page object => object.setPage page (fun minPage =>
        { minPage with tail := if minPage.tail = some r then none else minPage.tail }))
      (object.satisfyKernel kernel (u * j) (u * j + u - 1)).1 = gaveAway u object j r kernel :=
    forPages_setPage hu _ j _
  conv_lhs => unfold Object.satisfyRequest
  dsimp only
  rw [hkernel, hfirst, hlast]
  dsimp only
  rw [hclear]
  cases hnext : ((gaveAway u object j r kernel).requests r).follow with
  | none => rfl
  | some x =>
      obtain ⟨hxfirst, hxlast⟩ := hfollow x hnext
      dsimp only
      rw [if_neg (by rw [hxfirst, hxlast]; omega)]
      rfl

/-- The loop of `satisfy_request` for a request without siblings. -/
theorem satisfySiblings_eq {satisfy : Nat → Object → Option Object} {count x : Nat}
    (hsatisfy : satisfy x object = some object')
    (hsibling : (object'.requests x).sibling = none) :
    Object.satisfySiblings satisfy (count + 1) (some x) object = some (object'.reqFree x) := by
  have hstop : ∀ o : Object, Object.satisfySiblings satisfy count none o = some o := by
    intro o
    cases count with
    | zero => rfl
    | succ count => rfl
  rw [Object.satisfySiblings, hsatisfy]
  dsimp only [Option.bind_some]
  rw [hsibling, hstop]

/-! ### Answers -/

/-- The unit of a lock that is answered: its writer is gone, its head is taken out, and the
mark of the head is taken off. -/
def vacate (u : Nat) (object : Object) (j r kernel : Nat) : Object :=
  ((setUnit u object j (fun page => { page with use := .none })).setPage (u * j)
    (fun page => { page with head := none })).reqUnmark r kernel

theorem vacate_user (object : Object) (r kernel page : Nat) :
    ((vacate u object j r kernel).minPages page).user = (object.minPages page).user := by
  dsimp only [vacate, Object.reqUnmark, Object.addOutstanding, Object.setPage, setUnit]
  by_cases hpage : page = u * j
  · subst hpage
    rw [Function.update_self]
    dsimp only
    split <;> rfl
  · rw [Function.update_of_ne hpage]
    split <;> rfl

theorem Common.answer {r : Nat} {rest : List Nat} {lock : Lock}
    (common : Common u object lists acked locks) (hlock : lock ∈ locks)
    (hqueue : lists.queue lock.unit = r :: rest) :
    Common u (vacate u object lock.unit r lock.kernel) lists (lock.serial :: acked)
      (locks.erase lock) := by
  have books := common.books
  have hnodup : locks.Nodup := List.Nodup.of_map _ books.serials
  have hold : ∀ other ∈ locks.erase lock, other ∈ locks := fun _ h => List.mem_of_mem_erase h
  obtain ⟨r', rest', hqueue', hmark, -⟩ := books.front lock hlock
  obtain rfl : r' = r := (List.cons.inj (hqueue'.symm.trans hqueue)).1
  refine ⟨common.pos, common.sized, common.ports, fun j => ?_, common.inside, ?_, ?_⟩
  · exact (common.waits j).congr rfl (fun _ _ => ⟨rfl, rfl, rfl, rfl⟩)
  · have pool := common.pool
    exact ⟨pool.apart, pool.free_linked, pool.free_nodup, pool.free_apart, pool.loose_nodup,
      pool.loose_free, pool.loose_apart, pool.bound_queue, pool.bound_free, pool.bound_loose,
      pool.siblings, pool.covers⟩
  · refine ⟨fun other hother => ?_, fun other hother => books.attached other (hold other hother),
      books.units.sublist (List.erase_sublist.map _),
      books.serials.sublist (List.erase_sublist.map _), fun kernel mark => ?_, fun serial => ?_,
      fun other hother => books.message other (hold other hother), fun serial hserial => ?_⟩
    · obtain ⟨x, more, hx, hxmark, hwriter⟩ := books.front other (hold other hother)
      refine ⟨x, more, hx, hxmark, ?_⟩
      unfold MinPage.writer
      rw [vacate_user]
      exact hwriter
    · show (Object.addOutstanding _ lock.kernel (object.requests r').mark (-1)).outstanding
        kernel mark = _
      rw [addOutstanding_apply, hmark]
      have hperm := (List.perm_cons_erase hlock).countP_eq
        (fun lock => decide (lock.kernel = kernel ∧ lock.mark = mark))
      have hcount := books.count kernel mark
      rw [hperm, List.countP_cons] at hcount
      by_cases hthis : lock.kernel = kernel ∧ lock.mark = mark
      · rw [if_pos (by simpa using hthis)] at hcount
        rw [if_pos hthis]
        show object.outstanding kernel mark + -1 = _
        rw [hcount]
        push_cast
        omega
      · rw [if_neg (by simpa using hthis)] at hcount
        rw [if_neg hthis]
        show object.outstanding kernel mark + 0 = _
        rw [hcount]
        push_cast
        omega
    · have hcons : serial ∉ lock.serial :: acked ↔ serial ≠ lock.serial ∧ serial ∉ acked := by
        rw [List.mem_cons, not_or]
      show _ ↔ ∃ message, messageAt object.sent serial = some message ∧ _
      constructor
      · intro hin
        obtain ⟨other, hother, rfl⟩ := List.mem_map.mp hin
        obtain ⟨hne, hmem⟩ := hnodup.mem_erase_iff.mp hother
        obtain ⟨message, hmessage, hkind, hacked⟩ :=
          (books.logged other.serial).mp (List.mem_map_of_mem hmem)
        refine ⟨message, hmessage, hkind, hcons.mpr ⟨fun heq => hne ?_, hacked⟩⟩
        exact List.inj_on_of_nodup_map books.serials hmem hlock heq
      · rintro ⟨message, hmessage, hkind, hacked⟩
        obtain ⟨hne, hacked⟩ := hcons.mp hacked
        obtain ⟨other, hother, rfl⟩ :=
          List.mem_map.mp ((books.logged serial).mpr ⟨message, hmessage, hkind, hacked⟩)
        refine List.mem_map_of_mem (hnodup.mem_erase_iff.mpr ⟨?_, hother⟩)
        rintro rfl
        exact hne rfl
    · rcases List.mem_cons.mp hserial with rfl | hserial
      · exact messageAt_lt (books.message lock hlock)
      · exact books.answered serial hserial

/-- The unit of a lock that is answered is open. -/
theorem Good.answer {r : Nat} {rest : List Nat} {lock : Lock}
    (good : Good u object lists acked locks) (hlock : lock ∈ locks)
    (hqueue : lists.queue lock.unit = r :: rest) :
    Mid u (vacate u object lock.unit r lock.kernel) lists (lock.serial :: acked)
      (locks.erase lock) lock.unit := by
  have hu := good.pos
  have hnodup : locks.Nodup := List.Nodup.of_map _ good.books.serials
  refine ⟨good.toCommon.answer hlock hqueue, fun j hne => ?_, ?_, fun other hother hunit => ?_⟩
  · obtain ⟨use, user, looks, hbusy, hwriter, readers⟩ := good.units j
    refine ⟨use, user, looks.of_view hu (fun i hi => ?_), hbusy, hwriter, readers⟩
    have hpage : u * j + i ≠ u * lock.unit := by
      intro heq
      have hdiv := unit_div (j := j) hi
      rw [heq, Nat.mul_div_cancel_left _ hu] at hdiv
      exact hne hdiv.symm
    dsimp only [vacate, Object.reqUnmark, Object.addOutstanding, Object.setPage, setUnit]
    rw [Function.update_of_ne hpage, if_neg (by rw [unit_div hi]; exact hne)]
  · obtain ⟨use, user, looks, -, -, -⟩ := good.units lock.unit
    have opened : Looks u (setUnit u object lock.unit (fun page => { page with use := .none }))
        lock.unit .none user (lists.queue lock.unit).head? (lists.queue lock.unit).getLast? :=
      looks.setUnit hu (fun _ _ => rfl) (fun _ _ h => h) (fun _ => ⟨rfl, rfl, rfl⟩)
    have looks' : Looks u (vacate u object lock.unit r lock.kernel) lock.unit .none user none
        (lists.queue lock.unit).getLast? :=
      (opened.setHead none).of_view hu (fun _ _ => rfl)
    exact ⟨.none, user, looks', by decide, nofun⟩
  · obtain ⟨hne, hmem⟩ := hnodup.mem_erase_iff.mp hother
    exact hne (List.inj_on_of_nodup_map good.books.units hmem hlock hunit)

theorem offsetToPage_pageToOffset (page : Nat) : offsetToPage (pageToOffset page) = page :=
  Nat.mul_div_cancel page (by decide)

theorem offsetToPage_end (j : Nat) :
    offsetToPage (pageToOffset (u * j) + u * minPageSize) - 1 = u * j + u - 1 := by
  have hsum : pageToOffset (u * j) + u * minPageSize = pageToOffset (u * j + u) := by
    rw [pageToOffset, pageToOffset, Nat.add_mul]
  rw [hsum, offsetToPage_pageToOffset]

/-- `Subtract_kernel` for the unit of a lock. -/
theorem subtractKernel_eq (junk : Nat → Junk) {user : BitVec 32} {r kernel : Nat}
    {tail : Option Nat} (hu : 0 < u) (looks : Looks u object j .write user (some r) tail)
    (hwriter : writerOf user = kernel) (hfirst : (object.requests r).firstPage = u * j)
    (hlast : (object.requests r).lastPage = u * j + u - 1) :
    object.subtractKernel junk kernel (pageToOffset (u * j)) false (u * minPageSize) =
      (Object.satisfyRequest junk (object.allocated + 1) r (vacate u object j r kernel)).bind
        fun object => some (object.reqFree r) := by
  have hlength : ¬ u * minPageSize < minPageSize := by
    have := Nat.le_mul_of_pos_left minPageSize hu
    omega
  have huse := looks.use 0 hu
  have huser := looks.user 0 hu
  have hcompletes := looks.completes 0 hu
  rw [Nat.add_zero] at huse huser hcompletes
  have hpage : (object.minPages (u * j)).writer = kernel := by
    unfold MinPage.writer
    rw [huser]
    exact hwriter
  unfold Object.subtractKernel
  dsimp only
  rw [if_neg hlength, if_neg hlength, offsetToPage_pageToOffset, offsetToPage_end, huse, hpage,
    hcompletes, forPages_setPage hu]
  have hhead : ((setUnit u object j (fun page => { page with use := .none })).minPages
      (u * j)).head = some r := by
    dsimp only [setUnit]
    rw [if_pos (Nat.mul_div_cancel_left j hu)]
    exact looks.head
  have hempty : setMember 0 kernel = false := by simp [setMember]
  rw [if_neg (by rw [hempty]; simp), if_neg (by simp), if_neg (by simp), hhead]
  dsimp only
  rw [show (setUnit u object j (fun page => { page with use := .none })).requests =
    object.requests from rfl, hfirst, hlast, if_neg (by omega)]
  obtain ⟨fuel, hfuel⟩ : ∃ fuel, u = fuel + 1 := ⟨u - 1, by omega⟩
  have hturns : u * j + u - 1 + 1 - u * j = fuel + 1 := by omega
  rw [hturns]
  conv_lhs => unfold Object.satisfyHeads
  rw [if_pos (by omega), hhead]
  show (Object.satisfyRequest junk (object.allocated + 1) r (vacate u object j r kernel)).bind
      (fun object' => Object.satisfyHeads junk kernel (u * j + u - 1) fuel
        ((object.requests r).lastPage + 1) (object'.reqFree r)) = _
  congr 1
  funext object'
  rw [hlast]
  -- the loop goes on behind the last page of the request
  cases fuel with
  | zero => exact if_neg (by omega)
  | succ fuel => exact if_neg (by omega)

/-- Every kernel is found by its port. -/
theorem Common.portToKernel {kernel : Nat} (common : Common u object lists acked locks)
    (hattached : Attached object kernel) :
    object.portToKernel (object.kerninfo kernel).requestPort = some kernel := by
  unfold Object.portToKernel
  cases hfound : (List.range maxNumKernels).find? (fun k =>
      decide ((object.kerninfo k).requestPort = (object.kerninfo kernel).requestPort)) with
  | none =>
      have hnone := List.find?_eq_none.mp hfound kernel (List.mem_range.mpr hattached.1)
      simp at hnone
  | some k =>
      have hport : (object.kerninfo k).requestPort = (object.kerninfo kernel).requestPort := by
        simpa using List.find?_some hfound
      have hk := List.mem_range.mp (List.mem_of_find?_eq_some hfound)
      rw [common.ports k kernel ⟨hk, by rw [hport]; exact hattached.2⟩ hattached hport]

/-- Offsets of pages pass the alignment tests. -/
theorem misaligned_pageToOffset (page pageSize : Nat) :
    Object.misaligned (pageToOffset page) pageSize = false := by
  have heven : pageToOffset page % 2 = 0 := by
    unfold pageToOffset minPageSize
    omega
  unfold Object.misaligned
  split
  · rw [Nat.and_one_is_mod, heven]
    rfl
  · rw [Nat.and_zero]
    rfl

theorem Pool.length_queue (pool : Pool object lists) (waits : Waits u object j (lists.queue j)) :
    (lists.queue j).length ≤ object.allocated := by
  have hsub : lists.queue j ⊆ List.range object.allocated :=
    fun r hr => List.mem_range.mpr (pool.bound_queue j r hr)
  simpa using (List.subperm_of_subset waits.nodup hsub).length_le

/-- The lock of a message that was not answered. -/
theorem Good.lock_of_message (good : Good u object lists acked locks) {serial : Nat}
    {message : Message} (hmessage : messageAt object.sent serial = some message)
    (hkind : message.kind = .lockWriter) (hacked : serial ∉ acked) :
    ∃ lock ∈ locks, lock.serial = serial ∧
      message = ⟨(object.kerninfo lock.kernel).requestPort, .lockWriter,
        pageToOffset (u * lock.unit), u * minPageSize⟩ := by
  obtain ⟨lock, hlock, hserial⟩ := List.mem_map.mp
    ((good.books.logged serial).mpr ⟨message, hmessage, hkind, hacked⟩)
  refine ⟨lock, hlock, hserial, ?_⟩
  have hlogged := good.books.message lock hlock
  rw [hserial, hmessage] at hlogged
  exact Option.some.inj hlogged

end Steps

end MachFormal.NetMemory.OneSize
