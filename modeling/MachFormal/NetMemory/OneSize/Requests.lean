import MachFormal.NetMemory.OneSize.Queues

/-!
# The scheduler for kernels of one page size: requests

A request for a unit is served at once, waits behind the others, or evicts the
writer of the unit.  Together with the answers and the arrival of new kernels
these are all the calls that keep the queues and the books.
-/

namespace MachFormal.NetMemory.OneSize

open MachFormal.Library

variable {u : Nat}

section Steps

variable {object object' : Object} {lists : Lists} {acked : List Nat} {locks : List Lock}
  {j : Nat} {queue : List Nat}

/-! ## Waiting -/

/-- Request `r` becomes the last one of a queue. -/
structure Enqueues (u j r : Nat) (queue : List Nat) (object object' : Object) : Prop where
  self : (object'.requests r).follow = none
  last : ∀ y, queue.getLast? = some y → (object'.requests y).follow = some r
  follow : ∀ x, x ≠ r → queue.getLast? ≠ some x →
    (object'.requests x).follow = (object.requests x).follow
  requests : ∀ x, (object'.requests x).firstPage = (object.requests x).firstPage ∧
    (object'.requests x).lastPage = (object.requests x).lastPage ∧
    (object'.requests x).kernel = (object.requests x).kernel ∧
    (object'.requests x).mark = (object.requests x).mark
  siblings : ∀ x, (object'.requests x).sibling = none
  pages : ∀ page, object'.minPages page =
    if page / u = j then { object.minPages page with tail := some r } else object.minPages page
  kerninfo : object'.kerninfo = object.kerninfo
  objectSize : object'.objectSize = object.objectSize
  mark : object'.mark = object.mark
  outstanding : object'.outstanding = object.outstanding
  sent : object'.sent = object.sent
  allocated : object'.allocated = object.allocated
  freeRequests : object'.freeRequests = object.freeRequests

theorem Enqueues.after {r : Nat} (enqueues : Enqueues u j r queue object object')
    (locks : List Lock) : After object object' locks locks :=
  After.same object object' enqueues.kerninfo enqueues.objectSize enqueues.mark enqueues.sent locks

def Lists.enqueue (lists : Lists) (j r : Nat) (loose : List Nat) : Lists :=
  { lists with
    queue := Function.update lists.queue j (lists.queue j ++ [r])
    loose := loose }

theorem mem_enqueue {lists : Lists} {j r j' x : Nat} {loose : List Nat} :
    x ∈ (lists.enqueue j r loose).queue j' ↔ x ∈ lists.queue j' ∨ x = r ∧ j' = j := by
  dsimp only [Lists.enqueue]
  by_cases heq : j' = j
  · subst heq
    simp
  · rw [Function.update_of_ne heq]
    simp [heq]

theorem queue_enqueue {lists : Lists} {j r : Nat} {loose : List Nat} :
    (lists.enqueue j r loose).queue j = lists.queue j ++ [r] :=
  Function.update_self _ _ _

theorem queue_enqueue_of_ne {lists : Lists} {j r j' : Nat} {loose : List Nat} (hne : j' ≠ j) :
    (lists.enqueue j r loose).queue j' = lists.queue j' :=
  Function.update_of_ne hne _ _

/-- The queue of the unit with the new request. -/
theorem Enqueues.linked {r : Nat} (enqueues : Enqueues u j r queue object object')
    (waits : Waits u object j queue) (hr : r ∉ queue) :
    Linked (fun x => (object'.requests x).follow) (queue ++ [r]).head? (queue ++ [r]) := by
  rcases List.eq_nil_or_concat queue with rfl | ⟨xs, y, rfl⟩
  · exact ⟨rfl, enqueues.self⟩
  · rw [List.concat_eq_append] at *
    have hlast : (xs ++ [y]).getLast? = some y := by simp
    have hnext : ∀ x ∈ xs ++ [y] ++ [r], (object'.requests x).follow =
        Function.update (fun x => if x = r then none else (object.requests x).follow) y (some r)
          x := by
      intro x hx
      by_cases hy : x = y
      · subst hy
        rw [Function.update_self]
        exact enqueues.last x hlast
      · rw [Function.update_of_ne hy]
        by_cases hxr : x = r
        · subst hxr
          rw [if_pos rfl]
          exact enqueues.self
        · rw [if_neg hxr]
          refine enqueues.follow x hxr ?_
          rw [hlast]
          exact fun h => hy (Option.some.inj h).symm
    refine Linked.congr ?_ hnext
    have hhead : (xs ++ [y] ++ [r]).head? = (xs ++ [y]).head? := by
      cases xs with
      | nil => rfl
      | cons _ _ => rfl
    rw [hhead]
    refine Linked.snoc ?_ waits.nodup hr (if_pos rfl)
    refine waits.linked.congr (fun x hx => if_neg ?_)
    rintro rfl
    exact hr hx

/-- A request of another list keeps its successor. -/
theorem Enqueues.kept {r x : Nat} (enqueues : Enqueues u j r queue object object') (hne : x ≠ r)
    (hx : x ∉ queue) : (object'.requests x).follow = (object.requests x).follow :=
  enqueues.follow x hne (fun hlast => hx (List.mem_of_getLast? hlast))

theorem Enqueues.waits {r kernel : Nat} (enqueues : Enqueues u j r queue object object')
    (waits : Waits u object j queue) (hr : r ∉ queue)
    (hkernel : (object.requests r).kernel = some kernel) (hattached : Attached object kernel)
    (hfirst : (object.requests r).firstPage = u * j)
    (hlast : (object.requests r).lastPage = u * j + u - 1) :
    Waits u object' j (queue ++ [r]) := by
  have hfields : ∀ x ∈ queue ++ [r],
      (object'.requests x).firstPage = u * j ∧ (object'.requests x).lastPage = u * j + u - 1 ∧
      ∃ kernel, (object'.requests x).kernel = some kernel ∧ Attached object' kernel := by
    intro x hx
    obtain ⟨h1, h2, h3, -⟩ := enqueues.requests x
    rw [h1, h2, h3]
    rcases List.mem_append.mp hx with hx | hx
    · obtain ⟨k, hk, hka⟩ := waits.kernel x hx
      exact ⟨waits.first x hx, waits.last x hx, k, hk, (Attached.congr enqueues.kerninfo).mpr hka⟩
    · rw [List.mem_singleton.mp hx]
      exact ⟨hfirst, hlast, kernel, hkernel, (Attached.congr enqueues.kerninfo).mpr hattached⟩
  refine ⟨enqueues.linked waits hr, ?_, fun x hx => (hfields x hx).1,
    fun x hx => (hfields x hx).2.1, fun x hx => (hfields x hx).2.2⟩
  exact List.nodup_append'.mpr ⟨waits.nodup, List.nodup_singleton r,
    List.disjoint_singleton.mpr hr⟩

theorem Pool.enqueue {r : Nat} {loose : List Nat} (pool : Pool object lists)
    (hloose : lists.loose = r :: loose)
    (enqueues : Enqueues u j r (lists.queue j) object object') :
    Pool object' (lists.enqueue j r loose) := by
  have hr : r ∈ lists.loose := by rw [hloose]; exact List.mem_cons_self
  have hin : ∀ x ∈ loose, x ∈ lists.loose :=
    fun x hx => by rw [hloose]; exact List.mem_cons_of_mem r hx
  have hnodup := pool.loose_nodup
  rw [hloose] at hnodup
  have hapart := pool.loose_apart r hr
  refine ⟨fun j₁ j₂ x h₁ h₂ => ?_, ?_, pool.free_nodup, fun x hx j' hin' => ?_,
    (List.nodup_cons.mp hnodup).2, fun x hx => pool.loose_free x (hin x hx),
    fun x hx j' hin' => ?_, fun j' x hx => ?_, ?_, ?_, enqueues.siblings, fun x hx => ?_⟩
  · rcases mem_enqueue.mp h₁ with hold₁ | ⟨hr₁, hj₁⟩
    · rcases mem_enqueue.mp h₂ with hold₂ | ⟨hr₂, -⟩
      · exact pool.apart j₁ j₂ x hold₁ hold₂
      · exact absurd (hr₂ ▸ hold₁) (hapart j₁)
    · rcases mem_enqueue.mp h₂ with hold₂ | ⟨-, hj₂⟩
      · exact absurd (hr₁ ▸ hold₂) (hapart j₂)
      · exact hj₁.trans hj₂.symm
  · rw [enqueues.freeRequests]
    refine pool.free_linked.congr (fun x hx => enqueues.kept ?_ (pool.free_apart x hx j))
    rintro rfl
    exact pool.loose_free x hr hx
  · rcases mem_enqueue.mp hin' with hin' | ⟨rfl, -⟩
    · exact pool.free_apart x hx j' hin'
    · exact pool.loose_free x hr hx
  · rcases mem_enqueue.mp hin' with hin' | ⟨rfl, -⟩
    · exact pool.loose_apart x (hin x hx) j' hin'
    · exact (List.nodup_cons.mp hnodup).1 hx
  · rw [enqueues.allocated]
    rcases mem_enqueue.mp hx with hx | ⟨rfl, -⟩
    · exact pool.bound_queue j' x hx
    · exact pool.bound_loose x hr
  · rw [enqueues.allocated]
    exact pool.bound_free
  · rw [enqueues.allocated]
    exact fun x hx => pool.bound_loose x (hin x hx)
  · rw [enqueues.allocated] at hx
    rcases pool.covers x hx with hfree | hin' | ⟨j', hin'⟩
    · exact Or.inl hfree
    · rw [hloose] at hin'
      rcases List.mem_cons.mp hin' with rfl | hin'
      · exact Or.inr (Or.inr ⟨j, mem_enqueue.mpr (Or.inr ⟨rfl, rfl⟩)⟩)
      · exact Or.inr (Or.inl hin')
    · exact Or.inr (Or.inr ⟨j', mem_enqueue.mpr (Or.inl hin')⟩)

/-- The locks stay in front of the queues. -/
theorem Books.enqueue {r : Nat} {loose : List Nat} (books : Books u object lists.queue acked locks)
    (enqueues : Enqueues u j r (lists.queue j) object object') :
    Books u object' (lists.enqueue j r loose).queue acked locks := by
  refine ⟨fun lock hlock => ?_,
    fun lock hlock => (Attached.congr enqueues.kerninfo).mpr (books.attached lock hlock),
    books.units, books.serials, ?_, ?_, ?_, ?_⟩
  · obtain ⟨x, rest, hfront, hmark, hwriter⟩ := books.front lock hlock
    have hwriter' : (object'.minPages (u * lock.unit)).writer = lock.kernel := by
      rw [enqueues.pages]
      split
      · exact hwriter
      · exact hwriter
    have hmark' : (object'.requests x).mark = lock.mark :=
      ((enqueues.requests x).2.2.2).trans hmark
    by_cases heq : lock.unit = j
    · refine ⟨x, rest ++ [r], ?_, hmark', hwriter'⟩
      rw [heq, queue_enqueue, ← heq, hfront]
      rfl
    · exact ⟨x, rest, (queue_enqueue_of_ne heq).trans hfront, hmark', hwriter'⟩
  · rw [enqueues.outstanding]
    exact books.count
  · rw [enqueues.sent]
    exact books.logged
  · rw [enqueues.sent, enqueues.kerninfo]
    exact books.message
  · rw [enqueues.sent]
    exact books.answered

theorem Common.enqueue {r kernel : Nat} {loose : List Nat}
    (common : Common u object lists acked locks) (hloose : lists.loose = r :: loose)
    (enqueues : Enqueues u j r (lists.queue j) object object')
    (hkernel : (object.requests r).kernel = some kernel) (hattached : Attached object kernel)
    (hfirst : (object.requests r).firstPage = u * j)
    (hlast : (object.requests r).lastPage = u * j + u - 1)
    (hinside : pageToOffset (u * j) < object.objectSize) :
    Common u object' (lists.enqueue j r loose) acked locks := by
  have hapart := common.pool.loose_apart r (hloose ▸ List.mem_cons_self)
  have hkernels : ∀ kernel, Attached object' kernel ↔ Attached object kernel :=
    fun _ => Attached.congr enqueues.kerninfo
  refine ⟨common.pos, fun k h => ?_, fun k k' h h' => ?_, fun j' => ?_, fun j' hne => ?_,
    common.pool.enqueue hloose enqueues, common.books.enqueue enqueues⟩
  · rw [enqueues.kerninfo]
    exact common.sized k ((hkernels k).mp h)
  · rw [enqueues.kerninfo]
    exact common.ports k k' ((hkernels k).mp h) ((hkernels k').mp h')
  · by_cases heq : j' = j
    · subst heq
      rw [queue_enqueue]
      exact enqueues.waits (common.waits j') (hapart j') hkernel hattached hfirst hlast
    · rw [queue_enqueue_of_ne heq]
      refine (common.waits j').congr enqueues.kerninfo (fun x hx => ?_)
      obtain ⟨h1, h2, h3, -⟩ := enqueues.requests x
      refine ⟨enqueues.kept ?_ (fun hx' => heq (common.pool.apart j' j x hx hx')), h1, h2, h3⟩
      rintro rfl
      exact hapart j' hx
  · rw [enqueues.objectSize]
    by_cases heq : j' = j
    · rw [heq]
      exact hinside
    · refine common.inside j' ?_
      rwa [queue_enqueue_of_ne heq] at hne

/-- The looks of the unit with the new request. -/
theorem Enqueues.looks {r : Nat} {use : Use} {user : BitVec 32} {head tail : Option Nat}
    (enqueues : Enqueues u j r queue object object')
    (looks : Looks u object j use user head tail) (hu : 0 < u) :
    Looks u object' j use user head (some r) := by
  have hpage : ∀ i < u, object'.minPages (u * j + i) =
      { object.minPages (u * j + i) with tail := some r } := by
    intro i hi
    rw [enqueues.pages, if_pos (unit_div hi)]
  refine ⟨fun i hi => ?_, fun i hi => ?_, fun i hi => ?_, ?_, fun i hpos hi => ?_, fun i hi => ?_⟩
  · rw [hpage i hi]
    exact looks.use i hi
  · rw [hpage i hi]
    exact looks.user i hi
  · rw [hpage i hi]
  · have h0 := hpage 0 hu
    rw [Nat.add_zero] at h0
    rw [h0]
    exact looks.head
  · rw [hpage i hi]
    exact looks.heads i hpos hi
  · rw [hpage i hi]
    exact looks.completes i hi

theorem Enqueues.settled {r j' : Nat} {queue' : List Nat}
    (enqueues : Enqueues u j r queue object object') (hu : 0 < u) (hne : j' ≠ j)
    (settled : Settled u object j' queue') : Settled u object' j' queue' := by
  obtain ⟨use, user, looks, hbusy, hwriter, readers⟩ := settled
  refine ⟨use, user, looks.of_view hu (fun i hi => ?_), hbusy,
    fun huse => (Attached.congr enqueues.kerninfo).mpr (hwriter huse),
    readers.congr enqueues.kerninfo⟩
  rw [enqueues.pages, if_neg (by rw [unit_div hi]; exact hne)]

/-- A request that waits behind others. -/
theorem Good.enqueue {r kernel : Nat} {loose : List Nat}
    (good : Good u object lists acked locks) (hloose : lists.loose = r :: loose)
    (enqueues : Enqueues u j r (lists.queue j) object object')
    (hkernel : (object.requests r).kernel = some kernel) (hattached : Attached object kernel)
    (hfirst : (object.requests r).firstPage = u * j)
    (hlast : (object.requests r).lastPage = u * j + u - 1)
    (hinside : pageToOffset (u * j) < object.objectSize) (hne : lists.queue j ≠ []) :
    Good u object' (lists.enqueue j r loose) acked locks := by
  refine ⟨good.toCommon.enqueue hloose enqueues hkernel hattached hfirst hlast hinside,
    fun j' => ?_⟩
  by_cases heq : j' = j
  · subst heq
    obtain ⟨use, user, looks, hbusy, hwriter, readers⟩ := good.units j'
    rw [queue_enqueue]
    have hhead : (lists.queue j' ++ [r]).head? = (lists.queue j').head? := by
      cases hq : lists.queue j' with
      | nil => exact absurd hq hne
      | cons _ _ => rfl
    refine ⟨use, user, ?_, fun _ => hbusy hne,
      fun huse => (Attached.congr enqueues.kerninfo).mpr (hwriter huse),
      readers.congr enqueues.kerninfo⟩
    rw [hhead, List.getLast?_concat]
    exact enqueues.looks looks good.pos
  · rw [queue_enqueue_of_ne heq]
    exact enqueues.settled good.pos heq (good.units j')

/-- A request that evicts the writer of its unit. -/
theorem Good.expect {r kernel w : Nat} {loose : List Nat} {object'' : Object} {user : BitVec 32}
    (good : Good u object lists acked locks) (hloose : lists.loose = r :: loose)
    (enqueues : Enqueues u j r (lists.queue j) object object')
    (hkernel : (object.requests r).kernel = some kernel) (hattached : Attached object kernel)
    (hfirst : (object.requests r).firstPage = u * j)
    (hlast : (object.requests r).lastPage = u * j + u - 1)
    (hinside : pageToOffset (u * j) < object.objectSize) (hempty : lists.queue j = [])
    (looks : Looks u object j .write user none none) (hwriter : writerOf user = w)
    (hw : Attached object w) (evicts : Evicts u j r w object' object'') :
    Good u object'' (lists.enqueue j r loose) acked
      (⟨object'.sent.length, w, j, object'.mark⟩ :: locks) := by
  have common := good.toCommon.enqueue hloose enqueues hkernel hattached hfirst hlast hinside
  have hqueue : (lists.enqueue j r loose).queue j = [r] := by
    rw [queue_enqueue, hempty]
    rfl
  have hunlocked : ∀ lock ∈ locks, lock.unit ≠ j := by
    rintro lock hlock rfl
    obtain ⟨x, rest, hfront, -⟩ := good.books.front lock hlock
    rw [hempty] at hfront
    cases hfront
  have looks' := enqueues.looks looks good.pos
  have huser := looks'.user 0 good.pos
  rw [Nat.add_zero] at huser
  have hpage : (object'.minPages (u * j)).writer = w := by
    unfold MinPage.writer
    rw [huser]
    exact hwriter
  have hw' := (Attached.congr enqueues.kerninfo).mpr hw
  refine ⟨common.evict evicts hqueue hunlocked hpage hw', fun j' => ?_⟩
  by_cases heq : j' = j
  · subst heq
    rw [hqueue]
    refine ⟨.write, user, evicts.looks looks', fun _ => rfl, fun _ => ?_, nofun⟩
    rw [hwriter]
    exact (Attached.congr evicts.kerninfo).mpr hw'
  · rw [queue_enqueue_of_ne heq]
    exact evicts.settled good.pos heq (enqueues.settled good.pos heq (good.units j'))

/-! ## Requests -/

/-- A step that changes no page in what counts for its looks. -/
theorem Good.quiet (good : Good u object lists acked locks) (grants : Grants u j object object')
    (hview : ∀ page, view (object'.minPages page) = view (object.minPages page)) :
    Good u object' lists acked locks := by
  have huser : ∀ page, (object'.minPages page).user = (object.minPages page).user :=
    fun page => (Prod.mk.inj (Prod.mk.inj (hview page)).2).1
  refine ⟨good.toCommon.of_grants grants (fun _ _ _ => ?_), fun j' => ?_⟩
  · unfold MinPage.writer
    rw [huser]
  · obtain ⟨use, user, looks, hbusy, hwriter, readers⟩ := good.units j'
    exact ⟨use, user, looks.of_view good.pos (fun i _ => hview _), hbusy,
      fun huse => (Attached.congr grants.kerninfo).mpr (hwriter huse),
      readers.congr grants.kerninfo⟩

/-- A unit without a queue is given to a kernel. -/
theorem Good.give {kernel : Nat} {use : Use} (good : Good u object lists acked locks)
    (hempty : lists.queue j = []) (hattached : Attached object kernel)
    (given : Given u object object' j kernel use none none) :
    Good u object' lists acked locks := by
  obtain ⟨user, looks, hwriter, readers⟩ := given.looks
  refine ⟨good.toCommon.of_grants given.grants (fun lock hlock hunit => ?_), fun j' => ?_⟩
  · obtain ⟨x, rest, hfront, -⟩ := good.books.front lock hlock
    rw [hunit, hempty] at hfront
    cases hfront
  · by_cases hne : j' = j
    · subst hne
      rw [hempty]
      refine ⟨use, user, looks, fun h => absurd rfl h, fun huse => ?_,
        readers.congr given.grants.kerninfo⟩
      rw [hwriter huse]
      exact (Attached.congr given.grants.kerninfo).mpr hattached
    · exact (good.units j').of_grants good.pos hne given.grants

/-- The record of a loose request may change. -/
theorem Good.setLoose {r : Nat} {change : Request → Request}
    (good : Good u object lists acked locks) (hr : r ∈ lists.loose)
    (hsibling : ∀ request, (change request).sibling = request.sibling) :
    Good u (object.setRequest r change) lists acked locks := by
  have pool := good.pool
  have books := good.books
  have hother : ∀ x, x ≠ r → (object.setRequest r change).requests x = object.requests x :=
    fun x hx => Function.update_of_ne hx _ _
  have hqueues : ∀ j, ∀ x ∈ lists.queue j,
      (object.setRequest r change).requests x = object.requests x := by
    intro j x hx
    refine hother x ?_
    rintro rfl
    exact pool.loose_apart x hr j hx
  refine ⟨⟨good.pos, good.sized, good.ports, fun j => ?_, good.inside, ?_, ?_⟩,
    fun j => (good.units j).congr rfl rfl⟩
  · refine (good.waits j).congr rfl (fun x hx => ?_)
    rw [hqueues j x hx]
    exact ⟨rfl, rfl, rfl, rfl⟩
  · refine ⟨pool.apart, ?_, pool.free_nodup, pool.free_apart, pool.loose_nodup, pool.loose_free,
      pool.loose_apart, pool.bound_queue, pool.bound_free, pool.bound_loose, fun x => ?_,
      pool.covers⟩
    · refine pool.free_linked.congr (fun x hx => ?_)
      rw [hother x (fun heq => pool.loose_free r hr (heq ▸ hx))]
    · by_cases heq : x = r
      · subst heq
        dsimp only [Object.setRequest]
        rw [Function.update_self, hsibling]
        exact pool.siblings x
      · rw [hother x heq]
        exact pool.siblings x
  · refine ⟨fun lock hlock => ?_, books.attached, books.units, books.serials, books.count,
      books.logged, books.message, books.answered⟩
    obtain ⟨x, rest, hfront, hmark, hwriter⟩ := books.front lock hlock
    refine ⟨x, rest, hfront, ?_, hwriter⟩
    rw [hqueues lock.unit x (by rw [hfront]; exact List.mem_cons_self)]
    exact hmark

/-- `req_alloc` takes a request that no list has. -/
theorem Good.reqAlloc (good : Good u object lists acked locks) :
    ∃ free, Good u object.reqAlloc.2
      { lists with free := free, loose := object.reqAlloc.1 :: lists.loose } acked locks := by
  have pool := good.pool
  have books := good.books
  cases hfree : object.freeRequests with
  | some r =>
      have hlinked := pool.free_linked
      rw [hfree] at hlinked
      obtain ⟨free, hlist⟩ : ∃ free, lists.free = r :: free := by
        cases hl : lists.free with
        | nil =>
            rw [hl] at hlinked
            cases hlinked
        | cons x free =>
            rw [hl] at hlinked
            rw [Option.some.inj hlinked.1]
            exact ⟨free, rfl⟩
      rw [hlist] at hlinked
      have hr : r ∈ lists.free := by rw [hlist]; exact List.mem_cons_self
      have hin : ∀ x ∈ free, x ∈ lists.free :=
        fun x hx => by rw [hlist]; exact List.mem_cons_of_mem r hx
      have hnodup := pool.free_nodup
      rw [hlist] at hnodup
      have halloc : object.reqAlloc =
          (r, { object with freeRequests := (object.requests r).follow }) := by
        unfold Object.reqAlloc
        rw [hfree]
      rw [halloc]
      refine ⟨free, ⟨good.pos, good.sized, good.ports, fun j => ?_, good.inside, ?_, ?_⟩,
        fun j => (good.units j).congr rfl rfl⟩
      · exact (good.waits j).congr rfl (fun _ _ => ⟨rfl, rfl, rfl, rfl⟩)
      · refine ⟨pool.apart, hlinked.2, (List.nodup_cons.mp hnodup).2,
          fun x hx => pool.free_apart x (hin x hx), ?_, ?_, ?_, pool.bound_queue,
          fun x hx => pool.bound_free x (hin x hx), ?_, pool.siblings, fun x hx => ?_⟩
        · exact List.nodup_cons.mpr ⟨fun h => pool.loose_free r h hr, pool.loose_nodup⟩
        · intro x hx hf
          rcases List.mem_cons.mp hx with rfl | hx
          · exact (List.nodup_cons.mp hnodup).1 hf
          · exact pool.loose_free x hx (hin x hf)
        · intro x hx
          rcases List.mem_cons.mp hx with rfl | hx
          · exact pool.free_apart x hr
          · exact pool.loose_apart x hx
        · intro x hx
          rcases List.mem_cons.mp hx with rfl | hx
          · exact pool.bound_free x hr
          · exact pool.bound_loose x hx
        · rcases pool.covers x hx with hf | hloose | hqueue
          · rw [hlist] at hf
            rcases List.mem_cons.mp hf with rfl | hf
            · exact Or.inr (Or.inl List.mem_cons_self)
            · exact Or.inl hf
          · exact Or.inr (Or.inl (List.mem_cons_of_mem r hloose))
          · exact Or.inr (Or.inr hqueue)
      · exact ⟨books.front, books.attached, books.units, books.serials, books.count,
          books.logged, books.message, books.answered⟩
  | none =>
      have halloc : object.reqAlloc =
          (object.allocated, { object with allocated := object.allocated + 1 }) := by
        unfold Object.reqAlloc
        rw [hfree]
      rw [halloc]
      refine ⟨lists.free, ⟨good.pos, good.sized, good.ports, fun j => ?_, good.inside, ?_, ?_⟩,
        fun j => (good.units j).congr rfl rfl⟩
      · exact (good.waits j).congr rfl (fun _ _ => ⟨rfl, rfl, rfl, rfl⟩)
      · refine ⟨pool.apart, pool.free_linked, pool.free_nodup, pool.free_apart, ?_, ?_, ?_, ?_, ?_,
          ?_, pool.siblings, fun x hx => ?_⟩
        · exact List.nodup_cons.mpr ⟨fun h => Nat.lt_irrefl _ (pool.bound_loose _ h),
            pool.loose_nodup⟩
        · intro x hx
          rcases List.mem_cons.mp hx with rfl | hx
          · exact fun h => Nat.lt_irrefl _ (pool.bound_free _ h)
          · exact pool.loose_free x hx
        · intro x hx j
          rcases List.mem_cons.mp hx with rfl | hx
          · exact fun h => Nat.lt_irrefl _ (pool.bound_queue j _ h)
          · exact pool.loose_apart x hx j
        · exact fun j x hx => Nat.lt_succ_of_lt (pool.bound_queue j x hx)
        · exact fun x hx => Nat.lt_succ_of_lt (pool.bound_free x hx)
        · intro x hx
          rcases List.mem_cons.mp hx with rfl | hx
          · exact Nat.lt_succ_self _
          · exact Nat.lt_succ_of_lt (pool.bound_loose x hx)
        · rcases Nat.lt_succ_iff_lt_or_eq.mp hx with hx | rfl
          · exact (pool.covers x hx).imp_right (Or.imp_left (List.mem_cons_of_mem _))
          · exact Or.inr (Or.inl List.mem_cons_self)
      · exact ⟨books.front, books.attached, books.units, books.serials, books.count,
          books.logged, books.message, books.answered⟩

/-- The record of a request before it waits. -/
def fresh (request : Request) : Request :=
  { request with count := 0, follow := none, sibling := none }

theorem fresh_requests (object : Object) (r x : Nat) :
    (object.setRequest r fresh).requests x =
      if x = r then fresh (object.requests x) else object.requests x := by
  dsimp only [Object.setRequest]
  by_cases hx : x = r
  · subst hx
    rw [Function.update_self, if_pos rfl]
  · rw [Function.update_of_ne hx, if_neg hx]

/-- The counter of a request is not on the books. -/
theorem Evicts.setCount {r w : Nat} (evicts : Evicts u j r w object object') (count : Int → Int) :
    Evicts u j r w object (object'.setRequest r (fun request =>
      { request with count := count request.count })) := by
  have hfields : ∀ x, ∃ n, (object'.setRequest r (fun request =>
      { request with count := count request.count })).requests x =
        { object'.requests x with count := n } := by
    intro x
    dsimp only [Object.setRequest]
    by_cases hx : x = r
    · subst hx
      rw [Function.update_self]
      exact ⟨_, rfl⟩
    · rw [Function.update_of_ne hx]
      exact ⟨_, rfl⟩
  refine ⟨evicts.head, evicts.page, evicts.heads, fun x => ?_, ?_, fun x hx => ?_,
    evicts.outstanding, evicts.sent, evicts.kerninfo, evicts.objectSize, evicts.objectMark,
    evicts.allocated, evicts.freeRequests⟩
  · obtain ⟨n, hn⟩ := hfields x
    rw [hn]
    exact evicts.requests x
  · obtain ⟨n, hn⟩ := hfields r
    rw [hn]
    exact evicts.mark
  · obtain ⟨n, hn⟩ := hfields x
    rw [hn]
    exact evicts.marks x hx

/-- The loop that evicts the writers goes one turn over a unit. -/
theorem bootWriters_eq {r w : Nat} (hu : 0 < u)
    (huse : (object.minPages (u * j)).use = .write)
    (hwriter : (object.minPages (u * j)).writer = w)
    (hsize : (object.kerninfo w).pageSize = u * minPageSize) :
    Object.bootWriters r (u * j + u - 1) u (u * j) object =
      some ((evict u object j r w).setRequest r
        (fun request => { request with count := request.count + 1 })) := by
  obtain ⟨fuel, rfl⟩ : ∃ fuel, u = fuel + 1 := ⟨u - 1, by omega⟩
  have hpages : (fuel + 1) * minPageSize / minPageSize = fuel + 1 :=
    Nat.mul_div_cancel _ (by decide)
  conv_lhs => unfold Object.bootWriters
  dsimp only
  rw [if_pos (by omega), if_pos huse, hwriter, hsize, hpages]
  -- the next page is behind the unit
  cases fuel with
  | zero => exact if_neg (by omega)
  | succ fuel => exact if_neg (by omega)

/-- The request waits for its unit, and nobody waits before it. -/
def expecting (u : Nat) (object : Object) (j r : Nat) : Object :=
  setUnit u (object.setRequest r fresh) j (fun page => { page with tail := some r })

/-- The writer of a unit without a queue is evicted. -/
theorem addExpecting_eq {r kernel w : Nat} {user : BitVec 32} (hu : 0 < u)
    (sized : Sized u object)
    (hkernel : (object.requests r).kernel = some kernel) (hattached : Attached object kernel)
    (hfirst : (object.requests r).firstPage = u * j)
    (hlast : (object.requests r).lastPage = u * j + u - 1)
    (looks : Looks u object j .write user none none) (hwriter : writerOf user = w)
    (hw : Attached object w) :
    object.addExpecting r =
      some ((evict u (expecting u object j r) j r w).setRequest r
        (fun request => { request with count := request.count + 1 })) := by
  have huser := looks.user 0 hu
  have huse := looks.use 0 hu
  rw [Nat.add_zero] at huser huse
  have hpage : (expecting u object j r).minPages (u * j) =
      { object.minPages (u * j) with tail := some r } := if_pos (Nat.mul_div_cancel_left j hu)
  have hpageUse : ((expecting u object j r).minPages (u * j)).use = .write := by
    rw [hpage]
    exact huse
  have hpageWriter : ((expecting u object j r).minPages (u * j)).writer = w := by
    rw [hpage]
    unfold MinPage.writer
    rw [huser]
    exact hwriter
  have hexpecting : forPages (u * j) (u * j + u - 1)
      (fun page object => object.setPage page (fun minPage => { minPage with tail := some r }))
      (object.setRequest r (fun request =>
        { request with count := 0, follow := none, sibling := none })) =
      expecting u object j r := forPages_setPage hu _ j _
  have hkerninfo : (expecting u object j r).kerninfo = object.kerninfo := rfl
  have hlength : u * j + u - 1 + 1 - u * j = u := by omega
  unfold Object.addExpecting
  dsimp only
  rw [hfirst, hlast, hkernel, hexpecting]
  dsimp only
  rw [hpageUse, hpageWriter, hkerninfo, sized w hw, sized kernel hattached,
    if_neg (fun h => Nat.lt_irrefl _ h.2), hlength]
  exact bootWriters_eq hu hpageUse hpageWriter (sized w hw)

theorem enqueues_expecting {r : Nat} (hsiblings : ∀ x, (object.requests x).sibling = none) :
    Enqueues u j r [] object (expecting u object j r) := by
  have hrequests : ∀ x, (expecting u object j r).requests x =
      if x = r then fresh (object.requests x) else object.requests x :=
    fun x => fresh_requests object r x
  refine ⟨?_, nofun, fun x hx _ => ?_, fun x => ?_, fun x => ?_, fun _ => rfl,
    rfl, rfl, rfl, rfl, rfl, rfl, rfl⟩
  · rw [hrequests, if_pos rfl]
    rfl
  · rw [hrequests, if_neg hx]
  · rw [hrequests]
    split
    · exact ⟨rfl, rfl, rfl, rfl⟩
    · exact ⟨rfl, rfl, rfl, rfl⟩
  · rw [hrequests]
    split
    · rfl
    · exact hsiblings x

/-- The records when request `r` follows `y`. -/
def chained (object : Object) (y r : Nat) : Object :=
  (object.setRequest y (fun request => { request with follow := some r })).setRequest r
    (fun request => { request with count := request.count + 1 })

theorem followTail_chain {y r page : Nat} (htail : (object.minPages page).tail = some y)
    (hend : (object.requests y).follow = none) :
    object.followTail r page =
      (chained object y r).setPage page (fun minPage => { minPage with tail := some r }) := by
  unfold Object.followTail
  rw [htail]
  dsimp only
  rw [if_pos hend]
  rfl

theorem followTail_again {y r page : Nat} (htail : (object.minPages page).tail = some y)
    (hend : (object.requests y).follow ≠ none) :
    object.followTail r page =
      object.setPage page (fun minPage => { minPage with tail := some r }) := by
  unfold Object.followTail
  rw [htail]
  dsimp only
  rw [if_neg hend]

/-- The pages behind the first one find that their tail is followed. -/
theorem fold_followTail (y : Nat) {r : Nat} (pages : List Nat) :
    ∀ object : Object, pages.Nodup → (∀ page ∈ pages, (object.minPages page).tail = some y) →
      (object.requests y).follow ≠ none →
      pages.foldl (fun object page => object.followTail r page) object =
        pages.foldl (fun object page => object.setPage page
          (fun minPage => { minPage with tail := some r })) object := by
  induction pages with
  | nil => exact fun _ _ _ _ => rfl
  | cons page pages ih =>
      intro object hnodup htails hend
      obtain ⟨hnotin, hnodup⟩ := List.nodup_cons.mp hnodup
      rw [List.foldl_cons, List.foldl_cons,
        followTail_again (htails page List.mem_cons_self) hend]
      refine ih _ hnodup (fun other hother => ?_) hend
      dsimp only [Object.setPage]
      have hne : other ≠ page := fun heq => hnotin (heq ▸ hother)
      rw [Function.update_of_ne hne]
      exact htails other (List.mem_cons_of_mem page hother)

theorem forPages_followTail {y r : Nat} {use : Use} {user : BitVec 32} {head : Option Nat}
    (hu : 0 < u) (looks : Looks u object j use user head (some y)) (hne : y ≠ r)
    (hend : (object.requests y).follow = none) :
    forPages (u * j) (u * j + u - 1) (fun page object => object.followTail r page) object =
      setUnit u (chained object y r) j (fun page => { page with tail := some r }) := by
  obtain ⟨n, hn⟩ : ∃ n, u = n + 1 := ⟨u - 1, by omega⟩
  have hlength : u * j + u - 1 + 1 - u * j = n + 1 := by omega
  have hfirst := looks.tail 0 hu
  rw [Nat.add_zero] at hfirst
  have hfollow : ((chained object y r).requests y).follow = some r := by
    dsimp only [chained, Object.setRequest]
    rw [Function.update_of_ne hne, Function.update_self]
  have hcut : List.range' (u * j) u = u * j :: List.range' (u * j + 1) n := by
    rw [hn]
    rfl
  rw [← fold_setPage hu, hcut, forPages, hlength]
  show (List.range' (u * j + 1) n).foldl _ (object.followTail r (u * j)) = _
  rw [followTail_chain hfirst hend, List.foldl_cons]
  refine fold_followTail y _ _ List.nodup_range' (fun page hpage => ?_) ?_
  · obtain ⟨hlow, hhigh⟩ := List.mem_range'_1.mp hpage
    obtain ⟨i, rfl⟩ : ∃ i, page = u * j + i := ⟨page - u * j, by omega⟩
    dsimp only [Object.setPage]
    rw [Function.update_of_ne (by omega)]
    exact looks.tail i (by omega)
  · show ((chained object y r).requests y).follow ≠ none
    rw [hfollow]
    exact Option.some_ne_none r

/-- The request waits for its unit behind request `y`. -/
def sleeping (u : Nat) (object : Object) (j y r : Nat) : Object :=
  setUnit u (chained (object.setRequest r fresh) y r) j (fun page => { page with tail := some r })

theorem sleeping_requests {y r : Nat} (hne : y ≠ r) (x : Nat) :
    (sleeping u object j y r).requests x =
      if x = r then { fresh (object.requests x) with count := 1 }
      else if x = y then { object.requests x with follow := some r }
      else object.requests x := by
  dsimp only [sleeping, setUnit, chained, Object.setRequest]
  by_cases hx : x = r
  · subst hx
    rw [if_pos rfl, Function.update_self, Function.update_of_ne (Ne.symm hne),
      Function.update_self]
    rfl
  · rw [if_neg hx, Function.update_of_ne hx]
    by_cases hy : x = y
    · subst hy
      rw [if_pos rfl, Function.update_self, Function.update_of_ne hx]
    · rw [if_neg hy, Function.update_of_ne hy, Function.update_of_ne hx]

theorem addSleeping_eq {r y : Nat} {use : Use} {user : BitVec 32} {head : Option Nat}
    (hu : 0 < u) (hfirst : (object.requests r).firstPage = u * j)
    (hlast : (object.requests r).lastPage = u * j + u - 1)
    (looks : Looks u object j use user head (some y)) (hne : y ≠ r)
    (hend : (object.requests y).follow = none) :
    object.addSleeping r = some (sleeping u object j y r) := by
  have looks' : Looks u (object.setRequest r fresh) j use user head (some y) :=
    looks.of_view hu (fun _ _ => rfl)
  have hend' : ((object.setRequest r fresh).requests y).follow = none := by
    rw [fresh_requests, if_neg hne]
    exact hend
  have hsleeping : forPages (u * j) (u * j + u - 1) (fun page object => object.followTail r page)
      (object.setRequest r (fun request =>
        { request with count := 0, follow := none, sibling := none })) =
      sleeping u object j y r := forPages_followTail hu looks' hne hend'
  have hcount : ((sleeping u object j y r).requests r).count = 1 := by
    rw [sleeping_requests hne, if_pos rfl]
  unfold Object.addSleeping
  dsimp only
  rw [hfirst, hlast, hsleeping, hcount]
  rfl

theorem enqueues_sleeping {r y : Nat} (hsiblings : ∀ x, (object.requests x).sibling = none)
    (hlast : queue.getLast? = some y) (hne : y ≠ r) :
    Enqueues u j r queue object (sleeping u object j y r) := by
  refine ⟨?_, fun y' hy' => ?_, fun x hx hx' => ?_, fun x => ?_, fun x => ?_, fun _ => rfl,
    rfl, rfl, rfl, rfl, rfl, rfl, rfl⟩
  · rw [sleeping_requests hne, if_pos rfl]
    rfl
  · obtain rfl : y = y' := Option.some.inj (hlast.symm.trans hy')
    rw [sleeping_requests hne, if_neg hne, if_pos rfl]
  · have hxy : x ≠ y := by
      rintro rfl
      exact hx' hlast
    rw [sleeping_requests hne, if_neg hx, if_neg hxy]
  · rw [sleeping_requests hne]
    split
    · exact ⟨rfl, rfl, rfl, rfl⟩
    · split
      · exact ⟨rfl, rfl, rfl, rfl⟩
      · exact ⟨rfl, rfl, rfl, rfl⟩
  · rw [sleeping_requests hne]
    split
    · rfl
    · split
      · exact hsiblings x
      · exact hsiblings x

/-- The last request of a queue has no follower. -/
theorem Waits.last_follow {y : Nat} (waits : Waits u object j queue)
    (hlast : queue.getLast? = some y) : (object.requests y).follow = none := by
  obtain ⟨xs, rfl⟩ := List.getLast?_eq_some_iff.mp hlast
  exact waits.linked.tail

/-! ## The loops over the pages of a unit -/

theorem somePage_unit {test : Nat → Bool} {value : Bool} (hu : 0 < u)
    (htest : ∀ i < u, test (u * j + i) = value) :
    somePage (u * j) (u * j + u - 1) test = value := by
  have hlength : u * j + u - 1 + 1 - u * j = u := by omega
  unfold somePage
  rw [hlength]
  cases value with
  | false =>
      refine List.any_eq_false.mpr (fun page hpage => ?_)
      obtain ⟨hlow, hhigh⟩ := List.mem_range'_1.mp hpage
      obtain ⟨i, rfl⟩ : ∃ i, page = u * j + i := ⟨page - u * j, by omega⟩
      rw [htest i (by omega)]
      exact Bool.false_ne_true
  | true =>
      refine List.any_eq_true.mpr ⟨u * j, ?_, htest 0 hu⟩
      exact List.mem_range'_1.mpr ⟨le_refl _, by omega⟩

section Tests

variable {use : Use} {user : BitVec 32} {head tail : Option Nat}

theorem writerEvicted_eq (hu : 0 < u) (looks : Looks u object j use user head tail) :
    object.writerEvicted (u * j) (u * j + u - 1) = decide (tail ≠ none) :=
  somePage_unit hu (fun i hi => by rw [looks.tail i hi])

theorem haveWriter_eq (hu : 0 < u) (looks : Looks u object j use user head tail) :
    object.haveWriter (u * j) (u * j + u - 1) = decide (use = .write) :=
  somePage_unit hu (fun i hi => by rw [looks.use i hi])

theorem haveExpecting_eq (hu : 0 < u) (looks : Looks u object j use user head tail) :
    object.haveExpecting (u * j) (u * j + u - 1) =
      (decide (use = .write) && decide (tail ≠ none)) :=
  somePage_unit hu (fun i hi => by rw [looks.use i hi, looks.tail i hi])

end Tests

/-- The new entries in the sets of waiters. -/
def addWaiter (kernel : Nat) (write data : Bool) (page : MinPage) : MinPage :=
  { page with
    writeWaiters := if write then setAdd page.writeWaiters kernel else page.writeWaiters
    dataWaiters := if data then setAdd page.dataWaiters kernel else page.dataWaiters }

/-- The object with the new request `r`. -/
def registered (object : Object) (r kernel first last : Nat) (write data : Bool) : Object :=
  (object.setRequest r (fun request =>
    { request with kernel := some kernel, firstPage := first, lastPage := last })).setPage first
    (addWaiter kernel write data)

theorem reqAlloc_frame (object : Object) :
    object.reqAlloc.2.minPages = object.minPages ∧
      object.reqAlloc.2.kerninfo = object.kerninfo ∧
      object.reqAlloc.2.objectSize = object.objectSize ∧ object.reqAlloc.2.mark = object.mark ∧
      object.reqAlloc.2.sent = object.sent := by
  unfold Object.reqAlloc
  cases object.freeRequests with
  | none => exact ⟨rfl, rfl, rfl, rfl, rfl⟩
  | some r => exact ⟨rfl, rfl, rfl, rfl, rfl⟩

/-! ## Messages -/

/-- The pages the kernels really have are rounded up to `u` minimal pages. -/
def Rounded (u : Nat) (object : Object) : Prop :=
  ∀ kernel, Attached object kernel →
    max (object.kerninfo kernel).realPageSize minPageSize = u * minPageSize

theorem Rounded.congr (rounded : Rounded u object)
    (hkerninfo : object'.kerninfo = object.kerninfo) : Rounded u object' := by
  intro kernel hattached
  rw [hkerninfo]
  exact rounded kernel ((Attached.congr hkerninfo).mp hattached)

/-- The offset and the length of an aligned request are those of a unit. -/
theorem request_unit {real offset : Nat} (hround : max real minPageSize = u * minPageSize)
    (haligned : offset % real = 0) :
    ∃ j, (if real < minPageSize then offset - offset % minPageSize else offset) =
        pageToOffset (u * j) ∧
      (if real < minPageSize then minPageSize else real) = u * minPageSize := by
  by_cases hsmall : real < minPageSize
  · rw [max_eq_right hsmall.le] at hround
    have hone : u = 1 := by
      unfold minPageSize at hround
      omega
    subst hone
    refine ⟨offset / minPageSize, ?_, ?_⟩
    · rw [if_pos hsmall, Nat.one_mul, pageToOffset]
      have hwhole := Nat.div_add_mod offset minPageSize
      rw [Nat.mul_comm] at hwhole
      omega
    · rw [if_pos hsmall, Nat.one_mul]
  · rw [max_eq_left (by omega)] at hround
    refine ⟨offset / real, ?_, ?_⟩
    · rw [if_neg hsmall, pageToOffset]
      have hwhole := Nat.div_add_mod offset real
      rw [haligned, Nat.add_zero] at hwhole
      calc offset = real * (offset / real) := hwhole.symm
        _ = u * minPageSize * (offset / real) := congrArg (· * (offset / real)) hround
        _ = u * (offset / real) * minPageSize := Nat.mul_right_comm _ _ _
    · rw [if_neg hsmall, hround]

/-- A kernel of the same page size is added to a free entry of the table. -/
theorem Good.open {kernel : Nat} {info : Kernel} (good : Good u object lists acked locks)
    (hfree : (object.kerninfo kernel).requestPort = 0) (hsize : info.pageSize = u * minPageSize)
    (hnew : ∀ k, Attached object k → (object.kerninfo k).requestPort ≠ info.requestPort) :
    Good u { object with kerninfo := Function.update object.kerninfo kernel info } lists acked
      locks := by
  obtain ⟨object', hobject'⟩ : ∃ object', object' =
    { object with kerninfo := Function.update object.kerninfo kernel info } := ⟨_, rfl⟩
  have hkept : ∀ k, k ≠ kernel → object'.kerninfo k = object.kerninfo k := by
    intro k hk
    rw [hobject']
    exact Function.update_of_ne hk _ _
  have hself : object'.kerninfo kernel = info := by
    rw [hobject']
    exact Function.update_self _ _ _
  have hne : ∀ k, Attached object k → k ≠ kernel := by
    rintro k hk rfl
    exact hk.2 hfree
  have hmono : ∀ k, Attached object k → Attached object' k := by
    intro k hk
    rw [Attached, hkept k (hne k hk)]
    exact hk
  have hback : ∀ k, k ≠ kernel → Attached object' k → Attached object k := by
    intro k hk h
    rwa [Attached, hkept k hk] at h
  rw [← hobject']
  have hpages : object'.minPages = object.minPages := by rw [hobject']
  have hrequests : object'.requests = object.requests := by rw [hobject']
  have hsent : object'.sent = object.sent := by rw [hobject']
  have pool := good.pool
  have books := good.books
  refine ⟨⟨good.pos, fun k hk => ?_, fun k k' hk hk' hport => ?_, fun j => ?_, ?_, ?_, ?_⟩,
    fun j => ?_⟩
  · by_cases heq : k = kernel
    · rw [heq, hself, hsize]
    · rw [hkept k heq]
      exact good.sized k (hback k heq hk)
  · by_cases heq : k = kernel
    · by_cases heq' : k' = kernel
      · rw [heq, heq']
      · rw [heq, hself, hkept k' heq'] at hport
        exact absurd hport.symm (hnew k' (hback k' heq' hk'))
    · by_cases heq' : k' = kernel
      · rw [heq', hself, hkept k heq] at hport
        exact absurd hport (hnew k (hback k heq hk))
      · rw [hkept k heq, hkept k' heq'] at hport
        exact good.ports k k' (hback k heq hk) (hback k' heq' hk') hport
  · have waits := good.waits j
    refine ⟨?_, waits.nodup, ?_, ?_, fun r hr => ?_⟩
    · rw [hrequests]; exact waits.linked
    · rw [hrequests]; exact waits.first
    · rw [hrequests]; exact waits.last
    · obtain ⟨k, hk, hattached⟩ := waits.kernel r hr
      rw [hrequests]
      exact ⟨k, hk, hmono k hattached⟩
  · rw [hobject']
    exact good.inside
  · rw [hobject']
    exact ⟨pool.apart, pool.free_linked, pool.free_nodup, pool.free_apart, pool.loose_nodup,
      pool.loose_free, pool.loose_apart, pool.bound_queue, pool.bound_free, pool.bound_loose,
      pool.siblings, pool.covers⟩
  · refine ⟨?_, fun lock hlock => hmono _ (books.attached lock hlock), books.units, books.serials,
      ?_, ?_, fun lock hlock => ?_, ?_⟩
    · rw [hrequests, hpages]; exact books.front
    · rw [hobject']; exact books.count
    · rw [hsent]; exact books.logged
    · rw [hsent, hkept _ (hne _ (books.attached lock hlock))]
      exact books.message lock hlock
    · rw [hsent]; exact books.answered
  · obtain ⟨use, user, looks, hbusy, hwriter, readers⟩ := good.units j
    exact ⟨use, user, looks.of_view good.pos (fun i _ => by rw [hpages]), hbusy,
      fun huse => hmono _ (hwriter huse),
      fun huse k hk hmember => hmono k (readers huse k hk hmember)⟩

/-- A kernel with the page size of the others is let in under a port of its own. -/
theorem Good.letIn {kernel : Nat} {info : Kernel} (good : Good u object lists acked locks)
    (rounded : Rounded u object) (hslot : object.portToKernel 0 = some kernel)
    (hunknown : object.portToKernel info.requestPort = none)
    (hsize : info.pageSize = u * minPageSize)
    (hreal : max info.realPageSize minPageSize = u * minPageSize) :
    Good u { object with kerninfo := Function.update object.kerninfo kernel info } lists acked
        locks ∧
      Rounded u { object with kerninfo := Function.update object.kerninfo kernel info } := by
  have hfree : (object.kerninfo kernel).requestPort = 0 := by
    unfold Object.portToKernel at hslot
    simpa using List.find?_some hslot
  refine ⟨good.open hfree hsize (fun k hk hsame => ?_), fun k hk => ?_⟩
  · have hfound := good.portToKernel hk
    rw [hsame, hunknown] at hfound
    cases hfound
  · dsimp only
    by_cases heq : k = kernel
    · rw [heq, Function.update_self]
      exact hreal
    · rw [Function.update_of_ne heq]
      unfold Attached at hk
      dsimp only at hk
      rw [Function.update_of_ne heq] at hk
      exact rounded k hk

theorem rounded_size {pageSize : Nat} (hsize : max pageSize minPageSize = u * minPageSize) :
    (if pageSize < minPageSize then minPageSize else pageSize) = u * minPageSize := by
  rw [← hsize]
  split
  · next hsmall => rw [max_eq_right hsmall.le]
  · next hlarge => rw [max_eq_left (by omega)]

/-- The mark of the object is for the locks to come. -/
theorem Good.setMark (good : Good u object lists acked locks) (mark : Bool) :
    Good u { object with mark := mark } lists acked locks := by
  have pool := good.pool
  have books := good.books
  refine ⟨⟨good.pos, good.sized, good.ports, fun j => ?_, good.inside, ?_, ?_⟩,
    fun j => (good.units j).congr rfl rfl⟩
  · exact (good.waits j).congr rfl (fun _ _ => ⟨rfl, rfl, rfl, rfl⟩)
  · exact ⟨pool.apart, pool.free_linked, pool.free_nodup, pool.free_apart, pool.loose_nodup,
      pool.loose_free, pool.loose_apart, pool.bound_queue, pool.bound_free, pool.bound_loose,
      pool.siblings, pool.covers⟩
  · exact ⟨books.front, books.attached, books.units, books.serials, books.count, books.logged,
      books.message, books.answered⟩

/-- A new object. -/
theorem good_new (hu : 0 < u) (n : Nat) :
    Good u { objectSize := n } ⟨fun _ => [], [], []⟩ [] [] := by
  have hnobody : ∀ k, ¬ Attached { objectSize := n } k := fun k hk => hk.2 rfl
  refine ⟨⟨hu, fun k hk => absurd hk (hnobody k), fun k _ hk => absurd hk (hnobody k), fun _ => ?_,
    fun _ hne => absurd rfl hne, ?_, ?_⟩, fun j => ?_⟩
  · exact ⟨rfl, List.nodup_nil, nofun, nofun, nofun⟩
  · exact ⟨nofun, rfl, List.nodup_nil, nofun, List.nodup_nil, nofun, nofun, nofun, nofun, nofun,
      fun _ => rfl, nofun⟩
  · refine ⟨nofun, nofun, List.nodup_nil, List.nodup_nil, fun _ _ => rfl, fun serial => ?_, nofun,
      nofun⟩
    constructor
    · intro hin
      cases hin
    · rintro ⟨message, hmessage, -⟩
      cases hmessage
  · exact ⟨.none, 0, ⟨fun _ _ => rfl, fun _ _ => rfl, fun _ _ => rfl, rfl, fun _ _ _ => rfl,
      fun _ _ => rfl⟩, fun h => absurd rfl h, nofun, nofun⟩

end Steps

end MachFormal.NetMemory.OneSize
