import MachFormal.NetMemory.OneSize.Fifo

/-!
# The detection of crashed kernels

`req_mark` counts a LOCK_WRITER under the current mark of the object, the
acknowledgement takes it off again, and `_timed_out` closes the kernels that
still have locks under the other mark before it makes that mark the current
one.  A watched system stamps every message of the log with the mark it was
sent under and with the number of calls of `_timed_out` before it.  For kernels
of one page size, and up to the first kernel that is closed, the counters are
the numbers of the locks that were not answered, and the kernels that are
closed are those with a lock from before the previous call.
-/

namespace MachFormal.NetMemory.CrashDetection

open MachFormal.Library
open OneSize

/-! ## Closing a kernel

`Kernel_close` may evict writers and satisfy requests, with whatever the
uninitialised variables hold.  It counts new locks under the current mark, and
it takes marks off the closed kernel only.
-/

/-- Locks under the old mark are taken off `kernel` only. -/
structure Calm (kernel : Nat) (object object' : Object) : Prop where
  mark : object'.mark = object.mark
  kerninfo : object'.kerninfo = object.kerninfo
  outstanding : ∀ k, k ≠ kernel →
    object'.outstanding k (!object.mark) = object.outstanding k (!object.mark)

section Closing

variable {kernel : Nat} {object object' object'' : Object}

theorem Calm.trans (first : Calm kernel object object') (second : Calm kernel object' object'') :
    Calm kernel object object'' where
  mark := second.mark.trans first.mark
  kerninfo := second.kerninfo.trans first.kerninfo
  outstanding := by
    intro k hk
    have h := second.outstanding k hk
    rw [first.mark] at h
    exact h.trans (first.outstanding k hk)

theorem Calm.refl (kernel : Nat) (object : Object) : Calm kernel object object :=
  ⟨rfl, rfl, fun _ _ => rfl⟩

theorem calm_setPage (object : Object) (page : Nat) (change : MinPage → MinPage) :
    Calm kernel object (object.setPage page change) :=
  ⟨rfl, rfl, fun _ _ => rfl⟩

theorem calm_setRequest (object : Object) (r : Nat) (change : Request → Request) :
    Calm kernel object (object.setRequest r change) :=
  ⟨rfl, rfl, fun _ _ => rfl⟩

theorem calm_send (object : Object) (k : Nat) (kind : Kind) (offset length : Nat) :
    Calm kernel object (object.send k kind offset length) :=
  ⟨rfl, rfl, fun _ _ => rfl⟩

theorem calm_reqFree (object : Object) (r : Nat) : Calm kernel object (object.reqFree r) :=
  ⟨rfl, rfl, fun _ _ => rfl⟩

/-- A new lock is counted under the current mark. -/
theorem calm_reqMark (object : Object) (r writer : Nat) :
    Calm kernel object (object.reqMark r writer) := by
  refine ⟨rfl, rfl, fun k _ => ?_⟩
  unfold Object.reqMark
  rw [addOutstanding_apply, if_neg (by simp), add_zero]
  rfl

theorem calm_reqUnmark (object : Object) (r : Nat) :
    Calm kernel object (object.reqUnmark r kernel) := by
  refine ⟨rfl, rfl, fun k hk => ?_⟩
  unfold Object.reqUnmark
  rw [addOutstanding_apply, if_neg (fun h => hk h.1.symm), add_zero]

/-! ### Loops -/

theorem forPages_keeps {σ : Type} {P : σ → Prop} {body : Nat → σ → σ} {state : σ}
    (first last : Nat) (start : P state) (turn : ∀ page s, P s → P (body page s)) :
    P (forPages first last body state) := by
  unfold forPages
  generalize List.range' first (last + 1 - first) = pages
  induction pages generalizing state with
  | nil => exact start
  | cons page pages ih => exact ih (turn page state start)

theorem setForall_keeps {σ : Type} {P : σ → Prop} {set : σ → BitVec 32} {body : Nat → σ → σ}
    {state : σ} (start : P state) (turn : ∀ elt s, P s → P (body elt s)) :
    P (setForall set body state) := by
  refine setForall_induct (P := fun _ s => P s) start (fun n _ s hs => ?_)
  split
  · exact turn n s hs
  · exact hs

theorem calm_setPages (object : Object) (first last : Nat) (change : MinPage → MinPage) :
    Calm kernel object
      (forPages first last (fun page object => object.setPage page change) object) :=
  forPages_keeps (P := Calm kernel object) first last (Calm.refl kernel object)
    (fun page _ calm => calm.trans (calm_setPage _ page change))

theorem calm_dataProvided (object : Object) (k offset : Nat) (prot : Kind) :
    Calm kernel object (object.dataProvided k offset prot) := by
  have pieces : ∀ (list : List Nat) (size : Nat) (object : Object), Calm kernel object
      (list.foldl (fun object piece => object.send k prot (offset + piece * size) size)
        object) := by
    intro list size
    induction list with
    | nil => exact fun object => Calm.refl kernel object
    | cons piece rest ih => exact fun object => (calm_send object _ _ _ _).trans (ih _)
  unfold Object.dataProvided
  dsimp only
  split
  · exact pieces _ _ object
  · exact calm_send object _ _ _ _

/-! ### Readers and writers -/

theorem calm_addReader (object : Object) (first last k : Nat) :
    Calm kernel object (object.addReader first last k) :=
  (calm_setPages object first last _).trans (calm_dataProvided _ k _ _)

theorem calm_bootReader (object : Object) (reader offset size : Nat) :
    Calm kernel object (object.bootReader reader offset size) := by
  have pages : ∀ (list : List Nat) (object : Object), Calm kernel object
      (list.foldl (fun object page => object.setPage page
        (fun minPage => { minPage with user := setDelete minPage.readers reader })) object) := by
    intro list
    induction list with
    | nil => exact fun object => Calm.refl kernel object
    | cons page rest ih => exact fun object => (calm_setPage object page _).trans (ih _)
  exact (pages _ object).trans (calm_send _ _ _ _ _)

theorem calm_bootBiggerReaders (object : Object) (first k : Nat) :
    Calm kernel object (object.bootBiggerReaders first k) := by
  unfold Object.bootBiggerReaders
  dsimp only
  split
  · refine setForall_keeps (P := Calm kernel object) (Calm.refl kernel object)
      (fun reader s calm => ?_)
    split
    · exact calm.trans (calm_bootReader s reader _ _)
    · exact calm
  · exact Calm.refl kernel object

theorem calm_bootReaders (object : Object) (first last k : Nat) :
    Calm kernel object (object.bootReaders first last k).1 := by
  refine forPages_keeps (P := fun state : Object × Bool => Calm kernel object state.1) first last
    (Calm.refl kernel object) (fun page state calm => ?_)
  split
  · refine setForall_keeps (P := fun state : Object × Bool => Calm kernel object state.1) calm
      (fun reader s calm => ?_)
    split
    · exact calm
    · exact calm.trans (calm_bootReader s.1 reader _ _)
  · exact calm

theorem calm_addWriter (object : Object) (first last k : Nat) (needsData : Bool) :
    Calm kernel object (object.addWriter first last k needsData) := by
  have booted : Calm kernel object (object.bootBiggerReaders first k) :=
    calm_bootBiggerReaders object first k
  have calm := (booted.trans (calm_bootReaders _ first last k)).trans
    (calm_setPages _ first last (fun minPage => { minPage.setWriter k with use := .write }))
  unfold Object.addWriter
  dsimp only
  split
  · exact calm.trans (calm_dataProvided _ k _ _)
  · exact calm.trans (calm_send _ _ _ _ _)

theorem calm_satisfyKernel (object : Object) (k first last : Nat) :
    Calm kernel object (object.satisfyKernel k first last).1 := by
  rw [satisfyKernel_eq]
  split
  · exact (calm_setPage object first _).trans (calm_addWriter _ first last k _)
  · exact (calm_setPage object first _).trans (calm_addReader _ first last k)

/-! ### Waiting requests -/

/-- The same for a call that may not return. -/
def Calms (kernel : Nat) (object : Object) (result : Option Object) : Prop :=
  ∀ object', result = some object' → Calm kernel object object'

theorem Calms.none (kernel : Nat) (object : Object) : Calms kernel object none :=
  fun _ h => nomatch h

theorem Calm.some (calm : Calm kernel object object') : Calms kernel object (some object') :=
  fun _ h => Option.some.inj h ▸ calm

theorem Calms.after {result : Option Object} (calms : Calms kernel object' result)
    (calm : Calm kernel object object') : Calms kernel object result :=
  fun _ h => calm.trans (calms _ h)

theorem Calms.bind {result : Option Object} {rest : Object → Option Object}
    (calms : Calms kernel object result) (hrest : ∀ o, Calms kernel o (rest o)) :
    Calms kernel object (result.bind rest) := by
  intro final hfinal
  obtain ⟨o, ho, hrest'⟩ := Option.bind_eq_some_iff.mp hfinal
  exact (calms o ho).trans (hrest o final hrest')

theorem calms_bootWriters (r last fuel : Nat) :
    ∀ (page : Nat) (object : Object),
      Calms kernel object (Object.bootWriters r last fuel page object) := by
  induction fuel with
  | zero =>
      intro page object
      unfold Object.bootWriters
      split
      · exact Calms.none kernel object
      · exact (Calm.refl kernel object).some
  | succ fuel ih =>
      intro page object
      unfold Object.bootWriters
      dsimp only
      split
      · split
        · refine (ih _ _).after ?_
          exact (((calm_setPage object page _).trans (calm_reqMark _ r _)).trans
            (calm_send _ _ _ _ _)).trans (calm_setRequest _ r _)
        · exact ih _ object
      · exact (Calm.refl kernel object).some

theorem calms_setHeads (writer fuel : Nat) :
    ∀ (next : Option Nat) (object : Object),
      Calms kernel object (Object.setHeads writer fuel next object) := by
  induction fuel with
  | zero =>
      intro next object
      cases next with
      | none => exact (Calm.refl kernel object).some
      | some r => exact Calms.none kernel object
  | succ fuel ih =>
      intro next object
      cases next with
      | none => exact (Calm.refl kernel object).some
      | some r =>
          exact (ih _ _).after ((calm_setPage object _ _).trans (calm_reqMark _ r writer))

theorem calms_satisfySiblings {satisfy : Nat → Object → Option Object}
    (hsatisfy : ∀ r object, Calms kernel object (satisfy r object)) (fuel : Nat) :
    ∀ (next : Option Nat) (object : Object),
      Calms kernel object (Object.satisfySiblings satisfy fuel next object) := by
  induction fuel with
  | zero =>
      intro next object
      cases next with
      | none => exact (Calm.refl kernel object).some
      | some r => exact Calms.none kernel object
  | succ fuel ih =>
      intro next object
      cases next with
      | none => exact (Calm.refl kernel object).some
      | some r => exact (hsatisfy r object).bind (fun o => (ih _ _).after (calm_reqFree o r))

/-- The part of `satisfy_request` for the request that follows. -/
def satisfyFollow (junk : Nat → Junk) (fuel first last : Nat) (use : Use) (follow : Option Nat)
    (object : Object) : Option Object :=
  match follow with
  | none => some object
  | some r =>
      let request := object.requests r
      if request.firstPage < first ∨ request.lastPage > last then
        let object := object.setRequest r
          (fun request => { request with count := request.count - 1 })
        if (object.requests r).count > 0 then some object
        else
          (Object.bootWriters r request.lastPage (request.lastPage + 1 - request.firstPage)
            request.firstPage object).bind fun object =>
              if (object.requests r).count = 0 then
                (Object.satisfyRequest junk fuel r object).bind fun object =>
                  some (object.reqFree r)
              else some object
      else if use = .write then
        let writer := (object.minPages first).writer
        let object := object.send writer .lockWriter (pageToOffset first)
          (object.kerninfo writer).pageSize
        Object.setHeads writer object.allocated (some r) object
      else Object.satisfySiblings (Object.satisfyRequest junk fuel) object.allocated (some r)
        object

/-- `satisfy_request` gives the page away, clears the tails and turns to the next request. -/
theorem satisfyRequest_succ (kernel : Nat) (junk : Nat → Junk) (fuel r : Nat) (object : Object) :
    ∃ taken first last use, Calm kernel object taken ∧
      Object.satisfyRequest junk (fuel + 1) r object =
        satisfyFollow junk fuel first last use
          ((forPages first last (fun page object => object.setPage page (clearTail r))
            taken).requests r).follow
          (forPages first last (fun page object => object.setPage page (clearTail r)) taken) := by
  cases hkernel : (object.requests r).kernel with
  | none =>
      refine ⟨object, (junk r).firstPage, (junk r).lastPage, (junk r).use,
        Calm.refl kernel object, ?_⟩
      conv_lhs => unfold Object.satisfyRequest
      dsimp only
      rw [hkernel]
      rfl
  | some k =>
      refine ⟨(object.satisfyKernel k (object.requests r).firstPage (object.requests r).lastPage).1,
        (object.requests r).firstPage, (object.requests r).lastPage,
        (object.satisfyKernel k (object.requests r).firstPage (object.requests r).lastPage).2,
        calm_satisfyKernel object k _ _, ?_⟩
      conv_lhs => unfold Object.satisfyRequest
      dsimp only
      rw [hkernel]
      rfl

theorem calms_satisfyFollow (junk : Nat → Junk) (fuel first last : Nat) (use : Use)
    (hsatisfy : ∀ r object, Calms kernel object (Object.satisfyRequest junk fuel r object))
    (follow : Option Nat) (object : Object) :
    Calms kernel object (satisfyFollow junk fuel first last use follow object) := by
  cases follow with
  | none => exact (Calm.refl kernel object).some
  | some r =>
      dsimp only [satisfyFollow]
      split
      · split
        · exact (calm_setRequest object r _).some
        · refine ((calms_bootWriters r _ _ _ _).bind (fun o => ?_)).after
            (calm_setRequest object r _)
          split
          · exact (hsatisfy r o).bind (fun o' => (calm_reqFree o' r).some)
          · exact (Calm.refl kernel o).some
      · split
        · exact (calms_setHeads _ _ _ _).after (calm_send object _ _ _ _)
        · exact calms_satisfySiblings hsatisfy _ _ object

theorem calms_satisfyRequest (junk : Nat → Junk) (fuel : Nat) :
    ∀ (r : Nat) (object : Object),
      Calms kernel object (Object.satisfyRequest junk fuel r object) := by
  induction fuel with
  | zero => exact fun _ object => Calms.none kernel object
  | succ fuel ih =>
      intro r object
      obtain ⟨taken, first, last, use, calm, heq⟩ := satisfyRequest_succ kernel junk fuel r object
      rw [heq]
      exact (calms_satisfyFollow junk fuel first last use ih _ _).after
        (calm.trans (calm_setPages taken first last _))

theorem calms_satisfyHeads (junk : Nat → Junk) (last fuel : Nat) :
    ∀ (page : Nat) (object : Object),
      Calms kernel object (Object.satisfyHeads junk kernel last fuel page object) := by
  induction fuel with
  | zero =>
      intro page object
      unfold Object.satisfyHeads
      split
      · exact Calms.none kernel object
      · exact (Calm.refl kernel object).some
  | succ fuel ih =>
      intro page object
      unfold Object.satisfyHeads
      dsimp only
      split
      · split
        · exact ih _ object
        · next r _ =>
            refine Calms.after ?_ ((calm_setPage object page (fun minPage =>
              { minPage with head := Option.none })).trans (calm_reqUnmark _ r))
            exact (calms_satisfyRequest junk _ r _).bind (fun o =>
              (ih _ _).after (calm_reqFree o r))
      · exact (Calm.refl kernel object).some

theorem calms_subtractKernel (junk : Nat → Junk) (object : Object) (offset : Nat) (data : Bool)
    (length : Nat) :
    Calms kernel object (object.subtractKernel junk kernel offset data length) := by
  unfold Object.subtractKernel
  dsimp only
  generalize offsetToPage (if length < minPageSize then offset - offset % minPageSize
    else offset) = first
  generalize offsetToPage _ - 1 = last
  split
  · exact (calm_setPage object _ _).some
  split
  · exact (Calm.refl kernel object).some
  split
  · exact (Calm.refl kernel object).some
  refine Calms.after ?_ (calm_setPages object first last
    (fun minPage => { minPage with use := .none }))
  split
  · next r _ =>
      split
      · refine Calms.after ?_ (((calm_setPage _ first (fun minPage =>
          { minPage with head := Option.none })).trans (calm_reqUnmark _ r)).trans
            (calm_setRequest _ r (fun request => { request with count := request.count - 1 })))
        split
        · exact (calms_satisfyRequest junk _ r _).bind (fun o => (calm_reqFree o r).some)
        · exact (Calm.refl kernel _).some
      · exact calms_satisfyHeads junk _ _ _ _
  · exact calms_satisfyHeads junk _ _ _ _

theorem calms_closePages (junk : Nat → Junk) (length : Nat) (pages : List Nat) :
    ∀ object : Object,
      Calms kernel object (Object.closePages junk kernel length pages object) := by
  induction pages with
  | nil => exact fun object => (Calm.refl kernel object).some
  | cons page rest ih =>
      intro object
      unfold Object.closePages
      dsimp only
      refine Calms.bind ?_ (fun o => (ih _).after (calm_setPage o page _))
      split
      · exact (calm_setPage object page _).some
      · split
        · exact calms_subtractKernel junk object _ false length
        · exact (Calm.refl kernel object).some

/-- `Kernel_close` forgets its kernel and leaves the old locks of the others. -/
theorem kernelClose_frame {junk : Nat → Junk}
    (hclose : object.kernelClose junk kernel = some object') :
    object'.mark = object.mark ∧ (object'.kerninfo kernel).requestPort = 0 ∧
      ∀ k, k ≠ kernel → object'.kerninfo k = object.kerninfo k ∧
        object'.outstanding k (!object.mark) = object.outstanding k (!object.mark) := by
  unfold Object.kernelClose at hclose
  dsimp only at hclose
  obtain ⟨closed, hpages, hresult⟩ := Option.bind_eq_some_iff.mp hclose
  have calm := calms_closePages junk _ _ _ closed hpages
  obtain rfl := Option.some.inj hresult
  refine ⟨calm.mark, ?_, fun k hk => ⟨?_, ?_⟩⟩
  · dsimp only
    rw [Function.update_self]
  · dsimp only
    rw [Function.update_of_ne hk, calm.kerninfo]
  · dsimp only
    rw [Function.update_of_ne hk]
    exact calm.outstanding k hk

end Closing

/-! ## The loop of `_timed_out` -/

/-- The object at turn `n` of the loop of `_timed_out`, if it gets there. -/
def timedOutTurn (junk : Nat → Junk) (object : Object) (n : Nat) : Option Object :=
  (List.range n).foldlM (fun current kernel =>
    if current.outstanding kernel (!object.mark) > 0 then current.kernelClose junk kernel
    else some current) object

theorem timedOut_eq (junk : Nat → Junk) (object : Object) :
    object.timedOut junk = (timedOutTurn junk object maxNumKernels).bind fun last =>
      some { last with mark := !object.mark } := rfl

theorem timedOutTurn_succ (junk : Nat → Junk) (object : Object) (n : Nat) :
    timedOutTurn junk object (n + 1) = (timedOutTurn junk object n).bind fun current =>
      if current.outstanding n (!object.mark) > 0 then current.kernelClose junk n
      else some current := by
  unfold timedOutTurn
  rw [List.range_succ, List.foldlM_append]
  simp only [List.foldlM_cons, List.foldlM_nil, bind_pure]
  rfl

/-- At every turn the kernels behind it have their locks under the old mark, and the kernels
before it have been closed if they had such locks. -/
theorem timedOutTurn_frame {junk : Nat → Junk} {object : Object} (n : Nat) :
    ∀ {current : Object}, timedOutTurn junk object n = some current →
      current.mark = object.mark ∧
      (∀ k, n ≤ k → current.kerninfo k = object.kerninfo k ∧
        current.outstanding k (!object.mark) = object.outstanding k (!object.mark)) ∧
      ∀ k < n, (0 < object.outstanding k (!object.mark) → (current.kerninfo k).requestPort = 0) ∧
        (¬ 0 < object.outstanding k (!object.mark) → current.kerninfo k = object.kerninfo k) := by
  induction n with
  | zero =>
      intro current hcurrent
      cases hcurrent
      exact ⟨rfl, fun _ _ => ⟨rfl, rfl⟩, fun _ h => absurd h (Nat.not_lt_zero _)⟩
  | succ n ih =>
      intro final hfinal
      rw [timedOutTurn_succ] at hfinal
      obtain ⟨current, hcurrent, hturn⟩ := Option.bind_eq_some_iff.mp hfinal
      obtain ⟨hmark, hlater, hearlier⟩ := ih hcurrent
      obtain ⟨hinfo, hcount⟩ := hlater n (le_refl n)
      split at hturn
      · next hlocks =>
          obtain ⟨hmark', hclosed, hothers⟩ := kernelClose_frame hturn
          rw [hmark] at hothers
          refine ⟨hmark'.trans hmark, fun k hk => ?_, fun k hk => ?_⟩
          · obtain ⟨hinfo', hcount'⟩ := hothers k (by omega)
            obtain ⟨hinfo₁, hcount₁⟩ := hlater k (by omega)
            exact ⟨hinfo'.trans hinfo₁, hcount'.trans hcount₁⟩
          · rcases Nat.lt_succ_iff_lt_or_eq.mp hk with hlt | rfl
            · obtain ⟨hinfo', -⟩ := hothers k (by omega)
              rw [hinfo']
              exact hearlier k hlt
            · refine ⟨fun _ => hclosed, fun hnone => ?_⟩
              rw [hcount] at hlocks
              exact absurd hlocks hnone
      · next hlocks =>
          cases hturn
          refine ⟨hmark, fun k hk => hlater k (by omega), fun k hk => ?_⟩
          rcases Nat.lt_succ_iff_lt_or_eq.mp hk with hlt | rfl
          · exact hearlier k hlt
          · rw [hcount] at hlocks
            exact ⟨fun h => absurd h hlocks, fun _ => hinfo⟩

/-- A call that closes nobody flips the mark. -/
theorem timedOut_nobody {junk : Nat → Junk} {object : Object}
    (hnobody : ∀ k < maxNumKernels, ¬ 0 < object.outstanding k (!object.mark)) :
    object.timedOut junk = some { object with mark := !object.mark } := by
  have turns : ∀ n ≤ maxNumKernels, timedOutTurn junk object n = some object := by
    intro n
    induction n with
    | zero => exact fun _ => rfl
    | succ n ih =>
        intro hn
        rw [timedOutTurn_succ, ih (by omega), Option.bind_some, if_neg (hnobody n (by omega))]
  rw [timedOut_eq, turns _ (le_refl _), Option.bind_some]

/-! ## The watched system -/

/-- The mark a message was sent under, and the calls of `_timed_out` before it. -/
structure Stamp where
  mark : Bool
  epoch : Nat
  deriving DecidableEq, Repr

/-- A system with the number of calls of `_timed_out` so far and with the stamps of the
messages of the log, newest first. -/
structure Watched where
  system : System
  epoch : Nat := 0
  stamps : List Stamp := []

/-- The stamp of the message at a place of the log. -/
def stampAt (stamps : List Stamp) (serial : Nat) : Option Stamp :=
  stamps.reverse[serial]?

def isTimedOut : Label → Bool
  | .timedOut _ => true
  | _ => false

/-- A step of the system; the messages it sends get stamps. -/
def watchedStep (w : Watched) (label : Label) : Option Watched :=
  (step w.system label).bind fun system =>
    some
      { system := system
        epoch := if isTimedOut label then w.epoch + 1 else w.epoch
        stamps := List.replicate (system.object.sent.length - w.system.object.sent.length)
          ⟨w.system.object.mark, w.epoch⟩ ++ w.stamps }

/-- The watched scheduler as a machine. -/
def watched : Machine Watched Label where
  init := fun w => initial w.system ∧ w.epoch = 0 ∧ w.stamps = []
  step := watchedStep

/-- The kernels have pages of `u` minimal pages, and no kernel is closed. -/
def beforeClose (u : Nat) (w : Watched) : Label → Prop
  | .attach _ pageSize => max pageSize minPageSize = u * minPageSize
  | .request .. => True
  | .lockCompleted .. => True
  | .close .. => False
  | .timedOut _ => ∀ k < maxNumKernels,
      ¬ 0 < w.system.object.outstanding k (!w.system.object.mark)

/-- The message at this place of the log is a LOCK_WRITER to the kernel that was not
answered. -/
def unanswered (w : Watched) (kernel serial : Nat) : Bool :=
  match messageAt w.system.object.sent serial with
  | none => false
  | some message => decide (message.kind = .lockWriter ∧
      message.port = (w.system.object.kerninfo kernel).requestPort ∧ serial ∉ w.system.acked)

/-- The unanswered LOCK_WRITERs to a kernel that were sent under a mark. -/
def pending (w : Watched) (kernel : Nat) (mark : Bool) : List Nat :=
  (List.range w.system.object.sent.length).filter (fun serial =>
    unanswered w kernel serial && decide ((stampAt w.stamps serial).map Stamp.mark = some mark))

/-- A LOCK_WRITER to the kernel is unanswered since before the previous call of
`_timed_out`. -/
def Overdue (w : Watched) (kernel : Nat) : Prop :=
  ∃ serial stamp, unanswered w kernel serial = true ∧ stampAt w.stamps serial = some stamp ∧
    stamp.epoch < w.epoch

/-! ## The invariant -/

theorem stampAt_old {stamps new : List Stamp} {serial : Nat} (hold : serial < stamps.length) :
    stampAt (new ++ stamps) serial = stampAt stamps serial := by
  unfold stampAt
  rw [List.reverse_append, List.getElem?_append_left (by simpa using hold)]

theorem stampAt_new {stamps : List Stamp} {serial n : Nat} {stamp : Stamp}
    (hge : stamps.length ≤ serial) (hlt : serial < n + stamps.length) :
    stampAt (List.replicate n stamp ++ stamps) serial = some stamp := by
  unfold stampAt
  rw [List.reverse_append, List.getElem?_append_right (by simpa using hge), List.length_reverse,
    List.reverse_replicate, List.getElem?_replicate, if_pos (by omega)]

theorem mem_of_stampAt {stamps : List Stamp} {serial : Nat} {stamp : Stamp}
    (hstamp : stampAt stamps serial = some stamp) : stamp ∈ stamps :=
  List.mem_reverse.mp (List.mem_of_getElem? hstamp)

/-- The books are kept, marks alternate with the calls of `_timed_out`, and no lock is older
than one call. -/
structure Inv (u : Nat) (w : Watched) (lists : Lists) (locks : List Lock) : Prop where
  locked : Locked u w.system.object lists w.system.acked locks
  rounded : Rounded u w.system.object
  length : w.stamps.length = w.system.object.sent.length
  mark : w.system.object.mark = decide (w.epoch % 2 = 1)
  parity : ∀ stamp ∈ w.stamps, stamp.mark = decide (stamp.epoch % 2 = 1) ∧
    stamp.epoch ≤ w.epoch
  stamped : ∀ lock ∈ locks, ∃ stamp, stampAt w.stamps lock.serial = some stamp ∧
    stamp.mark = lock.mark ∧ w.epoch ≤ stamp.epoch + 1

section Invariant

variable {u : Nat} {w w' : Watched} {lists lists' : Lists} {locks locks' kept : List Lock}

theorem Inv.good (inv : Inv u w lists locks) : Good u w.system.object lists w.system.acked locks :=
  inv.locked.good

/-- A call of a kernel: the locks it adds are stamped with the current mark. -/
theorem Inv.call {system : System} (inv : Inv u w lists locks)
    (hkept : ∀ lock ∈ kept, lock ∈ locks)
    (locked : Locked u system.object lists' system.acked locks')
    (after : After w.system.object system.object kept locks') :
    Inv u
      { system := system
        epoch := w.epoch
        stamps := List.replicate (system.object.sent.length - w.system.object.sent.length)
          ⟨w.system.object.mark, w.epoch⟩ ++ w.stamps } lists' locks' := by
  have hlength := inv.length
  have hgrown := after.sent
  refine ⟨locked, fun kernel hattached => ?_, ?_, after.mark.trans inv.mark, fun stamp hstamp => ?_,
    fun lock hlock => ?_⟩
  · dsimp only
    rw [after.kerninfo]
    exact inv.rounded kernel ((Attached.congr after.kerninfo).mp hattached)
  · dsimp only
    rw [List.length_append, List.length_replicate]
    omega
  · rcases List.mem_append.mp hstamp with hnew | hold
    · rw [List.eq_of_mem_replicate hnew]
      exact ⟨inv.mark, le_refl _⟩
    · exact inv.parity stamp hold
  · rcases after.locks lock hlock with hold | ⟨hmark, hserial⟩
    · obtain ⟨stamp, hstamp, hmark, hrecent⟩ := inv.stamped lock (hkept lock hold)
      have hlt := messageAt_lt (inv.good.books.message lock (hkept lock hold))
      exact ⟨stamp, (stampAt_old (by omega)).trans hstamp, hmark, hrecent⟩
    · have hlt := messageAt_lt (locked.good.books.message lock hlock)
      refine ⟨⟨w.system.object.mark, w.epoch⟩, stampAt_new (by omega) (by omega), hmark.symm, ?_⟩
      exact Nat.le_succ _

/-- The locks that are counted under a mark. -/
theorem Inv.counted (inv : Inv u w lists locks) (kernel : Nat) (mark : Bool) :
    0 < w.system.object.outstanding kernel mark ↔
      ∃ lock ∈ locks, lock.kernel = kernel ∧ lock.mark = mark := by
  rw [inv.good.books.count, Int.natCast_pos, List.countP_pos_iff]
  simp

/-- A lock under the old mark is one call older than the current ones. -/
theorem Inv.old_iff (inv : Inv u w lists locks) {lock : Lock} (hlock : lock ∈ locks)
    {stamp : Stamp} (hstamp : stampAt w.stamps lock.serial = some stamp) :
    lock.mark = (!w.system.object.mark) ↔ stamp.epoch < w.epoch := by
  obtain ⟨stamp', hstamp', hmark, hrecent⟩ := inv.stamped lock hlock
  obtain rfl : stamp = stamp' := Option.some.inj (hstamp.symm.trans hstamp')
  obtain ⟨hparity, hle⟩ := inv.parity stamp (mem_of_stampAt hstamp)
  rw [← hmark, hparity, inv.mark]
  rcases Nat.lt_or_ge stamp.epoch w.epoch with hlt | hge
  · have hepoch : w.epoch = stamp.epoch + 1 := by omega
    rw [hepoch]
    refine ⟨fun _ => Nat.lt_succ_self _, fun _ => ?_⟩
    rcases Nat.mod_two_eq_zero_or_one stamp.epoch with h | h
    · have : (stamp.epoch + 1) % 2 = 1 := by omega
      simp [h, this]
    · have : (stamp.epoch + 1) % 2 = 0 := by omega
      simp [h, this]
  · have hepoch : stamp.epoch = w.epoch := by omega
    rw [hepoch]
    simp

/-- A call of `_timed_out` that closes nobody. -/
theorem Inv.flip {system : System} (inv : Inv u w lists locks)
    (hnobody : ∀ k < maxNumKernels, ¬ 0 < w.system.object.outstanding k (!w.system.object.mark))
    (hobject : system.object = { w.system.object with mark := !w.system.object.mark })
    (hacked : system.acked = w.system.acked) :
    Inv u
      { system := system
        epoch := w.epoch + 1
        stamps := List.replicate (system.object.sent.length - w.system.object.sent.length)
          ⟨w.system.object.mark, w.epoch⟩ ++ w.stamps } lists locks := by
  have good := inv.good
  have hstamps : List.replicate (system.object.sent.length - w.system.object.sent.length)
      (⟨w.system.object.mark, w.epoch⟩ : Stamp) ++ w.stamps = w.stamps := by
    rw [hobject, Nat.sub_self]
    rfl
  rw [hstamps]
  refine ⟨?_, ?_, ?_, ?_, fun stamp hstamp => ?_, fun lock hlock => ?_⟩
  · dsimp only
    rw [hobject, hacked]
    exact inv.locked.setMark _
  · dsimp only
    rw [hobject]
    exact inv.rounded
  · dsimp only
    rw [hobject]
    exact inv.length
  · dsimp only
    rw [hobject]
    dsimp only
    rw [inv.mark]
    rcases Nat.mod_two_eq_zero_or_one w.epoch with h | h
    · have : (w.epoch + 1) % 2 = 1 := by omega
      simp [h, this]
    · have : (w.epoch + 1) % 2 = 0 := by omega
      simp [h, this]
  · obtain ⟨hparity, hle⟩ := inv.parity stamp hstamp
    exact ⟨hparity, Nat.le_succ_of_le hle⟩
  · obtain ⟨stamp, hstamp, hmark, hrecent⟩ := inv.stamped lock hlock
    refine ⟨stamp, hstamp, hmark, ?_⟩
    have hnew : ¬ lock.mark = (!w.system.object.mark) := by
      intro hold
      refine hnobody lock.kernel (good.books.attached lock hlock).1 ?_
      exact (inv.counted _ _).mpr ⟨lock, hlock, rfl, hold⟩
    rw [inv.old_iff hlock hstamp] at hnew
    dsimp only
    omega

theorem memoryObjectInit_frame (object : Object) (port pageSize : Nat) :
    (object.memoryObjectInit port pageSize).sent = object.sent ∧
      (object.memoryObjectInit port pageSize).mark = object.mark := by
  unfold Object.memoryObjectInit
  repeat' split
  all_goals exact ⟨rfl, rfl⟩

/-- A new kernel. -/
theorem Inv.attach {port pageSize : Nat} (inv : Inv u w lists locks)
    (hsize : max pageSize minPageSize = u * minPageSize) :
    Inv u
      { system := { w.system with object := w.system.object.memoryObjectInit port pageSize }
        epoch := w.epoch
        stamps := w.stamps } lists locks := by
  have hlocked : Locked u (w.system.object.memoryObjectInit port pageSize) lists w.system.acked
      locks ∧ Rounded u (w.system.object.memoryObjectInit port pageSize) :=
    inv.locked.memoryObjectInit inv.rounded hsize
  obtain ⟨locked, rounded⟩ := hlocked
  obtain ⟨hsent, hmark⟩ := memoryObjectInit_frame w.system.object port pageSize
  exact ⟨locked, rounded, inv.length.trans (congrArg List.length hsent.symm),
    hmark.trans inv.mark, inv.parity, inv.stamped⟩

theorem Inv.step (inv : Inv u w lists locks) {label : Label} (hok : beforeClose u w label)
    (hstep : watchedStep w label = some w') : ∃ lists' locks', Inv u w' lists' locks' := by
  unfold watchedStep at hstep
  obtain ⟨system, hsystem, hwatched⟩ := Option.bind_eq_some_iff.mp hstep
  obtain rfl := Option.some.inj hwatched
  cases label with
  | attach port pageSize =>
      unfold NetMemory.step at hsystem
      dsimp only at hsystem
      split at hsystem
      · cases hsystem
      · obtain rfl := Option.some.inj hsystem
        refine ⟨lists, locks, ?_⟩
        dsimp only [isTimedOut]
        rw [(memoryObjectInit_frame w.system.object port pageSize).1, Nat.sub_self]
        exact inv.attach hok
  | request port offset write needsData =>
      unfold NetMemory.step at hsystem
      dsimp only at hsystem
      obtain ⟨kernel, hkernel, hrest⟩ := Option.bind_eq_some_iff.mp hsystem
      split at hrest
      · cases hrest
      · next haligned =>
          obtain ⟨object, hobject, hresult⟩ := Option.bind_eq_some_iff.mp hrest
          obtain rfl := Option.some.inj hresult
          obtain ⟨lists', locks', locked, -, after⟩ :=
            inv.locked.memoryObjectRequest write needsData inv.rounded hkernel
              (by simpa using haligned) hobject
          exact ⟨lists', locks', inv.call (fun _ h => h) locked after⟩
  | lockCompleted serial junk =>
      unfold NetMemory.step at hsystem
      dsimp only at hsystem
      obtain ⟨message, hmessage, hrest⟩ := Option.bind_eq_some_iff.mp hsystem
      split at hrest
      · next hpending =>
          obtain ⟨object, hobject, hresult⟩ := Option.bind_eq_some_iff.mp hrest
          obtain rfl := Option.some.inj hresult
          obtain ⟨lock, hlock, rfl, rfl⟩ := inv.good.lock_of_message hmessage hpending.1
            hpending.2
          obtain ⟨object', lists', locks', heq, locked, -, after⟩ :=
            inv.locked.lockCompleted junk hlock
          obtain rfl := Option.some.inj (hobject.symm.trans heq)
          exact ⟨lists', locks', inv.call (fun _ h => List.mem_of_mem_erase h) locked after⟩
      · cases hrest
  | close kernel junk => exact hok.elim
  | timedOut junk =>
      unfold NetMemory.step at hsystem
      dsimp only at hsystem
      rw [timedOut_nobody hok, Option.bind_some] at hsystem
      obtain rfl := Option.some.inj hsystem
      exact ⟨lists, locks, inv.flip hok rfl rfl⟩

theorem inv_of_reachable (hu : 0 < u) (hreach : watched.Reachable (beforeClose u) w) :
    ∃ lists locks, Inv u w lists locks := by
  refine hreach.invariant (P := fun w => ∃ lists locks, Inv u w lists locks) ?_ ?_
  · rintro w ⟨⟨size, hsystem⟩, hepoch, hstamps⟩
    refine ⟨⟨fun _ => [], [], []⟩, [], ?_, ?_, ?_, ?_, ?_, nofun⟩
    · rw [hsystem]
      exact locked_new hu _
    · rw [hsystem]
      exact fun kernel hattached => absurd rfl hattached.2
    · rw [hsystem, hstamps]
      rfl
    · rw [hsystem, hepoch]
      rfl
    · rw [hstamps]
      nofun
  · rintro w label w' ⟨lists, locks, inv⟩ hok hstep
    exact inv.step hok hstep

/-! ## Detection -/

theorem Inv.unanswered_iff (inv : Inv u w lists locks) {kernel : Nat}
    (hkernel : kernel < maxNumKernels) (serial : Nat) :
    unanswered w kernel serial = true ↔
      ∃ lock ∈ locks, lock.serial = serial ∧ lock.kernel = kernel := by
  have books := inv.good.books
  constructor
  · intro h
    unfold unanswered at h
    split at h
    · cases h
    · next message hmessage =>
        obtain ⟨hkind, hport, hacked⟩ := of_decide_eq_true h
        obtain ⟨lock, hlock, hserial, rfl⟩ := inv.good.lock_of_message hmessage hkind hacked
        have hattached := books.attached lock hlock
        refine ⟨lock, hlock, hserial, inv.good.ports _ _ hattached ⟨hkernel, ?_⟩ hport⟩
        rw [← hport]
        exact hattached.2
  · rintro ⟨lock, hlock, rfl, rfl⟩
    obtain ⟨message, -, -, hacked⟩ := (books.logged lock.serial).mp (List.mem_map_of_mem hlock)
    unfold unanswered
    rw [books.message lock hlock]
    exact decide_eq_true ⟨rfl, rfl, hacked⟩

theorem Inv.mem_pending (inv : Inv u w lists locks) {kernel : Nat}
    (hkernel : kernel < maxNumKernels) (mark : Bool) (serial : Nat) :
    serial ∈ pending w kernel mark ↔
      ∃ lock ∈ locks, lock.serial = serial ∧ lock.kernel = kernel ∧ lock.mark = mark := by
  unfold pending
  rw [List.mem_filter, List.mem_range, Bool.and_eq_true, inv.unanswered_iff hkernel,
    decide_eq_true_eq]
  constructor
  · rintro ⟨-, ⟨lock, hlock, rfl, hsame⟩, hstamp⟩
    obtain ⟨stamp, hat, hmark, -⟩ := inv.stamped lock hlock
    rw [hat] at hstamp
    exact ⟨lock, hlock, rfl, hsame, hmark.symm.trans (Option.some.inj hstamp)⟩
  · rintro ⟨lock, hlock, rfl, hsame, rfl⟩
    obtain ⟨stamp, hat, hmark, -⟩ := inv.stamped lock hlock
    refine ⟨messageAt_lt (inv.good.books.message lock hlock), ⟨lock, hlock, rfl, hsame⟩, ?_⟩
    rw [hat, Option.map_some, hmark]

/-- The counters count the unanswered locks. -/
theorem Inv.outstanding_eq (inv : Inv u w lists locks) {kernel : Nat}
    (hkernel : kernel < maxNumKernels) (mark : Bool) :
    w.system.object.outstanding kernel mark = (pending w kernel mark).length := by
  have books := inv.good.books
  have hperm : (pending w kernel mark).Perm ((locks.filter (fun lock =>
      decide (lock.kernel = kernel ∧ lock.mark = mark))).map Lock.serial) := by
    have hnodup : (pending w kernel mark).Nodup := List.nodup_range.filter _
    refine (List.perm_ext_iff_of_nodup hnodup
      (books.serials.sublist (List.filter_sublist.map _))).mpr (fun serial => ?_)
    rw [inv.mem_pending hkernel]
    simp only [List.mem_map, List.mem_filter, decide_eq_true_eq]
    constructor
    · rintro ⟨lock, hlock, hserial, hboth⟩
      exact ⟨lock, ⟨hlock, hboth⟩, hserial⟩
    · rintro ⟨lock, ⟨hlock, hboth⟩, hserial⟩
      exact ⟨lock, hlock, hserial, hboth⟩
  rw [books.count, List.countP_eq_length_filter, hperm.length_eq, List.length_map]

/-- Locks under the old mark are those from before the previous call. -/
theorem Inv.overdue_iff (inv : Inv u w lists locks) {kernel : Nat}
    (hkernel : kernel < maxNumKernels) :
    0 < w.system.object.outstanding kernel (!w.system.object.mark) ↔ Overdue w kernel := by
  rw [inv.counted]
  constructor
  · rintro ⟨lock, hlock, hsame, hmark⟩
    obtain ⟨stamp, hstamp, -⟩ := inv.stamped lock hlock
    exact ⟨lock.serial, stamp, (inv.unanswered_iff hkernel _).mpr ⟨lock, hlock, rfl, hsame⟩,
      hstamp, (inv.old_iff hlock hstamp).mp hmark⟩
  · rintro ⟨serial, stamp, hunanswered, hstamp, hold⟩
    obtain ⟨lock, hlock, rfl, hsame⟩ := (inv.unanswered_iff hkernel serial).mp hunanswered
    exact ⟨lock, hlock, hsame, (inv.old_iff hlock hstamp).mpr hold⟩

/-- What the counters say about the locks, and which kernels a call of `_timed_out` closes. -/
structure Detects (w : Watched) : Prop where
  counted : ∀ kernel < maxNumKernels, ∀ mark,
    w.system.object.outstanding kernel mark = (pending w kernel mark).length
  short : ∀ kernel < maxNumKernels, ∀ mark, (pending w kernel mark).length < 32768 →
    (BitVec.ofInt 16 (w.system.object.outstanding kernel mark)).toInt =
      w.system.object.outstanding kernel mark
  turn : ∀ junk, ∀ kernel < maxNumKernels, ∀ current,
    timedOutTurn junk w.system.object kernel = some current →
      (0 < current.outstanding kernel (!w.system.object.mark) ↔ Overdue w kernel)
  closed : ∀ junk object, w.system.object.timedOut junk = some object →
    ∀ kernel, Attached w.system.object kernel →
      ((object.kerninfo kernel).requestPort = 0 ↔ Overdue w kernel)

theorem Inv.detects (inv : Inv u w lists locks) : Detects w where
  counted := fun _ hkernel mark => inv.outstanding_eq hkernel mark
  short := by
    intro kernel hkernel mark hsmall
    rw [inv.outstanding_eq hkernel mark, BitVec.toInt_ofInt]
    rw [Int.bmod_eq_of_le]
    · omega
    · omega
  turn := by
    intro junk kernel hkernel current hcurrent
    obtain ⟨-, hlater, -⟩ := timedOutTurn_frame kernel hcurrent
    rw [(hlater kernel (le_refl kernel)).2]
    exact inv.overdue_iff hkernel
  closed := by
    intro junk object hobject kernel hattached
    rw [timedOut_eq] at hobject
    obtain ⟨last, hlast, hresult⟩ := Option.bind_eq_some_iff.mp hobject
    obtain rfl := Option.some.inj hresult
    obtain ⟨-, -, hearlier⟩ := timedOutTurn_frame maxNumKernels hlast
    obtain ⟨hclosed, hkept⟩ := hearlier kernel hattached.1
    rw [← inv.overdue_iff hattached.1]
    refine ⟨fun hport => ?_, hclosed⟩
    by_contra hnone
    dsimp only at hport
    rw [hkept hnone] at hport
    exact hattached.2 hport

end Invariant

section Runs

variable {u : Nat} {w : Watched}

theorem exists_inv (hreach : watched.Reachable (beforeClose u) w) :
    ∃ u lists locks, Inv u w lists locks := by
  rcases Nat.eq_zero_or_pos u with rfl | hu
  · -- no kernel has pages without minimal pages
    have hreach' : watched.Reachable (beforeClose 1) w := by
      refine hreach.mono (fun w label hok => ?_)
      cases label with
      | attach port pageSize =>
          have hzero : max pageSize minPageSize = 0 * minPageSize := hok
          have hle := le_max_right pageSize minPageSize
          rw [hzero] at hle
          exact absurd hle (by decide)
      | request => trivial
      | lockCompleted => trivial
      | close => exact hok
      | timedOut => exact hok
    exact ⟨1, inv_of_reachable Nat.one_pos hreach'⟩
  · exact ⟨u, inv_of_reachable hu hreach⟩

/-- With kernels of one page size, and up to the first kernel that is closed, the counters are
the numbers of unanswered locks, and `_timed_out` closes the kernels with an overdue one. -/
theorem detects_of_reachable (hreach : watched.Reachable (beforeClose u) w) : Detects w := by
  obtain ⟨u, lists, locks, inv⟩ := exists_inv hreach
  exact inv.detects

end Runs

/-- Kernel 1 asks for a page that kernel 0 writes; the lock is not answered before
`_timed_out` is called. -/
def lateAnswer : List Label :=
  [.attach 11 4096, .attach 12 4096, .request 11 0 true true, .request 12 0 true true,
    .timedOut (fun _ => {})]

theorem detects_lateAnswer :
    ∃ w, watched.run { system := { object := Object.create 8192 } } lateAnswer = some w ∧
      pending w 0 false = [1] ∧ unanswered w 0 1 = true ∧ w.epoch = 1 ∧ Detects w := by
  obtain ⟨w, ran, hpending, hunanswered, hepoch⟩ : ∃ w,
      watched.run { system := { object := Object.create 8192 } } lateAnswer = some w ∧
        pending w 0 false = [1] ∧ unanswered w 0 1 = true ∧ w.epoch = 1 :=
    ⟨_, rfl, by decide +kernel, by decide +kernel, rfl⟩
  have meets : watched.Meets (beforeClose 1) { system := { object := Object.create 8192 } }
      lateAnswer := by
    refine ⟨rfl, rfl, trivial, trivial, ?_, trivial⟩
    show ∀ k < maxNumKernels, _
    decide +kernel
  exact ⟨w, ran, hpending, hunanswered, hepoch, detects_of_reachable
    (.of_run lateAnswer (.init ⟨⟨8192, rfl⟩, rfl, rfl⟩) ran meets)⟩

end MachFormal.NetMemory.CrashDetection
