import MachFormal.NetMemory.Scheduler
import Mathlib.Tactic.SplitIfs

/-!
# Schedulers for pages of any size

The largest page size is a constant of the configuration, and `sanity` only asks
that it is a power of two.  The size of an object is rounded up to it, and it
bounds the page sizes of the kernels; nothing else depends on it.  So a run in
an object is a run in every larger one.
-/

namespace MachFormal.NetMemory

/-! ## The configuration -/

def minPageShift : Nat := 12

/-- `sanity` for these values of MAX_PAGE_SIZE and MAX_PAGE_SHIFT. -/
def sanity (maxPageSize maxPageShift : Nat) : Bool :=
  !(decide (maxNumKernels > 32) || decide (maxNumKernels < 1)) &&
    decide (minPageSize = 2 ^ minPageShift) && decide (maxPageSize = 2 ^ maxPageShift)

/-- What is read back as a `vm_size_t` of a size that was stored in a `short`. -/
def shortSize (size : Nat) : Nat := ((BitVec.ofNat 16 size).signExtend 32).toNat

namespace Object

/-- `Object_create`, for the size that `netmemory_cover` has rounded up to whole pages of
`maxPageSize` bytes. -/
def createUpTo (maxPageSize size : Nat) : Object :=
  { objectSize := (size + maxPageSize - 1) / maxPageSize * maxPageSize }

/-- `memory_object_init` where the largest page size is `maxPageSize`. -/
def memoryObjectInitUpTo (maxPageSize : Nat) (object : Object) (memoryControl pageSize : Nat) :
    Object :=
  if memoryControl = 0 then object
  else if pageSize > maxPageSize then object
  else if !isPowerOfTwo pageSize then object
  else if object.portToKernel memoryControl ≠ none then object
  else
    match object.portToKernel 0 with
    | none => object
    | some kernel =>
        { object with
          kerninfo := Function.update object.kerninfo kernel
            { requestPort := memoryControl
              pageSize := shortSize (if pageSize < minPageSize then minPageSize else pageSize)
              realPageSize := shortSize pageSize } }

theorem createUpTo_maxPageSize (size : Nat) : createUpTo maxPageSize size = create size := rfl

theorem shortSize_eq {size : Nat} (small : size < 2 ^ 15) : shortSize size = size := by
  have value : (BitVec.ofNat 16 size).toNat = size := by
    rw [BitVec.toNat_ofNat]
    omega
  have positive : (BitVec.ofNat 16 size).msb = false := by
    rw [BitVec.msb_eq_decide, value]
    exact decide_eq_false (by omega)
  rw [shortSize, BitVec.signExtend_eq_setWidth_of_msb_false positive, BitVec.toNat_setWidth, value]
  omega

/-- The table of kernels has room for the sizes of the configuration. -/
theorem memoryObjectInitUpTo_maxPageSize (object : Object) (memoryControl pageSize : Nat) :
    memoryObjectInitUpTo maxPageSize object memoryControl pageSize =
      object.memoryObjectInit memoryControl pageSize := by
  rw [memoryObjectInitUpTo, memoryObjectInit]
  by_cases large : pageSize > maxPageSize
  · rw [if_pos large, if_pos large]
  · have small : pageSize < 2 ^ 15 := by
      rw [maxPageSize] at large
      omega
    have kept : (if pageSize < minPageSize then minPageSize else pageSize) < 2 ^ 15 := by
      split
      · decide
      · exact small
    cases object.portToKernel 0 with
    | none => rfl
    | some kernel =>
        simp only [shortSize_eq small, shortSize_eq kept]

end Object

/-! ## The system -/

/-- What reaches the scheduler while no kernel is closed. -/
inductive Event where
  | attach (port pageSize : Nat)
  | request (port offset length : Nat) (write needsData : Bool)
  | lockCompleted (serial : Nat) (junk : Nat → Junk)

/-- One step: a kernel is attached, asks for a page at a multiple of its length, or
acknowledges a LOCK_WRITER once. -/
def stepUpTo (maxPageSize : Nat) (s : System) : Event → Option System
  | .attach port pageSize =>
      some { s with object := s.object.memoryObjectInitUpTo maxPageSize port pageSize }
  | .request port offset length write needsData =>
      if offset % length ≠ 0 then none
      else
        (s.object.memoryObjectRequest port offset length write needsData).bind fun object =>
          some { s with object := object }
  | .lockCompleted serial junk =>
      (messageAt s.object.sent serial).bind fun message =>
        if message.kind = .lockWriter ∧ serial ∉ s.acked then
          (s.object.memoryObjectLockCompleted junk message.port message.offset
            message.length).bind fun object =>
              some { s with object := object, acked := serial :: s.acked }
        else none

/-- The scheduler with this largest page size as a machine. -/
def machineUpTo (maxPageSize : Nat) : Library.Machine System Event where
  init := fun s => ∃ size, s = { object := Object.createUpTo maxPageSize size }
  step := stepUpTo maxPageSize

/-! ## Objects of other sizes -/

namespace Object

def resize (n : Nat) (object : Object) : Object := { object with objectSize := n }

section Resize

variable {n : Nat} {object : Object}

@[simp] theorem resize_minPages : (resize n object).minPages = object.minPages := rfl

@[simp] theorem resize_kerninfo : (resize n object).kerninfo = object.kerninfo := rfl

@[simp] theorem resize_requests : (resize n object).requests = object.requests := rfl

@[simp] theorem resize_allocated : (resize n object).allocated = object.allocated := rfl

@[simp] theorem resize_sent : (resize n object).sent = object.sent := rfl

@[simp] theorem setPage_resize (page : Nat) (change : MinPage → MinPage) :
    (resize n object).setPage page change = resize n (object.setPage page change) := rfl

@[simp] theorem setRequest_resize (r : Nat) (change : Request → Request) :
    (resize n object).setRequest r change = resize n (object.setRequest r change) := rfl

@[simp] theorem send_resize (kernel : Nat) (kind : Kind) (offset length : Nat) :
    (resize n object).send kernel kind offset length =
      resize n (object.send kernel kind offset length) := rfl

@[simp] theorem reqMark_resize (r kernel : Nat) :
    (resize n object).reqMark r kernel = resize n (object.reqMark r kernel) := rfl

@[simp] theorem reqUnmark_resize (r kernel : Nat) :
    (resize n object).reqUnmark r kernel = resize n (object.reqUnmark r kernel) := rfl

@[simp] theorem reqFree_resize (r : Nat) :
    (resize n object).reqFree r = resize n (object.reqFree r) := rfl

theorem forPages_hom {σ τ : Type} (f : σ → τ) {body : Nat → σ → σ} {body' : Nat → τ → τ}
    (commutes : ∀ page state, body' page (f state) = f (body page state)) (first last : Nat)
    (state : σ) : forPages first last body' (f state) = f (forPages first last body state) :=
  List.foldl_hom f fun state page => commutes page state

theorem setForall_hom {σ τ : Type} (f : σ → τ) {set : σ → BitVec 32} {set' : τ → BitVec 32}
    {body : Nat → σ → σ} {body' : Nat → τ → τ} (same : ∀ state, set' (f state) = set state)
    (commutes : ∀ elt state, body' elt (f state) = f (body elt state)) (state : σ) :
    setForall set' body' (f state) = f (setForall set body state) := by
  refine List.foldl_hom f fun state elt => ?_
  rw [same, commutes]
  split
  · rfl
  · rfl

@[simp] theorem forPages_setPage_resize (first last : Nat) (change : MinPage → MinPage) :
    forPages first last (fun page object => object.setPage page change) (resize n object) =
      resize n (forPages first last (fun page object => object.setPage page change) object) := by
  refine forPages_hom (resize n) (fun _ _ => ?_) first last object
  rfl

@[simp] theorem dataProvided_resize (kernel offset : Nat) (prot : Kind) :
    (resize n object).dataProvided kernel offset prot =
      resize n (object.dataProvided kernel offset prot) := by
  by_cases small : (object.kerninfo kernel).realPageSize < minPageSize
  · simp only [dataProvided, resize_kerninfo, small, if_true]
    refine List.foldl_hom (resize n) fun _ _ => ?_
    rfl
  · simp only [dataProvided, resize_kerninfo, small, if_false, send_resize]

@[simp] theorem addReader_resize (first last kernel : Nat) :
    (resize n object).addReader first last kernel =
      resize n (object.addReader first last kernel) := by
  simp only [addReader, forPages_setPage_resize, dataProvided_resize]

@[simp] theorem bootReader_resize (reader itsOffset itsSize : Nat) :
    (resize n object).bootReader reader itsOffset itsSize =
      resize n (object.bootReader reader itsOffset itsSize) :=
  congrArg (fun object => send object reader .lockReader itsOffset itsSize)
    (List.foldl_hom (resize n) (fun _ _ => rfl))

@[simp] theorem bootBiggerReaders_resize (first kernel : Nat) :
    (resize n object).bootBiggerReaders first kernel =
      resize n (object.bootBiggerReaders first kernel) := by
  by_cases read : (object.minPages first).use = .read
  · simp only [bootBiggerReaders, resize_minPages, resize_kerninfo, read, if_true]
    refine setForall_hom (resize n) (fun _ => ?_) (fun reader object => ?_) object
    · rfl
    · simp only [resize_kerninfo, bootReader_resize, apply_ite (resize n)]
  · simp only [bootBiggerReaders, resize_minPages, read, if_false]

@[simp] theorem bootReaders_resize (first last kernel : Nat) :
    (resize n object).bootReaders first last kernel =
      (resize n (object.bootReaders first last kernel).1,
        (object.bootReaders first last kernel).2) := by
  have booted : ∀ page (state : Object × Bool),
      setForall (fun state : Object × Bool => (state.1.minPages page).readers)
        (fun reader state => if reader = kernel then (state.1, true)
          else (state.1.bootReader reader (pageToOffset page)
            (state.1.kerninfo reader).pageSize, state.2)) (resize n state.1, state.2) =
      Prod.map (resize n) id (setForall (fun state => (state.1.minPages page).readers)
        (fun reader state => if reader = kernel then (state.1, true)
          else (state.1.bootReader reader (pageToOffset page)
            (state.1.kerninfo reader).pageSize, state.2)) state) := by
    intro page state
    refine setForall_hom (Prod.map (resize n) id) (fun _ => ?_) (fun reader state => ?_) state
    · rfl
    · by_cases self : reader = kernel
      · simp only [self, if_true, Prod.map, id]
      · simp only [Prod.map, resize_kerninfo, bootReader_resize, self, if_false, id]
  unfold bootReaders
  refine forPages_hom (Prod.map (resize n) id) (fun page state => ?_) first last (object, false)
  by_cases read : (state.1.minPages page).use = .read
  · simp only [Prod.map, resize_minPages, read, if_true]
    exact booted page state
  · simp only [Prod.map, resize_minPages, read, if_false]

@[simp] theorem addWriter_resize (first last kernel : Nat) (needsData : Bool) :
    (resize n object).addWriter first last kernel needsData =
      resize n (object.addWriter first last kernel needsData) := by
  simp only [addWriter, bootBiggerReaders_resize, bootReaders_resize, forPages_setPage_resize,
    dataProvided_resize, send_resize, resize_kerninfo, apply_ite (resize n)]

@[simp] theorem bootWriters_resize (r last fuel page : Nat) :
    bootWriters r last fuel page (resize n object) =
      (bootWriters r last fuel page object).map (resize n) := by
  induction fuel generalizing page object with
  | zero =>
      simp only [bootWriters, apply_ite (Option.map (resize n)), Option.map_none, Option.map_some]
  | succ fuel ih =>
      simp only [bootWriters, resize_minPages, resize_kerninfo, setPage_resize, reqMark_resize,
        send_resize, setRequest_resize, ih, apply_ite (Option.map (resize n)), Option.map_some]

@[simp] theorem addExpecting_resize (r : Nat) :
    (resize n object).addExpecting r = (object.addExpecting r).map (resize n) := by
  simp only [addExpecting, resize_requests, setRequest_resize, forPages_setPage_resize,
    resize_minPages, resize_kerninfo, setPage_resize, reqMark_resize, send_resize,
    bootWriters_resize]
  cases (object.requests r).kernel with
  | none => rfl
  | some kernel =>
      simp only [apply_ite (Option.map (resize n)), Option.map_some]

@[simp] theorem followTail_resize (r page : Nat) :
    (resize n object).followTail r page = resize n (object.followTail r page) := by
  simp only [followTail, resize_minPages, resize_requests, setRequest_resize]
  cases (object.minPages page).tail with
  | none => rfl
  | some tail =>
      by_cases last : (object.requests tail).follow = none
      · simp only [last, if_true, setPage_resize]
      · simp only [last, if_false, setPage_resize]

@[simp] theorem insertSibling_resize (r fuel s : Nat) :
    (resize n object).insertSibling r fuel s =
      (object.insertSibling r fuel s).map (resize n) := by
  induction fuel generalizing s with
  | zero => rfl
  | succ fuel ih =>
      simp only [insertSibling, resize_requests, setRequest_resize, ih]
      cases (object.requests s).sibling with
      | none => rfl
      | some next =>
          simp only [apply_ite (Option.map (resize n)), Option.map_some]

@[simp] theorem addSleeping_resize (r : Nat) :
    (resize n object).addSleeping r = (object.addSleeping r).map (resize n) := by
  have followed : ∀ first last (object : Object),
      forPages first last (fun page object => object.followTail r page) (resize n object) =
        resize n (forPages first last (fun page object => object.followTail r page) object) := by
    refine fun first last object => forPages_hom (resize n) (fun _ _ => ?_) first last object
    exact followTail_resize _ _
  simp only [addSleeping, resize_requests, setRequest_resize, resize_minPages, followed,
    resize_allocated, insertSibling_resize, apply_ite (Option.map (resize n)), Option.map_some,
    Option.map_bind]
  congr 2
  funext tail
  dsimp only [Function.comp_apply]
  split
  · rfl
  · simp only [apply_ite (Option.map (resize n)), Option.map_some]

@[simp] theorem setHeads_resize (writer fuel : Nat) (r : Option Nat) :
    setHeads writer fuel r (resize n object) = (setHeads writer fuel r object).map (resize n) := by
  induction fuel generalizing r object with
  | zero => cases r <;> rfl
  | succ fuel ih =>
      cases r with
      | none => rfl
      | some r =>
          simp only [setHeads, resize_requests, setPage_resize, reqMark_resize, ih]

theorem satisfySiblings_resize {satisfy : Nat → Object → Option Object}
    (commutes : ∀ r object, satisfy r (resize n object) = (satisfy r object).map (resize n))
    (fuel : Nat) (r : Option Nat) :
    satisfySiblings satisfy fuel r (resize n object) =
      (satisfySiblings satisfy fuel r object).map (resize n) := by
  induction fuel generalizing r object with
  | zero => cases r <;> rfl
  | succ fuel ih =>
      cases r with
      | none => rfl
      | some r =>
          simp only [satisfySiblings, commutes, Option.bind_map, Option.map_bind,
            Function.comp_def, resize_requests, reqFree_resize, ih]

@[simp] theorem satisfyKernel_resize (kernel first last : Nat) :
    (resize n object).satisfyKernel kernel first last =
      (resize n (object.satisfyKernel kernel first last).1,
        (object.satisfyKernel kernel first last).2) := by
  by_cases waits : setMember (object.minPages first).writeWaiters kernel
  · simp only [satisfyKernel, resize_minPages, setPage_resize, addWriter_resize, waits, if_true]
  · simp only [satisfyKernel, resize_minPages, setPage_resize, addReader_resize, waits, if_false,
      Bool.false_eq_true, reduceCtorEq]

@[simp] theorem satisfyRequest_resize (junk : Nat → Junk) (fuel r : Nat) :
    satisfyRequest junk fuel r (resize n object) =
      (satisfyRequest junk fuel r object).map (resize n) := by
  induction fuel generalizing r object with
  | zero => rfl
  | succ fuel ih =>
      have siblings : ∀ count r (object : Object),
          satisfySiblings (satisfyRequest junk fuel) count r (resize n object) =
            (satisfySiblings (satisfyRequest junk fuel) count r object).map (resize n) :=
        fun count r object => satisfySiblings_resize (fun r object => ih r) count r
      rcases kernel : (object.requests r).kernel with _ | kernel
      all_goals
        simp only [satisfyRequest, resize_requests, kernel, satisfyKernel_resize,
          forPages_setPage_resize]
        generalize forPages _ _ _ _ = object'
        rcases (object'.requests r).follow with _ | x
        · rfl
        · simp only [resize_requests, setRequest_resize, bootWriters_resize, resize_minPages,
            resize_kerninfo, send_resize, setHeads_resize, resize_allocated, siblings, ih,
            reqFree_resize, apply_ite (Option.map (resize n)), Option.map_some, Option.bind_map,
            Option.map_bind, Function.comp_def]

@[simp] theorem haveWriter_resize (first last : Nat) :
    (resize n object).haveWriter first last = object.haveWriter first last := rfl

@[simp] theorem haveExpecting_resize (first last : Nat) :
    (resize n object).haveExpecting first last = object.haveExpecting first last := rfl

@[simp] theorem stillWriting_resize (kernel first last : Nat) :
    (resize n object).stillWriting kernel first last = object.stillWriting kernel first last := rfl

@[simp] theorem reqAlloc_resize :
    (resize n object).reqAlloc = (object.reqAlloc.1, resize n object.reqAlloc.2) := by
  cases first : object.freeRequests with
  | none => simp only [reqAlloc, first, resize]
  | some r => simp only [reqAlloc, first, resize]

@[simp] theorem addRequest_resize (kernel first last : Nat) (write data : Bool) :
    (resize n object).addRequest kernel first last write data =
      (object.addRequest kernel first last write data).map (resize n) := by
  simp only [addRequest, reqAlloc_resize, setRequest_resize, setPage_resize, haveExpecting_resize,
    addSleeping_resize, addExpecting_resize, apply_ite (Option.map (resize n))]

@[simp] theorem addReadingKernel_resize (kernel offset length : Nat) (needsData : Bool) :
    (resize n object).addReadingKernel kernel offset length needsData =
      (object.addReadingKernel kernel offset length needsData).map (resize n) := by
  simp only [addReadingKernel, stillWriting_resize, dataProvided_resize, send_resize,
    resize_minPages, haveWriter_resize, addRequest_resize, addReader_resize,
    apply_ite (Option.map (resize n)), Option.map_some]
  rfl

@[simp] theorem addWritingKernel_resize (kernel offset length : Nat) (needsData : Bool) :
    (resize n object).addWritingKernel kernel offset length needsData =
      (object.addWritingKernel kernel offset length needsData).map (resize n) := by
  simp only [addWritingKernel, stillWriting_resize, dataProvided_resize, send_resize,
    resize_minPages, haveWriter_resize, addRequest_resize, addWriter_resize, setPage_resize,
    apply_ite (Option.map (resize n)), Option.map_some]

@[simp] theorem satisfyHeads_resize (junk : Nat → Junk) (kernel last fuel page : Nat) :
    satisfyHeads junk kernel last fuel page (resize n object) =
      (satisfyHeads junk kernel last fuel page object).map (resize n) := by
  induction fuel generalizing page object with
  | zero =>
      simp only [satisfyHeads, apply_ite (Option.map (resize n)), Option.map_none, Option.map_some]
  | succ fuel ih =>
      simp only [satisfyHeads, resize_minPages, apply_ite (Option.map (resize n)), Option.map_some]
      cases (object.minPages page).head with
      | none => simp only [ih]
      | some r =>
          simp only [setPage_resize, reqUnmark_resize, resize_requests, resize_allocated,
            satisfyRequest_resize, Option.bind_map, Option.map_bind, Function.comp_def,
            reqFree_resize, ih]

@[simp] theorem subtractKernel_resize (junk : Nat → Junk) (kernel offset : Nat) (data : Bool)
    (length : Nat) :
    (resize n object).subtractKernel junk kernel offset data length =
      (object.subtractKernel junk kernel offset data length).map (resize n) := by
  simp only [subtractKernel, resize_minPages, setPage_resize, forPages_setPage_resize]
  generalize forPages _ _ _ object = object'
  rcases (object'.minPages _).head with _ | r
  all_goals
    simp only [resize_requests, reqUnmark_resize, setRequest_resize, resize_allocated,
      satisfyRequest_resize, satisfyHeads_resize, reqFree_resize,
      apply_ite (Option.map (resize n)), Option.map_some, Option.bind_map, Option.map_bind,
      Function.comp_def]

@[simp] theorem portToKernel_resize (port : Nat) :
    (resize n object).portToKernel port = object.portToKernel port := rfl

@[simp] theorem resize_self : resize object.objectSize object = object := rfl

/-- A request for a page inside of the object does not depend on its size. -/
theorem memoryObjectRequest_resize {offset : Nat} (port length : Nat) (write needsData : Bool)
    (inside : offset < object.objectSize) (larger : object.objectSize ≤ n) :
    (resize n object).memoryObjectRequest port offset length write needsData =
      (object.memoryObjectRequest port offset length write needsData).map (resize n) := by
  unfold memoryObjectRequest
  by_cases known : port = 0
  · rw [if_pos known, if_pos known]
    rfl
  · rw [if_neg known, if_neg known, portToKernel_resize, Option.map_bind]
    refine congrArg _ (funext fun kernel => ?_)
    have before : ¬offset ≥ (resize n object).objectSize :=
      Nat.not_le.mpr (inside.trans_le larger)
    by_cases small : (object.kerninfo kernel).realPageSize < minPageSize
    all_goals
      simp only [Function.comp_apply, resize_kerninfo, before, Nat.not_le.mpr inside, or_false,
        small, if_true, if_false, addWritingKernel_resize, addReadingKernel_resize,
        apply_ite (Option.map (resize n)), Option.map_none]

theorem inside_of_request {port offset length : Nat} {write needsData : Bool} {object' : Object}
    (served : object.memoryObjectRequest port offset length write needsData = some object') :
    offset < object.objectSize := by
  unfold memoryObjectRequest at served
  split at served
  · cases served
  obtain ⟨kernel, -, served⟩ := Option.bind_eq_some_iff.mp served
  dsimp only at served
  split at served
  · cases served
  next fits => exact Nat.not_le.mp fun outside => fits (Or.inr (Or.inr outside))

theorem memoryObjectLockCompleted_resize {junk : Nat → Junk} {port offset length : Nat}
    {object' : Object} (larger : object.objectSize ≤ n) (inside : offset < object.objectSize)
    (served : object.memoryObjectLockCompleted junk port offset length = some object') :
    (resize n object).memoryObjectLockCompleted junk port offset length =
      some (resize n object') := by
  unfold memoryObjectLockCompleted at served ⊢
  split at served
  · obtain rfl := Option.some.inj served
    rw [if_pos ‹_›]
  next known =>
  rw [if_neg known, portToKernel_resize]
  cases found : object.portToKernel port with
  | none =>
      rw [found] at served
      obtain rfl := Option.some.inj served
      rfl
  | some kernel =>
      rw [found] at served
      dsimp only [resize_kerninfo] at served ⊢
      rw [if_neg (c := offset ≥ object.objectSize) (Nat.not_le.mpr inside)] at served
      rw [if_neg (c := offset ≥ (resize n object).objectSize)
        (Nat.not_le.mpr (inside.trans_le larger)), subtractKernel_resize]
      split_ifs at served ⊢
      · exact congrArg (fun object => some (resize n object)) (Option.some.inj served)
      · exact congrArg (fun object => some (resize n object)) (Option.some.inj served)
      · rw [served]
        rfl

end Resize

end Object

def System.resize (n : Nat) (s : System) : System := { s with object := s.object.resize n }

/-- The step does not depend on how large the object is: a kernel with too large pages is not
let in, and a message about pages behind the end is ignored. -/
def inside (maxPageSize : Nat) (s : System) : Event → Bool
  | .attach _ pageSize => decide (pageSize ≤ maxPageSize)
  | .request .. => true
  | .lockCompleted serial _ =>
      match messageAt s.object.sent serial with
      | none => false
      | some message => decide (message.offset < s.object.objectSize)

section Runs

variable {maxPageSize max n : Nat} {s s' : System} {event : Event}

theorem stepUpTo_resize (larger : maxPageSize ≤ max) (fits : s.object.objectSize ≤ n)
    (within : inside maxPageSize s event = true)
    (ran : stepUpTo maxPageSize s event = some s') :
    stepUpTo max (s.resize n) event = some (s'.resize n) := by
  cases event with
  | attach port pageSize =>
      have small : pageSize ≤ maxPageSize := of_decide_eq_true within
      obtain rfl := Option.some.inj ran
      refine congrArg some ?_
      simp only [System.resize, System.mk.injEq, and_true]
      unfold Object.memoryObjectInitUpTo
      rw [if_neg (Nat.not_lt.mpr small), if_neg (Nat.not_lt.mpr (small.trans larger)),
        Object.portToKernel_resize, Object.portToKernel_resize]
      cases s.object.portToKernel 0 with
      | none => split_ifs <;> rfl
      | some kernel => split_ifs <;> rfl
  | request port offset length write needsData =>
      rw [stepUpTo] at ran ⊢
      split at ran
      · cases ran
      · next aligned =>
          obtain ⟨object, served, result⟩ := Option.bind_eq_some_iff.mp ran
          obtain rfl := Option.some.inj result
          rw [if_neg aligned, System.resize, Object.memoryObjectRequest_resize _ _ _ _
            (Object.inside_of_request served) fits, served]
          rfl
  | lockCompleted serial junk =>
      rw [stepUpTo] at ran ⊢
      obtain ⟨message, logged, ran⟩ := Option.bind_eq_some_iff.mp ran
      rw [inside, logged] at within
      split at ran
      · next pending =>
          obtain ⟨object, served, result⟩ := Option.bind_eq_some_iff.mp ran
          obtain rfl := Option.some.inj result
          have served' := Object.memoryObjectLockCompleted_resize fits
            (of_decide_eq_true within) served
          change (messageAt s.object.sent serial).bind _ = _
          rw [logged, Option.bind_some]
          change (if message.kind = .lockWriter ∧ serial ∉ s.acked then _ else _) = _
          rw [if_pos pending, System.resize, served']
          rfl
      · cases ran

/-- An object keeps its size. -/
theorem objectSize_of_step (within : inside maxPageSize s event = true)
    (ran : stepUpTo maxPageSize s event = some s') :
    s'.object.objectSize = s.object.objectSize := by
  have again := stepUpTo_resize (Nat.le_refl _) (Nat.le_refl _) within ran
  have same : s' = s'.resize s.object.objectSize := Option.some.inj (ran.symm.trans again)
  rw [same]
  rfl

/-- A run that does not depend on how large the object is. -/
def runInside (maxPageSize : Nat) : System → List Event → Option System
  | s, [] => some s
  | s, event :: events =>
      if inside maxPageSize s event then
        (stepUpTo maxPageSize s event).bind fun s => runInside maxPageSize s events
      else none

/-- The state is reached in every object that is no smaller and with every bound on the page
sizes that is no smaller. -/
theorem reachable_of_runInside {events : List Event} (larger : maxPageSize ≤ max)
    (fits : s.object.objectSize ≤ n) (ran : runInside maxPageSize s events = some s')
    (start : (machineUpTo max).Reachable Library.Machine.always (s.resize n)) :
    (machineUpTo max).Reachable Library.Machine.always (s'.resize n) := by
  induction events generalizing s with
  | nil =>
      obtain rfl := Option.some.inj ran
      exact start
  | cons event events ih =>
      rw [runInside] at ran
      split at ran
      · next within =>
          obtain ⟨middle, first, rest⟩ := Option.bind_eq_some_iff.mp ran
          refine ih ?_ rest (start.step trivial (stepUpTo_resize larger fits within first))
          rw [objectSize_of_step within first]
          exact fits
      · cases ran

end Runs

end MachFormal.NetMemory
