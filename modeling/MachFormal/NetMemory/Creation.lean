import MachFormal.NetMemory.Scheduler

/-!
# Creation of network memory objects

`netmemory_cover` takes a block from `malloc`, fills in a part of the object and
leaves the rest of the block as it was.  What the block held, and how `malloc`,
`calloc`, the ports and the virtual memory calls answer, are inputs.  Pointers
and ports are numbers, 0 is the null pointer and `PORT_NULL`.  The integers of
the object have their widths.
-/

namespace MachFormal.NetMemory.Creation

abbrev Word := BitVec 32

abbrev Short := BitVec 16

structure FaultInfo where
  readFaults : Word := 0
  writeFaults : Word := 0
  protectionFaults : Word := 0
  deriving DecidableEq, Repr

/-- A slot of the table of kernels. -/
structure KernelSlot where
  requestPort : Nat
  pageSize : Short
  realPageSize : Short
  deriving DecidableEq, Repr

/-- The memory of an `object_t`, with the arrays it points to. -/
structure ObjectBlock where
  storage : Nat
  pagingObject : Nat
  controlPort : Nat
  objectSize : Word
  kerninfo : Nat → KernelSlot
  schedinfo : Nat
  faultsPerPage : List FaultInfo
  faultsTotal : FaultInfo
  next : Nat
  minPages : List MinPage
  freeRequests : Nat
  allRequests : Nat
  mark : Short
  outstanding : Nat → Bool → Short
  inactivity : Word

inductive Status where
  | success
  | invalidArgument
  | resourceShortage
  /-- The status of `vm_copy`. -/
  | kernel (code : Nat)
  deriving DecidableEq, Repr

/-- How the calls that `netmemory_cover` makes are answered: `none` and `false` are failures. -/
structure Answers where
  vmPageSize : Word
  malloc : Option ObjectBlock
  pagingPort : Option Nat
  controlPort : Option Nat
  padding : Bool
  storage : Option Nat
  vmCopy : Option Nat
  faultsPerPage : Bool
  calloc : Bool
  objectList : Nat

/-- Data that came in a message fills whole pages. -/
def messageSize (vmPageSize : Word) (objectData : Bool) (objectSize : Word) : Word :=
  if objectData ∧ objectSize &&& (vmPageSize - 1) ≠ 0 then
    (objectSize + (vmPageSize - 1)) &&& ~~~(vmPageSize - 1)
  else objectSize

/-- The size of the object, rounded up to pages of the largest size. -/
def coverSize (vmPageSize : Word) (objectData : Bool) (objectSize : Word) : Word :=
  let size := messageSize vmPageSize objectData objectSize
  if size &&& 8191#32 ≠ 0 then (1#32 + (size >>> 13)) <<< 13 else size

def objectCreate (answers : Answers) (object : ObjectBlock) : Except Status ObjectBlock :=
  if answers.calloc then
    .ok { object with minPages := List.replicate (object.objectSize >>> 12).toNat {} }
  else .error .resourceShortage

/-- The storage of the object: the data of the message, padded in place or copied, or new
memory. -/
def coverStorage (answers : Answers) (objectData : Option Nat) (oldSize size : Word) :
    Except Status Nat :=
  match objectData with
  | some data =>
      if oldSize < size then
        if answers.padding then .ok data
        else
          match answers.storage with
          | none => .error .resourceShortage
          | some storage =>
              match answers.vmCopy with
              | some code => .error (.kernel code)
              | none => .ok storage
      else .ok data
  | none =>
      match answers.storage with
      | none => .error .resourceShortage
      | some storage => .ok storage

/-- The part of `netmemory_cover` that fills in the block. -/
def coverBlock (answers : Answers) (block : ObjectBlock) (pagingObject controlPort storage : Nat)
    (size : Word) : Except Status ObjectBlock :=
  if answers.faultsPerPage then
    (objectCreate answers { block with
      pagingObject := pagingObject
      controlPort := controlPort
      storage := storage
      faultsPerPage := List.replicate (size >>> 12).toNat {}
      objectSize := size
      kerninfo := fun kernel =>
        if kernel < maxNumKernels then { block.kerninfo kernel with requestPort := 0 }
        else block.kerninfo kernel }).map
      (fun object => { object with next := answers.objectList })
  else .error .resourceShortage

def netmemoryCover (answers : Answers) (objectData : Option Nat) (objectSize : Word) :
    Except Status ObjectBlock :=
  if objectSize = 0 then .error .invalidArgument
  else
    let oldSize := messageSize answers.vmPageSize objectData.isSome objectSize
    let size := coverSize answers.vmPageSize objectData.isSome objectSize
    match answers.malloc, answers.pagingPort, answers.controlPort with
    | some block, some pagingObject, some controlPort =>
        match coverStorage answers objectData oldSize size with
        | .error status => .error status
        | .ok storage => coverBlock answers block pagingObject controlPort storage size
    | _, _, _ => .error .resourceShortage

/-! ## The first calls -/

/-- `req_alloc`; `follow` is what the heap holds and `fresh` is what `malloc` returns.  The request,
its link to the other requests if it is a new one, and the object. -/
def reqAlloc (follow : Nat → Nat) (fresh : Nat) (object : ObjectBlock) :
    Nat × Option Nat × ObjectBlock :=
  if object.freeRequests ≠ 0 then
    (object.freeRequests, none, { object with freeRequests := follow object.freeRequests })
  else (fresh, some object.allRequests, { object with allRequests := fresh })

/-- `! object->mark`. -/
def newMark (object : ObjectBlock) : Bool :=
  decide (object.mark = 0)

/-- The kernels that `_timed_out` finds overdue. -/
def overdue (object : ObjectBlock) : List Nat :=
  (List.range maxNumKernels).filter
    (fun kernel => decide (0 < (object.outstanding kernel (newMark object)).toInt))

/-- `paging_object_statistics`: the faults of every page, their number, and the total. -/
def statistics (object : ObjectBlock) : List FaultInfo × Word × FaultInfo :=
  (object.faultsPerPage, object.objectSize >>> 12, object.faultsTotal)

/-- What `paging_object_server_statistics` adds for the object. -/
def addFaults (total : FaultInfo) (object : ObjectBlock) : FaultInfo where
  readFaults := total.readFaults + object.faultsTotal.readFaults
  writeFaults := total.writeFaults + object.faultsTotal.writeFaults
  protectionFaults := total.protectionFaults + object.faultsTotal.protectionFaults

/-! ## What a new object holds -/

/-- Every field that is read before it is written is empty. -/
structure Clean (object : ObjectBlock) : Prop where
  freeRequests : object.freeRequests = 0
  allRequests : object.allRequests = 0
  mark : object.mark = 0
  outstanding : ∀ kernel < maxNumKernels, ∀ mark, object.outstanding kernel mark = 0
  faultsTotal : object.faultsTotal = {}
  kerninfo : ∀ kernel < maxNumKernels, (object.kerninfo kernel).requestPort = 0
  minPages : object.minPages = List.replicate (object.objectSize >>> 12).toNat {}

/-- The first allocation of a request, the first timeout and the first statistics are the same
for both objects. -/
structure CallsAlike (object object' : ObjectBlock) : Prop where
  request : ∀ follow fresh, (reqAlloc follow fresh object).1 = (reqAlloc follow fresh object').1
  link : ∀ follow fresh, (reqAlloc follow fresh object).2.1 = (reqAlloc follow fresh object').2.1
  lists : ∀ follow fresh,
    (reqAlloc follow fresh object).2.2.freeRequests =
      (reqAlloc follow fresh object').2.2.freeRequests ∧
    (reqAlloc follow fresh object).2.2.allRequests =
      (reqAlloc follow fresh object').2.2.allRequests
  mark : newMark object = newMark object'
  overdue : overdue object = overdue object'
  statistics : statistics object = statistics object'
  faults : ∀ total, addFaults total object = addFaults total object'

/-- The members of the block that nobody fills in happen to be empty. -/
structure Blank (block : ObjectBlock) : Prop where
  freeRequests : block.freeRequests = 0
  allRequests : block.allRequests = 0
  mark : block.mark = 0
  outstanding : ∀ kernel < maxNumKernels, ∀ mark, block.outstanding kernel mark = 0
  faultsTotal : block.faultsTotal = {}

section Cover

variable {answers : Answers} {objectData : Option Nat} {objectSize : Word}
  {block block' object object' : ObjectBlock}

theorem netmemoryCover_ok (hcover : netmemoryCover answers objectData objectSize = .ok object) :
    ∃ block storage pagingObject controlPort, answers.malloc = some block ∧
      object = { block with
        storage := storage
        pagingObject := pagingObject
        controlPort := controlPort
        objectSize := coverSize answers.vmPageSize objectData.isSome objectSize
        kerninfo := fun kernel =>
          if kernel < maxNumKernels then { block.kerninfo kernel with requestPort := 0 }
          else block.kerninfo kernel
        faultsPerPage := List.replicate
          (coverSize answers.vmPageSize objectData.isSome objectSize >>> 12).toNat {}
        next := answers.objectList
        minPages := List.replicate
          (coverSize answers.vmPageSize objectData.isSome objectSize >>> 12).toNat {} } := by
  unfold netmemoryCover at hcover
  split at hcover
  · cases hcover
  · split at hcover
    · next block pagingObject controlPort hmalloc _ _ =>
        dsimp only at hcover
        split at hcover
        · cases hcover
        · next storage hstorage =>
            unfold coverBlock objectCreate at hcover
            split at hcover
            · split at hcover
              · cases hcover
                exact ⟨block, storage, pagingObject, controlPort, hmalloc, rfl⟩
              · cases hcover
            · cases hcover
    · cases hcover

/-- A block leaves its traces in the object exactly where nobody fills it in. -/
theorem clean_iff_blank (hmalloc : answers.malloc = some block)
    (hcover : netmemoryCover answers objectData objectSize = .ok object) :
    Clean object ↔ Blank block := by
  obtain ⟨found, storage, pagingObject, controlPort, hfound, rfl⟩ := netmemoryCover_ok hcover
  obtain rfl : found = block := Option.some.inj (hfound.symm.trans hmalloc)
  constructor
  · intro clean
    exact ⟨clean.freeRequests, clean.allRequests, clean.mark, clean.outstanding,
      clean.faultsTotal⟩
  · intro blank
    refine ⟨blank.freeRequests, blank.allRequests, blank.mark, blank.outstanding,
      blank.faultsTotal, fun kernel hkernel => ?_, rfl⟩
    dsimp only
    rw [if_pos hkernel]

theorem Clean.overdue_nil (clean : Clean object) : overdue object = [] := by
  refine List.filter_eq_nil_iff.mpr (fun kernel hkernel => ?_)
  rw [clean.outstanding kernel (List.mem_range.mp hkernel)]
  decide

theorem Clean.callsAlike (clean : Clean object) (clean' : Clean object')
    (hsize : object.objectSize = object'.objectSize)
    (hfaults : object.faultsPerPage = object'.faultsPerPage) : CallsAlike object object' where
  request := by
    intro follow fresh
    simp only [reqAlloc, clean.freeRequests, clean'.freeRequests]
    rfl
  link := by
    intro follow fresh
    simp only [reqAlloc, clean.freeRequests, clean'.freeRequests, clean.allRequests,
      clean'.allRequests]
    rfl
  lists := by
    intro follow fresh
    simp [reqAlloc, clean.freeRequests, clean'.freeRequests]
  mark := by rw [newMark, newMark, clean.mark, clean'.mark]
  overdue := by rw [clean.overdue_nil, clean'.overdue_nil]
  statistics := by
    rw [statistics, statistics, clean.faultsTotal, clean'.faultsTotal, hsize, hfaults]
  faults := by
    intro total
    rw [addFaults, addFaults, clean.faultsTotal, clean'.faultsTotal]

/-- Two objects that are created in the same way from two blocks are both clean, and answer the
first calls alike, exactly if both blocks happen to be blank. -/
theorem clean_alike_iff (answers : Answers) (objectData : Option Nat) (objectSize : Word)
    (block block' object object' : ObjectBlock)
    (hcover : netmemoryCover { answers with malloc := some block } objectData objectSize =
      .ok object)
    (hcover' : netmemoryCover { answers with malloc := some block' } objectData objectSize =
      .ok object') :
    (Clean object ∧ Clean object' ∧ CallsAlike object object') ↔ (Blank block ∧ Blank block') := by
  have hfirst := clean_iff_blank rfl hcover
  have hsecond := clean_iff_blank rfl hcover'
  constructor
  · rintro ⟨clean, clean', -⟩
    exact ⟨hfirst.mp clean, hsecond.mp clean'⟩
  · rintro ⟨blank, blank'⟩
    have clean := hfirst.mpr blank
    have clean' := hsecond.mpr blank'
    refine ⟨clean, clean', clean.callsAlike clean' ?_ ?_⟩
    · obtain ⟨_, _, _, _, _, rfl⟩ := netmemoryCover_ok hcover
      obtain ⟨_, _, _, _, _, rfl⟩ := netmemoryCover_ok hcover'
      rfl
    · obtain ⟨_, _, _, _, _, rfl⟩ := netmemoryCover_ok hcover
      obtain ⟨_, _, _, _, _, rfl⟩ := netmemoryCover_ok hcover'
      rfl

/-! ## The size -/

/-- The size is rounded up, and wraps around when the rounded size does not fit. -/
theorem toNat_roundUp (size : Word) :
    (if size &&& 8191#32 ≠ 0 then (1#32 + (size >>> 13)) <<< 13 else size).toNat =
      (size.toNat + 8191) / 8192 * 8192 % 2 ^ 32 := by
  have hmod : (size &&& 8191#32).toNat = size.toNat % 8192 := by
    rw [BitVec.toNat_and]
    exact Nat.and_two_pow_sub_one_eq_mod size.toNat 13
  have hlt := size.isLt
  by_cases hrest : size.toNat % 8192 = 0
  · have hzero : size &&& 8191#32 = 0 := BitVec.eq_of_toNat_eq (by rw [hmod, hrest]; rfl)
    rw [if_neg (not_not.mpr hzero)]
    omega
  · have hne : size &&& 8191#32 ≠ 0 := fun heq => hrest (by rw [← hmod, heq]; rfl)
    rw [if_pos hne, BitVec.toNat_shiftLeft, BitVec.toNat_add, BitVec.toNat_ushiftRight,
      Nat.shiftRight_eq_div_pow, Nat.shiftLeft_eq]
    have hone : (1#32).toNat = 1 := rfl
    rw [hone]
    omega

theorem coverSize_dvd (vmPageSize : Word) (objectData : Bool) (objectSize : Word) :
    maxPageSize ∣ (coverSize vmPageSize objectData objectSize).toNat := by
  rw [coverSize, toNat_roundUp]
  unfold maxPageSize
  omega

/-- A block of zeros. -/
def zeroBlock : ObjectBlock where
  storage := 0
  pagingObject := 0
  controlPort := 0
  objectSize := 0
  kerninfo := fun _ => ⟨0, 0, 0⟩
  schedinfo := 0
  faultsPerPage := []
  faultsTotal := {}
  next := 0
  minPages := []
  freeRequests := 0
  allRequests := 0
  mark := 0
  outstanding := fun _ _ => 0
  inactivity := 0

/-- Every call succeeds. -/
def allGranted (block : ObjectBlock) : Answers where
  vmPageSize := 4096
  malloc := some block
  pagingPort := some 7
  controlPort := some 8
  padding := true
  storage := some 65536
  vmCopy := none
  faultsPerPage := true
  calloc := true
  objectList := 0

/-- A recycled block whose members that are filled in differ from those of a block of zeros. -/
def harmlessBlock : ObjectBlock :=
  { zeroBlock with storage := 99, kerninfo := fun _ => ⟨3, 512, 512⟩, schedinfo := 5, next := 1 }

theorem clean_alike_harmless :
    ∃ object object',
      netmemoryCover (allGranted zeroBlock) none 5000 = .ok object ∧
      netmemoryCover (allGranted harmlessBlock) none 5000 = .ok object' ∧
      ((Clean object ∧ Clean object' ∧ CallsAlike object object') ↔
        (Blank zeroBlock ∧ Blank harmlessBlock)) ∧ Blank zeroBlock ∧ Blank harmlessBlock := by
  refine ⟨_, _, rfl, rfl, clean_alike_iff (allGranted zeroBlock) none 5000 _ _ _ _ rfl rfl, ?_, ?_⟩
  · exact ⟨rfl, rfl, rfl, fun _ _ _ => rfl, rfl⟩
  · exact ⟨rfl, rfl, rfl, fun _ _ _ => rfl, rfl⟩

/-- A block that was an object with a free request, a set mark and pending flushes before. -/
def recycledBlock : ObjectBlock :=
  { zeroBlock with
    freeRequests := 77
    mark := 1
    outstanding := fun kernel mark => if kernel = 5 ∧ mark = false then 3 else 0
    faultsTotal := ⟨10, 0, 0⟩ }

/-- The first request is taken from the list of the former object, the first timeout closes
kernel 5 although no kernel is attached, and the total counts faults of the former object. -/
theorem recycled_object_not_clean :
    ∃ object, netmemoryCover (allGranted recycledBlock) none 5000 = .ok object ∧
      ¬Clean object ∧ (reqAlloc (fun _ => 0) 500 object).1 = 77 ∧ overdue object = [5] ∧
      (addFaults {} object).readFaults = 10 := by
  refine ⟨_, rfl, fun clean => ?_, rfl, by decide, rfl⟩
  exact absurd clean.freeRequests (by decide)

end Cover

end MachFormal.NetMemory.Creation
