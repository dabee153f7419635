import MachFormal.Library.Machine
import Mathlib.Logic.Function.Basic
import Mathlib.Data.BitVec

/-!
# The network memory scheduler

A memory object is shared by up to 32 kernels whose pages are one or more
minimal pages long.  Every minimal page records how it is used, by whom, and
the first and the last request that waits for it; requests are linked by their
`follow` and `sibling` fields.  A request is named by the number of its
allocation, a minimal page by its index, and the messages to the kernels are
kept in a log, newest first.

Four things end a call without a result: a null pointer is followed, a loop
runs for longer than there are pages or requests, the recursion of
`satisfyRequest` is deeper than there are requests, or the caller is refused.
The uninitialised variables that `satisfyRequest` reads for a request of a
closed kernel are an input.
-/

namespace MachFormal.NetMemory

/-! ## Configuration -/

def minPageSize : Nat := 4096

def maxPageSize : Nat := 8192

def maxNumKernels : Nat := 32

def pageToOffset (page : Nat) : Nat := page * minPageSize

def offsetToPage (offset : Nat) : Nat := offset / minPageSize

/-! ## Sets of kernels -/

def setAdd (set : BitVec 32) (elt : Nat) : BitVec 32 := set ||| BitVec.twoPow 32 elt

def setDelete (set : BitVec 32) (elt : Nat) : BitVec 32 := set &&& ~~~ BitVec.twoPow 32 elt

def setMember (set : BitVec 32) (elt : Nat) : Bool := set.getLsbD elt

/-- `SET_FORALL`: the set is read again before every turn. -/
def setForall {σ : Type} (set : σ → BitVec 32) (body : Nat → σ → σ) (state : σ) : σ :=
  (List.range 32).foldl
    (fun state elt => if setMember (set state) elt then body elt state else state) state

/-- The loops over the minimal pages from `first` to `last`. -/
def forPages {σ : Type} (first last : Nat) (body : Nat → σ → σ) (state : σ) : σ :=
  (List.range' first (last + 1 - first)).foldl (fun state page => body page state) state

/-- A loop that looks for a minimal page from `first` to `last`. -/
def somePage (first last : Nat) (test : Nat → Bool) : Bool :=
  (List.range' first (last + 1 - first)).any test

/-! ## Data -/

inductive Use where
  | none
  | read
  | write
  deriving DecidableEq, Repr

/-- `struct min_page`.  The union `user` is one word whose low half is the writer. -/
structure MinPage where
  use : Use := .none
  user : BitVec 32 := 0
  head : Option Nat := Option.none
  tail : Option Nat := Option.none
  writeWaiters : BitVec 32 := 0
  dataWaiters : BitVec 32 := 0
  pendingCompletes : BitVec 32 := 0
  deriving DecidableEq, Repr

/-- `user.readers`. -/
def MinPage.readers (page : MinPage) : BitVec 32 := page.user

/-- `user.writer`. -/
def MinPage.writer (page : MinPage) : Nat := (page.user.setWidth 16).toNat

/-- Assignment to `user.writer`: the other half of the word stays. -/
def MinPage.setWriter (page : MinPage) (kernel : Nat) : MinPage :=
  { page with user := page.user.extractLsb' 16 16 ++ BitVec.ofNat 16 kernel }

/-- `struct request`; the kernel of a closed request is `-1`, here `none`. -/
structure Request where
  kernel : Option Nat := none
  firstPage : Nat := 0
  lastPage : Nat := 0
  follow : Option Nat := none
  sibling : Option Nat := none
  count : Int := 0
  mark : Bool := false
  deriving DecidableEq, Repr

/-- `struct kernel`; the port 0 is `PORT_NULL`. -/
structure Kernel where
  requestPort : Nat := 0
  pageSize : Nat := 0
  realPageSize : Nat := 0
  deriving DecidableEq, Repr

/-- What a message to a kernel asks for: data to read or to write, an unlock for
writing, a flush without and one with an acknowledgement. -/
inductive Kind where
  | supplyRead
  | supplyAll
  | unlockWriter
  | lockReader
  | lockWriter
  deriving DecidableEq, Repr

structure Message where
  port : Nat
  kind : Kind
  offset : Nat
  length : Nat
  deriving DecidableEq, Repr

/-- What the uninitialised variables of one call of `satisfy_request` hold. -/
structure Junk where
  firstPage : Nat := 1
  lastPage : Nat := 0
  use : Use := .none
  deriving DecidableEq, Repr

/-- `struct object`.  The requests ever allocated are those below `allocated`. -/
structure Object where
  objectSize : Nat
  kerninfo : Nat → Kernel := fun _ => {}
  minPages : Nat → MinPage := fun _ => {}
  requests : Nat → Request := fun _ => {}
  allocated : Nat := 0
  freeRequests : Option Nat := none
  mark : Bool := false
  outstanding : Nat → Bool → Int := fun _ _ => 0
  sent : List Message := []

namespace Object

def setPage (object : Object) (page : Nat) (change : MinPage → MinPage) : Object :=
  { object with
    minPages := Function.update object.minPages page (change (object.minPages page)) }

def setRequest (object : Object) (r : Nat) (change : Request → Request) : Object :=
  { object with
    requests := Function.update object.requests r (change (object.requests r)) }

def send (object : Object) (kernel : Nat) (kind : Kind) (offset length : Nat) : Object :=
  { object with
    sent := ⟨(object.kerninfo kernel).requestPort, kind, offset, length⟩ :: object.sent }

/-- `object->outstanding[kernel][mark] += delta`. -/
def addOutstanding (object : Object) (kernel : Nat) (mark : Bool) (delta : Int) : Object :=
  { object with
    outstanding := Function.update object.outstanding kernel
      (Function.update (object.outstanding kernel) mark
        (object.outstanding kernel mark + delta)) }

/-! ## Messages -/

/-- `DATA_PROVIDED`: a kernel with small pages gets a minimal page in pieces. -/
def dataProvided (object : Object) (kernel offset : Nat) (prot : Kind) : Object :=
  let size := (object.kerninfo kernel).realPageSize
  if size < minPageSize then
    (List.range ((minPageSize + size - 1) / size)).foldl
      (fun object piece => object.send kernel prot (offset + piece * size) size) object
  else object.send kernel prot offset size

/-! ## Request records -/

def reqAlloc (object : Object) : Nat × Object :=
  match object.freeRequests with
  | some r => (r, { object with freeRequests := (object.requests r).follow })
  | none => (object.allocated, { object with allocated := object.allocated + 1 })

def reqFree (object : Object) (r : Nat) : Object :=
  { object.setRequest r (fun request => { request with follow := object.freeRequests }) with
    freeRequests := some r }

def reqMark (object : Object) (r kernel : Nat) : Object :=
  (object.setRequest r (fun request => { request with mark := object.mark })).addOutstanding
    kernel object.mark 1

def reqUnmark (object : Object) (r kernel : Nat) : Object :=
  object.addOutstanding kernel (object.requests r).mark (-1)

/-! ## Readers and writers -/

def addReader (object : Object) (first last kernel : Nat) : Object :=
  (forPages first last
    (fun page object => object.setPage page (fun minPage =>
      let readers := if minPage.use = .none then 0 else minPage.user
      { minPage with
        use := if minPage.use = .none then .read else minPage.use
        user := setAdd readers kernel })) object).dataProvided
    kernel (pageToOffset first) .supplyRead

/-- The loop over `start` and `stop` in `add_writer`, and the flush after it. -/
def bootReader (object : Object) (reader itsOffset itsSize : Nat) : Object :=
  let start := itsOffset / minPageSize
  let stop := (itsOffset + itsSize) / minPageSize
  ((List.range' start (stop - start)).foldl
    (fun object page => object.setPage page
      (fun minPage => { minPage with user := setDelete minPage.readers reader })) object).send
    reader .lockReader itsOffset itsSize

/-- The first loop of `add_writer`: readers whose pages properly include ours. -/
def bootBiggerReaders (object : Object) (first kernel : Nat) : Object :=
  let offset := pageToOffset first
  let size := (object.kerninfo kernel).pageSize
  if (object.minPages first).use = .read then
    setForall (fun object => (object.minPages first).readers)
      (fun reader object =>
        let itsSize := (object.kerninfo reader).pageSize
        if itsSize > size then object.bootReader reader (offset ^^^ (itsSize - 1)) itsSize
        else object) object
  else object

/-- The second loop of `add_writer`; the flag is `we_were_reading`. -/
def bootReaders (object : Object) (first last kernel : Nat) : Object × Bool :=
  forPages first last
    (fun page state =>
      if (state.1.minPages page).use = .read then
        setForall (fun state => (state.1.minPages page).readers)
          (fun reader state =>
            if reader = kernel then (state.1, true)
            else (state.1.bootReader reader (pageToOffset page)
              (state.1.kerninfo reader).pageSize, state.2)) state
      else state) (object, false)

def addWriter (object : Object) (first last kernel : Nat) (needsData : Bool) : Object :=
  let offset := pageToOffset first
  let size := (object.kerninfo kernel).pageSize
  let (object, weWereReading) := (object.bootBiggerReaders first kernel).bootReaders
    first last kernel
  let object := forPages first last
    (fun page object => object.setPage page
      (fun minPage => { minPage.setWriter kernel with use := .write })) object
  if needsData || !weWereReading then object.dataProvided kernel offset .supplyAll
  else object.send kernel .unlockWriter offset size

/-! ## Waiting requests -/

/-- The loop that evicts the writers from `page` to `last` for request `r`, in
`add_expecting` and in `satisfy_request`. -/
def bootWriters (r last : Nat) : Nat → Nat → Object → Option Object
  | 0, page, object => if page ≤ last then none else some object
  | fuel + 1, page, object =>
      if page ≤ last then
        if (object.minPages page).use = .write then
          let writer := (object.minPages page).writer
          let itsSize := (object.kerninfo writer).pageSize
          let object := object.setPage page (fun minPage => { minPage with head := some r })
          let object := (object.reqMark r writer).send writer .lockWriter
            (pageToOffset page) itsSize
          let object := object.setRequest r
            (fun request => { request with count := request.count + 1 })
          bootWriters r last fuel (page + itsSize / minPageSize) object
        else bootWriters r last fuel (page + 1) object
      else some object

def addExpecting (object : Object) (r : Nat) : Option Object :=
  let request := object.requests r
  let first := request.firstPage
  let last := request.lastPage
  let object := object.setRequest r
    (fun request => { request with count := 0, follow := none, sibling := none })
  let object := forPages first last
    (fun page object => object.setPage page (fun minPage => { minPage with tail := some r }))
    object
  let writer := (object.minPages first).writer
  let itsSize := (object.kerninfo writer).pageSize
  match request.kernel with
  | none => none
  | some kernel =>
      if (object.minPages first).use = .write ∧
          itsSize > (object.kerninfo kernel).pageSize then
        let itsOffset := pageToOffset first - pageToOffset first % itsSize
        let object := object.setPage first (fun minPage => { minPage with head := some r })
        some ((object.reqMark r writer).send writer .lockWriter itsOffset itsSize)
      else bootWriters r last (last + 1 - first) first object

/-- One turn of the first loop of `add_sleeping`. -/
def followTail (object : Object) (r page : Nat) : Object :=
  let object :=
    match (object.minPages page).tail with
    | none => object
    | some tail =>
        if (object.requests tail).follow = none then
          (object.setRequest tail (fun request => { request with follow := some r })).setRequest r
            (fun request => { request with count := request.count + 1 })
        else object
  object.setPage page (fun minPage => { minPage with tail := some r })

/-- The last loop of `add_sleeping`: the place of request `r` behind sibling `s`. -/
def insertSibling (object : Object) (r : Nat) : Nat → Nat → Option Object
  | 0, _ => none
  | fuel + 1, s =>
      match (object.requests s).sibling with
      | none => none
      | some next =>
          if (object.requests next).firstPage < (object.requests r).firstPage then
            object.insertSibling r fuel next
          else
            some ((object.setRequest r
                (fun request => { request with sibling := some next })).setRequest s
              (fun request => { request with sibling := some r }))

def addSleeping (object : Object) (r : Nat) : Option Object :=
  let request := object.requests r
  let first := request.firstPage
  let object := object.setRequest r
    (fun request => { request with count := 0, follow := none, sibling := none })
  let oldtail := (object.minPages first).tail
  let object := forPages first request.lastPage
    (fun page object => object.followTail r page) object
  if (object.requests r).count > 0 then some object
  else
    oldtail.bind fun oldtail =>
      match (object.requests oldtail).follow with
      | none => some (object.setRequest oldtail
          (fun request => { request with follow := some r }))
      | some s =>
          if (object.requests s).firstPage > first then
            some ((object.setRequest oldtail
                (fun request => { request with follow := some r })).setRequest r
              (fun request => { request with sibling := some s }))
          else if (object.requests s).sibling = none then
            some (object.setRequest s (fun request => { request with sibling := some r }))
          else object.insertSibling r object.allocated s

/-! ## Satisfying requests -/

/-- The loop of `satisfy_request` that makes the following request and its siblings the
heads of their pages. -/
def setHeads (writer : Nat) : Nat → Option Nat → Object → Option Object
  | _, none, object => some object
  | 0, some _, _ => none
  | fuel + 1, some r, object =>
      let object := object.setPage (object.requests r).firstPage
        (fun minPage => { minPage with head := some r })
      let object := object.reqMark r writer
      setHeads writer fuel (object.requests r).sibling object

/-- The loop of `satisfy_request` that satisfies the following request and its
siblings. -/
def satisfySiblings (satisfy : Nat → Object → Option Object) :
    Nat → Option Nat → Object → Option Object
  | _, none, object => some object
  | 0, some _, _ => none
  | fuel + 1, some r, object =>
      (satisfy r object).bind fun object =>
        satisfySiblings satisfy fuel (object.requests r).sibling (object.reqFree r)

/-- The part of `satisfy_request` for a request whose kernel is still there: the page is
given to the kernel, and the use is returned. -/
def satisfyKernel (object : Object) (kernel first last : Nat) : Object × Use :=
  let minPage := object.minPages first
  let use := if setMember minPage.writeWaiters kernel then Use.write else .read
  let needsData := setMember minPage.dataWaiters kernel
  let object := object.setPage first (fun minPage =>
    { minPage with
      writeWaiters := setDelete minPage.writeWaiters kernel
      dataWaiters := setDelete minPage.dataWaiters kernel })
  if use = .write then (object.addWriter first last kernel needsData, use)
  else (object.addReader first last kernel, use)

def satisfyRequest (junk : Nat → Junk) : Nat → Nat → Object → Option Object
  | 0, _, _ => none
  | fuel + 1, r, object =>
      let request := object.requests r
      let (object, first, last, use) :=
        match request.kernel with
        | none => (object, (junk r).firstPage, (junk r).lastPage, (junk r).use)
        | some kernel =>
            let (object, use) := object.satisfyKernel kernel request.firstPage request.lastPage
            (object, request.firstPage, request.lastPage, use)
      let object := forPages first last
        (fun page object => object.setPage page (fun minPage =>
          { minPage with tail := if minPage.tail = some r then none else minPage.tail })) object
      match (object.requests r).follow with
      | none => some object
      | some r =>
          let request := object.requests r
          if request.firstPage < first ∨ request.lastPage > last then
            let object := object.setRequest r
              (fun request => { request with count := request.count - 1 })
            if (object.requests r).count > 0 then some object
            else
              (bootWriters r request.lastPage (request.lastPage + 1 - request.firstPage)
                request.firstPage object).bind fun object =>
                  if (object.requests r).count = 0 then
                    (satisfyRequest junk fuel r object).bind fun object =>
                      some (object.reqFree r)
                  else some object
          else if use = .write then
            let writer := (object.minPages first).writer
            let object := object.send writer .lockWriter (pageToOffset first)
              (object.kerninfo writer).pageSize
            setHeads writer object.allocated (some r) object
          else satisfySiblings (satisfyRequest junk fuel) object.allocated (some r) object

/-! ## Exported routines -/

/-- Some minimal page from `first` to `last` has a waiting request. -/
def writerEvicted (object : Object) (first last : Nat) : Bool :=
  somePage first last (fun page => (object.minPages page).tail ≠ none)

def haveWriter (object : Object) (first last : Nat) : Bool :=
  somePage first last (fun page => (object.minPages page).use = .write)

def haveExpecting (object : Object) (first last : Nat) : Bool :=
  somePage first last (fun page => (object.minPages page).use = .write &&
    (object.minPages page).tail ≠ none)

/-- The common end of `Add_reading_kernel` and `Add_writing_kernel`: a new request with
its entries in the sets of waiters. -/
def addRequest (object : Object) (kernel first last : Nat) (write data : Bool) :
    Option Object :=
  let (r, object) := object.reqAlloc
  let object := object.setRequest r (fun request =>
    { request with kernel := some kernel, firstPage := first, lastPage := last })
  let object := object.setPage first (fun minPage =>
    { minPage with
      writeWaiters := if write then setAdd minPage.writeWaiters kernel
        else minPage.writeWaiters
      dataWaiters := if data then setAdd minPage.dataWaiters kernel
        else minPage.dataWaiters })
  if object.haveExpecting first last then object.addSleeping r else object.addExpecting r

/-- The kernel is the writer and has not been evicted. -/
def stillWriting (object : Object) (kernel first last : Nat) : Bool :=
  (object.minPages first).use = .write && (object.minPages first).writer = kernel &&
    !object.writerEvicted first last

def addReadingKernel (object : Object) (kernel offset length : Nat) (needsData : Bool) :
    Option Object :=
  let first := offsetToPage offset
  let last := offsetToPage (offset + length) - 1
  if object.stillWriting kernel first last then
    if needsData then some (object.dataProvided kernel offset .supplyAll)
    else some (object.send kernel .unlockWriter offset length)
  else if setMember (object.minPages first).writeWaiters kernel then some object
  else if setMember (object.minPages first).dataWaiters kernel then some object
  else if !needsData then some object
  else if (object.minPages first).use = .read &&
      setMember (object.minPages first).readers kernel then
    some (object.dataProvided kernel offset .supplyRead)
  else if object.haveWriter first last then object.addRequest kernel first last false true
  else some (object.addReader first last kernel)

def addWritingKernel (object : Object) (kernel offset length : Nat) (needsData : Bool) :
    Option Object :=
  let first := offsetToPage offset
  let last := offsetToPage (offset + length) - 1
  if object.stillWriting kernel first last then
    if needsData then some (object.dataProvided kernel offset .supplyAll)
    else some (object.send kernel .unlockWriter offset length)
  else if setMember (object.minPages first).writeWaiters kernel then
    if needsData then
      some (object.setPage first (fun minPage =>
        { minPage with dataWaiters := setAdd minPage.dataWaiters kernel }))
    else some object
  else if setMember (object.minPages first).dataWaiters kernel then
    some (object.setPage first (fun minPage =>
      { minPage with writeWaiters := setAdd minPage.writeWaiters kernel }))
  else if object.haveWriter first last then
    object.addRequest kernel first last true needsData
  else some (object.addWriter first last kernel needsData)

/-- The last loop of `Subtract_kernel`. -/
def satisfyHeads (junk : Nat → Junk) (kernel last : Nat) : Nat → Nat → Object → Option Object
  | 0, page, object => if page ≤ last then none else some object
  | fuel + 1, page, object =>
      if page ≤ last then
        match (object.minPages page).head with
        | none => satisfyHeads junk kernel last fuel (page + 1) object
        | some r =>
            let object := object.setPage page (fun minPage => { minPage with head := none })
            let object := object.reqUnmark r kernel
            let next := (object.requests r).lastPage + 1
            (satisfyRequest junk (object.allocated + 1) r object).bind fun object =>
              satisfyHeads junk kernel last fuel next (object.reqFree r)
      else some object

/-- `Subtract_kernel`; with `data` the page is only copied to the storage, which is not
part of the model. -/
def subtractKernel (junk : Nat → Junk) (object : Object) (kernel offset : Nat) (data : Bool)
    (length : Nat) : Option Object :=
  let roundOffset := if length < minPageSize then offset - offset % minPageSize else offset
  let roundLength := if length < minPageSize then minPageSize else length
  let first := offsetToPage roundOffset
  let last := offsetToPage (roundOffset + roundLength) - 1
  if !data && setMember (object.minPages first).pendingCompletes kernel then
    some (object.setPage first (fun minPage =>
      { minPage with pendingCompletes := setDelete minPage.pendingCompletes kernel }))
  else if (object.minPages first).use ≠ .write ∨ (object.minPages first).writer ≠ kernel then
    some object
  else if data then some object
  else
    let object := forPages first last
      (fun page object => object.setPage page (fun minPage => { minPage with use := .none }))
      object
    match (object.minPages first).head with
    | some r =>
        if (object.requests r).firstPage < first ∨ (object.requests r).lastPage > last then
          let object := object.setPage first (fun minPage => { minPage with head := none })
          let object := (object.reqUnmark r kernel).setRequest r
            (fun request => { request with count := request.count - 1 })
          if (object.requests r).count = 0 then
            (satisfyRequest junk (object.allocated + 1) r object).bind fun object =>
              some (object.reqFree r)
          else some object
        else satisfyHeads junk kernel last (last + 1 - first) first object
    | none => satisfyHeads junk kernel last (last + 1 - first) first object

/-- `Object_create`, for the size that `netmemory_cover` has rounded up to whole pages of
the largest size. -/
def create (size : Nat) : Object :=
  { objectSize := (size + maxPageSize - 1) / maxPageSize * maxPageSize }

def numMinPages (object : Object) : Nat := object.objectSize / minPageSize

/-- The loop of `Kernel_close` over the minimal pages. -/
def closePages (junk : Nat → Junk) (kernel length : Nat) : List Nat → Object → Option Object
  | [], object => some object
  | page :: rest, object =>
      let minPage := object.minPages page
      let result :=
        if minPage.use = .read then
          some (object.setPage page (fun minPage =>
            { minPage with user := setDelete minPage.readers kernel }))
        else if minPage.use = .write ∧ minPage.writer = kernel then
          object.subtractKernel junk kernel (pageToOffset page) false length
        else some object
      result.bind fun object =>
        closePages junk kernel length rest (object.setPage page (fun minPage =>
          { minPage with
            writeWaiters := setDelete minPage.writeWaiters kernel
            dataWaiters := setDelete minPage.dataWaiters kernel
            pendingCompletes := setDelete minPage.pendingCompletes kernel }))

def kernelClose (junk : Nat → Junk) (object : Object) (kernel : Nat) : Option Object :=
  let object := { object with
    requests := fun r =>
      if r < object.allocated ∧ (object.requests r).kernel = some kernel then
        { object.requests r with kernel := none }
      else object.requests r }
  (closePages junk kernel (object.kerninfo kernel).pageSize (List.range object.numMinPages)
    object).bind fun object =>
      some { object with
        kerninfo := Function.update object.kerninfo kernel
          { object.kerninfo kernel with requestPort := 0 }
        outstanding := Function.update object.outstanding kernel (fun _ => 0) }

def timedOut (junk : Nat → Junk) (object : Object) : Option Object :=
  let newmark := !object.mark
  ((List.range maxNumKernels).foldlM (fun object kernel =>
    if object.outstanding kernel newmark > 0 then object.kernelClose junk kernel
    else some object) object).bind fun object => some { object with mark := newmark }

/-! ## Messages from the kernels -/

def portToKernel (object : Object) (port : Nat) : Option Nat :=
  (List.range maxNumKernels).find? (fun kernel => (object.kerninfo kernel).requestPort = port)

def isPowerOfTwo (x : Nat) : Bool :=
  (List.range 32).any (fun i => x = 2 ^ i)

/-- `memory_object_init`; a call that is refused changes nothing. -/
def memoryObjectInit (object : Object) (memoryControl pageSize : Nat) : Object :=
  if memoryControl = 0 then object
  else if pageSize > maxPageSize then object
  else if !isPowerOfTwo pageSize then object
  else if object.portToKernel memoryControl ≠ none then object
  else
    match object.portToKernel 0 with
    | none => object
    | some kernel =>
        { object with
          kerninfo := Function.update object.kerninfo kernel
            { requestPort := memoryControl
              pageSize := if pageSize < minPageSize then minPageSize else pageSize
              realPageSize := pageSize } }

/-- The alignment tests of the message handlers.  They look at the lowest bit only, since
`!=` binds tighter than `&`. -/
def misaligned (offset pageSize : Nat) : Bool :=
  offset &&& (if pageSize - 1 ≠ 0 then 1 else 0) ≠ 0

/-- `memory_object_request`; a request that is answered with an error has no result. -/
def memoryObjectRequest (object : Object) (memoryControl offset length : Nat)
    (write needsData : Bool) : Option Object :=
  if memoryControl = 0 then none
  else
    (object.portToKernel memoryControl).bind fun kernel =>
      let realPageSize := (object.kerninfo kernel).realPageSize
      if misaligned offset realPageSize ∨ length ≠ realPageSize ∨ offset ≥ object.objectSize then
        none
      else
        let small := realPageSize < minPageSize
        let offset := if small then offset - offset % minPageSize else offset
        let length := if small then minPageSize else length
        if write then object.addWritingKernel kernel offset length needsData
        else object.addReadingKernel kernel offset length needsData

def memoryObjectLockCompleted (junk : Nat → Junk) (object : Object)
    (memoryControl offset length : Nat) : Option Object :=
  if memoryControl = 0 then some object
  else
    match object.portToKernel memoryControl with
    | none => some object
    | some kernel =>
        let lockPageSize := (object.kerninfo kernel).pageSize
        if length ≠ lockPageSize then some object
        else if misaligned offset lockPageSize then some object
        else if offset ≥ object.objectSize then some object
        else object.subtractKernel junk kernel offset false length

end Object

/-! ## The system -/

/-- The object, the LOCK_WRITER messages that have been acknowledged, by their place in the
log, and the ports of the kernels that have been closed. -/
structure System where
  object : Object
  acked : List Nat := []
  retired : List Nat := []

/-- One message that reaches the scheduler. -/
inductive Label where
  | attach (port pageSize : Nat)
  | request (port offset : Nat) (write needsData : Bool)
  | lockCompleted (serial : Nat) (junk : Nat → Junk)
  | close (kernel : Nat) (junk : Nat → Junk)
  | timedOut (junk : Nat → Junk)

/-- The message at a place of the log, counted from the oldest one. -/
def messageAt (sent : List Message) (serial : Nat) : Option Message :=
  sent.reverse[serial]?

/-- The ports of the kernels. -/
def ports (object : Object) : List Nat :=
  (List.range maxNumKernels).map (fun kernel => (object.kerninfo kernel).requestPort)

/-- The ports that a step has taken out of the table of kernels. -/
def retiredBy (before after : Object) : List Nat :=
  (ports before).filter (fun port => port ∉ ports after)

/-- One step: a kernel with a port not closed before is attached, a kernel asks for one of
its pages, acknowledges a LOCK_WRITER once, or is closed. -/
def step (s : System) : Label → Option System
  | .attach port pageSize =>
      if port ∈ s.retired then none
      else some { s with object := s.object.memoryObjectInit port pageSize }
  | .request port offset write needsData =>
      (s.object.portToKernel port).bind fun kernel =>
        let pageSize := (s.object.kerninfo kernel).realPageSize
        if offset % pageSize ≠ 0 then none
        else
          (s.object.memoryObjectRequest port offset pageSize write needsData).bind fun object =>
            some { s with object := object }
  | .lockCompleted serial junk =>
      (messageAt s.object.sent serial).bind fun message =>
        if message.kind = .lockWriter ∧ serial ∉ s.acked then
          (s.object.memoryObjectLockCompleted junk message.port message.offset
            message.length).bind fun object =>
              some { s with object := object, acked := serial :: s.acked }
        else none
  | .close kernel junk =>
      if (s.object.kerninfo kernel).requestPort = 0 ∨ maxNumKernels ≤ kernel then none
      else
        (s.object.kernelClose junk kernel).bind fun object =>
          some { s with
            object := object
            retired := s.retired ++ retiredBy s.object object }
  | .timedOut junk =>
      (s.object.timedOut junk).bind fun object =>
        some { s with
          object := object
          retired := s.retired ++ retiredBy s.object object }

/-- A new object of any size that no kernel uses. -/
def initial (s : System) : Prop :=
  ∃ size, s = { object := Object.create size }

end MachFormal.NetMemory
