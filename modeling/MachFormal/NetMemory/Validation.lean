import MachFormal.NetMemory.Creation

/-!
# What the message handlers let through

Requests, pageouts and acknowledgements come from remote kernels with an
arbitrary offset and length.  The handlers check them and then use them as
indexes: into the fault counters of the pages, into the minimal pages of the
scheduler and into the storage.  An access outside of an array that a message
asks for with its own range is `wild`.  The server carries the proof that its
arrays have the sizes `netmemory_cover` gave them and that its kernels were
accepted by `memory_object_init`.
-/

namespace MachFormal.NetMemory.Validation

open MachFormal.NetMemory.Creation (Word FaultInfo coverSize coverSize_dvd)

/-- What `memory_object_init` stores for a kernel: a power of two up to the largest page size,
and at least a minimal page for the scheduler. -/
def Accepted (slot : Kernel) : Prop :=
  ∃ shift, shift ≤ 13 ∧ slot.realPageSize = 2 ^ shift ∧ slot.pageSize = max (2 ^ shift) minPageSize

/-- An object with its storage and its fault counters. -/
structure Server where
  object : Object
  storage : List UInt8
  faultsPerPage : List FaultInfo
  faultsTotal : FaultInfo
  covered : ∃ vmPageSize objectData size, size ≠ 0 ∧
    object.objectSize = (coverSize vmPageSize objectData size).toNat
  storage_length : storage.length = object.objectSize
  faults_length : faultsPerPage.length = object.numMinPages
  attached : ∀ kernel, (object.kerninfo kernel).requestPort ≠ 0 → Accepted (object.kerninfo kernel)

/-- What is counted: a fault on a protected page, a write fault or a read fault. -/
inductive Fault where
  | protection
  | write
  | read
  deriving DecidableEq, Repr

def FaultInfo.count (info : FaultInfo) (n : Word) : Fault → FaultInfo
  | .protection => { info with protectionFaults := info.protectionFaults + n }
  | .write => { info with writeFaults := info.writeFaults + n }
  | .read => { info with readFaults := info.readFaults + n }

/-- The loop that counts a fault on `n` pages from page `j` on. -/
def countFaults (fault : Fault) : Nat → Nat → List FaultInfo → List FaultInfo
  | _, 0, faults => faults
  | j, n + 1, faults =>
      countFaults fault (j + 1) n (faults.modify j (fun info => FaultInfo.count info 1 fault))

/-- `bcopy` into the storage. -/
def store (storage : List UInt8) (offset : Nat) (data : List UInt8) : List UInt8 :=
  storage.take offset ++ data ++ storage.drop (offset + data.length)

/-- A message from a kernel, with its offset and length. -/
inductive Call where
  | dataRequest (offset length : Word) (write : Bool)
  | dataUnlock (offset length : Word) (write : Bool)
  | dataWrite (offset : Word) (data : List UInt8)
  | lockCompleted (offset length : Word)

def Call.offset : Call → Nat
  | .dataRequest offset .. | .dataUnlock offset .. | .dataWrite offset _
  | .lockCompleted offset _ => offset.toNat

def Call.length : Call → Nat
  | .dataRequest _ length _ | .dataUnlock _ length _ | .lockCompleted _ length => length.toNat
  | .dataWrite _ data => data.length

/-- The page size a message is checked against: acknowledgements are for what the scheduler
locked. -/
def Call.pageSize (slot : Kernel) : Call → Nat
  | .lockCompleted .. => slot.pageSize
  | _ => slot.realPageSize

/-- What becomes of a message. -/
inductive Reaction where
  | ignored
  | dataError (offset length : Word)
  | wild
  | passed (storage : List UInt8) (faultsPerPage : List FaultInfo) (faultsTotal : FaultInfo)
      (object : Option Object)

/-- The checks that the three handlers share: the kernel is known, the offset is not found
misaligned, the length is that of a page and the offset is below the size of the object. -/
def admitted (object : Object) (control pageSize : Nat) (offset length : Nat) : Bool :=
  decide (control ≠ 0) && (object.portToKernel control).isSome &&
    !Object.misaligned offset pageSize && decide (length = pageSize) &&
    decide (offset < object.objectSize)

/-- The kernel of a message. -/
def senderOf (object : Object) (control : Nat) : Nat :=
  (object.portToKernel control).getD 0

/-- Pages that are smaller than a minimal page are widened to the minimal page they are in. -/
def roundOffset (size offset : Nat) : Nat :=
  if size < minPageSize then offset - offset % minPageSize else offset

def roundLength (size length : Nat) : Nat :=
  if size < minPageSize then minPageSize else length

/-- `memory_object_request`, behind its checks. -/
def handleRequest (server : Server) (kernel : Nat) (offset length : Word) (write needsData : Bool) :
    Reaction :=
  let offset := roundOffset (server.object.kerninfo kernel).realPageSize offset.toNat
  let length := roundLength (server.object.kerninfo kernel).realPageSize length.toNat
  let j := offset / minPageSize
  let count := length / minPageSize
  let fault := if !needsData then Fault.protection else if write then .write else .read
  if j + count ≤ server.faultsPerPage.length then
    .passed server.storage (countFaults fault j count server.faultsPerPage)
      (FaultInfo.count server.faultsTotal (BitVec.ofNat 32 count) fault)
      (if write then server.object.addWritingKernel kernel offset length needsData
        else server.object.addReadingKernel kernel offset length needsData)
  else .wild

def memoryObjectRequest (server : Server) (control : Nat) (offset length : Word)
    (write needsData : Bool) : Reaction :=
  let kernel := senderOf server.object control
  if control = 0 then .ignored
  else if admitted server.object control (server.object.kerninfo kernel).realPageSize
      offset.toNat length.toNat then
    handleRequest server kernel offset length write needsData
  else .dataError offset length

/-- `Subtract_kernel` for data: only the writer of the page may store it. -/
def handleData (server : Server) (kernel : Nat) (offset : Word) (data : List UInt8) : Reaction :=
  let page := server.object.minPages (offsetToPage (roundOffset data.length offset.toNat))
  if page.use ≠ .write ∨ page.writer ≠ kernel then
    .passed server.storage server.faultsPerPage server.faultsTotal (some server.object)
  else if offset.toNat + data.length ≤ server.storage.length then
    .passed (store server.storage offset.toNat data) server.faultsPerPage server.faultsTotal
      (some server.object)
  else .wild

def memoryObjectDataWrite (server : Server) (control : Nat) (offset : Word) (data : List UInt8) :
    Reaction :=
  let kernel := senderOf server.object control
  if admitted server.object control (server.object.kerninfo kernel).realPageSize
      offset.toNat data.length then
    handleData server kernel offset data
  else .ignored

/-- `Subtract_kernel` for an acknowledgement: all minimal pages of the range are freed. -/
def handleCompleted (junk : Nat → Junk) (server : Server) (kernel : Nat) (offset length : Word) :
    Reaction :=
  let first := offsetToPage offset.toNat
  let last := offsetToPage (offset.toNat + length.toNat) - 1
  let page := server.object.minPages first
  if !setMember page.pendingCompletes kernel && decide (page.use = .write) &&
      decide (page.writer = kernel) && decide (server.object.numMinPages ≤ last) then .wild
  else
    .passed server.storage server.faultsPerPage server.faultsTotal
      (server.object.subtractKernel junk kernel offset.toNat false length.toNat)

def memoryObjectLockCompleted (junk : Nat → Junk) (server : Server) (control : Nat)
    (offset length : Word) : Reaction :=
  let kernel := senderOf server.object control
  if admitted server.object control (server.object.kerninfo kernel).pageSize
      offset.toNat length.toNat then
    handleCompleted junk server kernel offset length
  else .ignored

/-- The handlers. -/
def handle (junk : Nat → Junk) (server : Server) (control : Nat) : Call → Reaction
  | .dataRequest offset length write =>
      memoryObjectRequest server control offset length write true
  | .dataUnlock offset length write =>
      memoryObjectRequest server control offset length write false
  | .dataWrite offset data => memoryObjectDataWrite server control offset data
  | .lockCompleted offset length => memoryObjectLockCompleted junk server control offset length

/-! ## Messages that are let through -/

/-- The page size of the kernel that sends a message. -/
def pageSizeFor (server : Server) (control : Nat) (call : Call) : Nat :=
  call.pageSize (server.object.kerninfo (senderOf server.object control))

/-- A message that gets past the checks names a page of its kernel inside of the object, and no
index leaves an array; every other message is answered with an error or ignored. -/
def Validated (junk : Nat → Junk) (server : Server) (control : Nat) (call : Call) : Prop :=
  match handle junk server control call with
  | .ignored | .dataError _ _ => True
  | .wild => False
  | .passed .. =>
      pageSizeFor server control call ∣ call.offset ∧
        call.offset + call.length ≤ server.object.objectSize

/-- The kernel is known, the length is right and the offset is even and below the size of the
object: then it is the offset of a page. -/
def EvenOffsetsFit (server : Server) (control : Nat) (call : Call) : Prop :=
  control ≠ 0 → (server.object.portToKernel control).isSome →
    call.length = pageSizeFor server control call → call.offset < server.object.objectSize →
    call.offset % 2 = 0 → pageSizeFor server control call ∣ call.offset

section Checks

variable {server : Server} {control : Nat}

theorem objectSize_dvd (server : Server) : maxPageSize ∣ server.object.objectSize := by
  obtain ⟨vmPageSize, objectData, size, -, hsize⟩ := server.covered
  rw [hsize]
  exact coverSize_dvd vmPageSize objectData size

theorem sender_accepted (server : Server) (hcontrol : control ≠ 0)
    (hknown : (server.object.portToKernel control).isSome) :
    Accepted (server.object.kerninfo (senderOf server.object control)) := by
  obtain ⟨kernel, hkernel⟩ := Option.isSome_iff_exists.mp hknown
  have hport : (server.object.kerninfo kernel).requestPort = control := by
    have htest := List.find?_some hkernel
    simpa using htest
  rw [senderOf, hkernel, Option.getD_some]
  exact server.attached kernel (hport ▸ hcontrol)

/-- The page size a message is checked against divides the largest page size. -/
theorem pageSizeFor_dvd (hcontrol : control ≠ 0)
    (hknown : (server.object.portToKernel control).isSome) (call : Call) :
    ∃ shift, shift ≤ 13 ∧ pageSizeFor server control call = 2 ^ shift := by
  obtain ⟨shift, hshift, hreal, hpage⟩ := sender_accepted server hcontrol hknown
  have hlock : max (2 ^ shift) minPageSize = 2 ^ max shift 12 := by
    rcases Nat.le_total shift 12 with hsmall | hlarge
    · have hmax : max shift 12 = 12 := max_eq_right hsmall
      rw [hmax]
      exact max_eq_right (Nat.pow_le_pow_right (Nat.succ_pos 1) hsmall)
    · have hmax : max shift 12 = shift := max_eq_left hlarge
      rw [hmax]
      exact max_eq_left (Nat.pow_le_pow_right (Nat.succ_pos 1) hlarge)
  cases call with
  | lockCompleted offset length => exact ⟨max shift 12, by omega, hpage.trans hlock⟩
  | dataRequest offset length write => exact ⟨shift, hshift, hreal⟩
  | dataUnlock offset length write => exact ⟨shift, hshift, hreal⟩
  | dataWrite offset data => exact ⟨shift, hshift, hreal⟩

theorem misaligned_iff (offset shift : Nat) :
    Object.misaligned offset (2 ^ shift) = true ↔ shift ≠ 0 ∧ offset % 2 = 1 := by
  unfold Object.misaligned
  rcases Nat.eq_zero_or_pos shift with rfl | hpos
  · simp
  · have hlarge : 2 ^ shift - 1 ≠ 0 := by
      have := Nat.pow_le_pow_right (by decide : 0 < 2) hpos
      omega
    rw [if_pos hlarge, Nat.and_one_is_mod]
    simp only [ne_eq, decide_not, Bool.not_eq_eq_eq_not, Bool.not_true, decide_eq_false_iff_not]
    omega

theorem admitted_iff (call : Call) :
    admitted server.object control (pageSizeFor server control call) call.offset call.length =
        true ↔
      control ≠ 0 ∧ (server.object.portToKernel control).isSome ∧
        call.length = pageSizeFor server control call ∧
        call.offset < server.object.objectSize ∧
        (pageSizeFor server control call = 1 ∨ call.offset % 2 = 0) := by
  simp only [admitted, Bool.and_eq_true, decide_eq_true_eq, Bool.not_eq_true']
  constructor
  · rintro ⟨⟨⟨⟨hcontrol, hknown⟩, haligned⟩, hlength⟩, hoffset⟩
    obtain ⟨shift, -, hsize⟩ := pageSizeFor_dvd hcontrol hknown call
    refine ⟨hcontrol, hknown, hlength, hoffset, ?_⟩
    by_contra hneither
    rw [hsize, Bool.eq_false_iff, ne_eq, misaligned_iff] at haligned
    rw [hsize] at hneither
    refine haligned ⟨fun hzero => hneither (Or.inl (by rw [hzero]; rfl)), ?_⟩
    have : ¬call.offset % 2 = 0 := fun heven => hneither (Or.inr heven)
    omega
  · rintro ⟨hcontrol, hknown, hlength, hoffset, heven⟩
    obtain ⟨shift, -, hsize⟩ := pageSizeFor_dvd hcontrol hknown call
    refine ⟨⟨⟨⟨hcontrol, hknown⟩, ?_⟩, hlength⟩, hoffset⟩
    rw [hsize, Bool.eq_false_iff, ne_eq, misaligned_iff]
    rintro ⟨hshift, hodd⟩
    rcases heven with hone | heven
    · rw [hsize] at hone
      exact hshift (Nat.pow_right_injective (le_refl 2) (by simpa using hone))
    · omega

theorem page_inside {shift offset : Nat} (hshift : shift ≤ 13) (hdvd : 2 ^ shift ∣ offset)
    (hoffset : offset < server.object.objectSize) :
    offset + 2 ^ shift ≤ server.object.objectSize := by
  have hsize : 2 ^ shift ∣ server.object.objectSize :=
    dvd_trans (Nat.pow_dvd_pow 2 hshift) (objectSize_dvd server)
  obtain ⟨a, rfl⟩ := hdvd
  obtain ⟨b, hb⟩ := hsize
  rw [hb] at hoffset ⊢
  have hlt : a < b := Nat.lt_of_mul_lt_mul_left hoffset
  rw [← Nat.mul_succ]
  exact Nat.mul_le_mul_left _ hlt

theorem handle_refused (junk : Nat → Junk) {call : Call}
    (hrefused : ¬admitted server.object control (pageSizeFor server control call) call.offset
      call.length = true) :
    handle junk server control call = .ignored ∨
      ∃ offset length, handle junk server control call = .dataError offset length := by
  have request : ∀ offset length write needsData,
      ¬admitted server.object control
        (server.object.kerninfo (senderOf server.object control)).realPageSize
        offset.toNat length.toNat = true →
      memoryObjectRequest server control offset length write needsData = .ignored ∨
        ∃ o l, memoryObjectRequest server control offset length write needsData =
          .dataError o l := by
    intro offset length write needsData h
    unfold memoryObjectRequest
    split
    · exact Or.inl rfl
    · dsimp only
      rw [if_neg h]
      exact Or.inr ⟨_, _, rfl⟩
  cases call with
  | dataRequest offset length write => exact request offset length write true hrefused
  | dataUnlock offset length write => exact request offset length write false hrefused
  | dataWrite offset data => exact Or.inl (if_neg hrefused)
  | lockCompleted offset length => exact Or.inl (if_neg hrefused)

/-- What the handler of an admitted message does. -/
def handleAdmitted (junk : Nat → Junk) (server : Server) (control : Nat) : Call → Reaction
  | .dataRequest offset length write =>
      handleRequest server (senderOf server.object control) offset length write true
  | .dataUnlock offset length write =>
      handleRequest server (senderOf server.object control) offset length write false
  | .dataWrite offset data => handleData server (senderOf server.object control) offset data
  | .lockCompleted offset length =>
      handleCompleted junk server (senderOf server.object control) offset length

theorem handle_admitted (junk : Nat → Junk) {call : Call}
    (hadmitted : admitted server.object control (pageSizeFor server control call) call.offset
      call.length = true) :
    handle junk server control call = handleAdmitted junk server control call := by
  have hcontrol := ((admitted_iff call).mp hadmitted).1
  cases call with
  | dataRequest offset length write =>
      dsimp only [handle, memoryObjectRequest]
      rw [if_neg hcontrol]
      exact if_pos hadmitted
  | dataUnlock offset length write =>
      dsimp only [handle, memoryObjectRequest]
      rw [if_neg hcontrol]
      exact if_pos hadmitted
  | dataWrite offset data => exact if_pos hadmitted
  | lockCompleted offset length => exact if_pos hadmitted

theorem handleAdmitted_cases (junk : Nat → Junk) (server : Server) (control : Nat) (call : Call) :
    handleAdmitted junk server control call = .wild ∨
      ∃ storage faults total object, handleAdmitted junk server control call =
        .passed storage faults total object := by
  have request : ∀ offset length write needsData,
      handleRequest server (senderOf server.object control) offset length write needsData = .wild ∨
        ∃ storage faults total object,
          handleRequest server (senderOf server.object control) offset length write needsData =
            .passed storage faults total object := by
    intro offset length write needsData
    unfold handleRequest
    dsimp only
    split
    · exact Or.inr ⟨_, _, _, _, rfl⟩
    · exact Or.inl rfl
  cases call with
  | dataRequest offset length write => exact request offset length write true
  | dataUnlock offset length write => exact request offset length write false
  | dataWrite offset data =>
      dsimp only [handleAdmitted, handleData]
      split
      · exact Or.inr ⟨_, _, _, _, rfl⟩
      · split
        · exact Or.inr ⟨_, _, _, _, rfl⟩
        · exact Or.inl rfl
  | lockCompleted offset length =>
      dsimp only [handleAdmitted, handleCompleted]
      split
      · exact Or.inl rfl
      · exact Or.inr ⟨_, _, _, _, rfl⟩

theorem handleRequest_inside {kernel shift : Nat} {offset length : Word} (write needsData : Bool)
    (hshift : shift ≤ 13) (hreal : (server.object.kerninfo kernel).realPageSize = 2 ^ shift)
    (hlength : length.toNat = 2 ^ shift) (hdvd : 2 ^ shift ∣ offset.toNat)
    (hoffset : offset.toNat < server.object.objectSize) :
    handleRequest server kernel offset length write needsData ≠ .wild := by
  have hinside := page_inside hshift hdvd hoffset
  obtain ⟨pages, hpages⟩ := objectSize_dvd server
  unfold handleRequest
  dsimp only
  rw [server.faults_length, Object.numMinPages, hreal, hlength]
  rw [maxPageSize] at hpages
  rw [if_pos]
  · exact fun heq => by cases heq
  · unfold roundOffset roundLength minPageSize
    split
    · omega
    · next hlarge =>
        have h12 : 4096 ∣ 2 ^ shift := by
          have hle : 12 ≤ shift := by
            by_contra hsmall
            exact hlarge (Nat.pow_lt_pow_right (Nat.lt_succ_self 1) (by omega : shift < 12))
          exact Nat.pow_dvd_pow 2 hle
        have hlen : 2 ^ shift / 4096 * 4096 = 2 ^ shift := Nat.div_mul_cancel h12
        omega

theorem handleAdmitted_inside (junk : Nat → Junk) {call : Call}
    (hadmitted : admitted server.object control (pageSizeFor server control call) call.offset
      call.length = true) (hdvd : pageSizeFor server control call ∣ call.offset) :
    handleAdmitted junk server control call ≠ .wild := by
  obtain ⟨hcontrol, hknown, hlength, hoffset, -⟩ := (admitted_iff call).mp hadmitted
  obtain ⟨shift, hshift, hsize⟩ := pageSizeFor_dvd hcontrol hknown call
  rw [hsize] at hlength hdvd
  have hinside := page_inside hshift hdvd hoffset
  cases call with
  | dataRequest offset length write =>
      exact handleRequest_inside write true hshift hsize hlength hdvd hoffset
  | dataUnlock offset length write =>
      exact handleRequest_inside write false hshift hsize hlength hdvd hoffset
  | dataWrite offset data =>
      dsimp only [handleAdmitted, handleData]
      split
      · exact fun heq => by cases heq
      · rw [if_pos]
        · exact fun heq => by cases heq
        · rw [server.storage_length]
          dsimp only [Call.length] at hlength
          rw [hlength]
          exact hinside
  | lockCompleted offset length =>
      dsimp only [Call.length, Call.offset] at hlength hinside
      have hlast : ¬server.object.numMinPages ≤ offsetToPage (offset.toNat + length.toNat) - 1 := by
        have hpage : 2 ^ shift ≥ minPageSize := by
          have hmax : (server.object.kerninfo (senderOf server.object control)).pageSize ≥
              minPageSize := by
            obtain ⟨_, _, _, hpage⟩ := sender_accepted server hcontrol hknown
            rw [hpage]
            exact le_max_right _ _
          exact hsize ▸ hmax
        rw [hlength, Object.numMinPages, offsetToPage]
        unfold minPageSize at hpage ⊢
        omega
      dsimp only [handleAdmitted, handleCompleted]
      rw [if_neg]
      · exact fun heq => by cases heq
      · simp [hlast]

theorem admitted_cases {object : Object} {pageSize offset length : Nat}
    (hadmitted : admitted object control pageSize offset length = true) :
    control ≠ 0 ∧ object.portToKernel control = some (senderOf object control) ∧
      Object.misaligned offset pageSize = false ∧ length = pageSize ∧
      offset < object.objectSize := by
  simp only [admitted, Bool.and_eq_true, decide_eq_true_eq, Bool.not_eq_true'] at hadmitted
  obtain ⟨⟨⟨⟨hcontrol, hknown⟩, haligned⟩, hlength⟩, hoffset⟩ := hadmitted
  obtain ⟨kernel, hkernel⟩ := Option.isSome_iff_exists.mp hknown
  refine ⟨hcontrol, ?_, haligned, hlength, hoffset⟩
  rw [senderOf, hkernel, Option.getD_some]

theorem memoryObjectRequest_scheduler {offset length : Word} {write needsData : Bool}
    {storage : List UInt8} {faults : List FaultInfo} {total : FaultInfo} {result : Option Object}
    (hpassed : memoryObjectRequest server control offset length write needsData =
      .passed storage faults total result) :
    server.object.memoryObjectRequest control offset.toNat length.toNat write needsData =
      result := by
  unfold memoryObjectRequest at hpassed
  split at hpassed
  · cases hpassed
  · dsimp only at hpassed
    split at hpassed
    · next hadmitted =>
        obtain ⟨hcontrol, hkernel, haligned, hlength, hoffset⟩ := admitted_cases hadmitted
        unfold handleRequest at hpassed
        dsimp only at hpassed
        split at hpassed
        · cases hpassed
          rw [Object.memoryObjectRequest, if_neg hcontrol, hkernel]
          dsimp only [Option.bind_some]
          rw [if_neg (by simp [haligned, hlength, hoffset])]
          rfl
        · cases hpassed
    · cases hpassed

theorem memoryObjectLockCompleted_scheduler {junk : Nat → Junk} {offset length : Word}
    {storage : List UInt8} {faults : List FaultInfo} {total : FaultInfo} {result : Option Object}
    (hpassed : memoryObjectLockCompleted junk server control offset length =
      .passed storage faults total result) :
    server.object.memoryObjectLockCompleted junk control offset.toNat length.toNat = result := by
  unfold memoryObjectLockCompleted at hpassed
  dsimp only at hpassed
  split at hpassed
  · next hadmitted =>
      obtain ⟨hcontrol, hkernel, haligned, hlength, hoffset⟩ := admitted_cases hadmitted
      unfold handleCompleted at hpassed
      dsimp only at hpassed
      split at hpassed
      · cases hpassed
      · cases hpassed
        rw [Object.memoryObjectLockCompleted, if_neg hcontrol, hkernel]
        dsimp only
        rw [if_neg (by simp [hlength]), if_neg (by simp [haligned]), if_neg (by omega)]
  · cases hpassed

end Checks

/-- A message is validated exactly if an even offset that passes the other checks is the offset of
a page: the handlers test the lowest bit of the offset only. -/
theorem validated_iff_evenOffsetsFit (junk : Nat → Junk) (server : Server) (control : Nat)
    (call : Call) :
    Validated junk server control call ↔ EvenOffsetsFit server control call := by
  unfold Validated
  by_cases hadmitted : admitted server.object control (pageSizeFor server control call)
      call.offset call.length = true
  · have ⟨hcontrol, hknown, hlength, hoffset, heven⟩ := (admitted_iff call).mp hadmitted
    obtain ⟨shift, hshift, hsize⟩ := pageSizeFor_dvd hcontrol hknown call
    rw [handle_admitted junk hadmitted]
    constructor
    · intro validated _ _ _ _ _
      rcases handleAdmitted_cases junk server control call with
        hwild | ⟨_, _, _, _, hpassed⟩
      · rw [hwild] at validated
        cases validated
      · rw [hpassed] at validated
        exact validated.1
    · intro fits
      have hdvd : pageSizeFor server control call ∣ call.offset := by
        rcases heven with hone | heven
        · rw [hone]
          exact one_dvd _
        · exact fits hcontrol hknown hlength hoffset heven
      rcases handleAdmitted_cases junk server control call with
        hwild | ⟨_, _, _, _, hpassed⟩
      · exact absurd hwild (handleAdmitted_inside junk hadmitted hdvd)
      · rw [hpassed]
        refine ⟨hdvd, ?_⟩
        rw [hlength, hsize]
        exact page_inside hshift (hsize ▸ hdvd) hoffset
  · refine ⟨fun _ hcontrol hknown hlength hoffset heven => ?_, fun _ => ?_⟩
    · exact absurd ((admitted_iff call).mpr ⟨hcontrol, hknown, hlength, hoffset, Or.inr heven⟩)
        hadmitted
    · rcases handle_refused junk hadmitted with hignored | ⟨_, _, herror⟩
      · rw [hignored]
        trivial
      · rw [herror]
        trivial

/-- An object of one page that a kernel with pages of 8192 bytes uses. -/
def onePage : Server where
  object :=
    { objectSize := 8192
      kerninfo := fun kernel => if kernel = 0 then ⟨5, 8192, 8192⟩ else {} }
  storage := List.replicate 8192 0
  faultsPerPage := List.replicate 2 {}
  faultsTotal := {}
  covered := ⟨4096, false, 8192, by decide, by decide⟩
  storage_length := List.length_replicate
  faults_length := rfl
  attached := by
    intro kernel hport
    dsimp only at hport ⊢
    split at hport
    · next hzero =>
        rw [if_pos hzero]
        exact ⟨13, le_refl 13, rfl, rfl⟩
    · exact absurd rfl hport

/-- A request for the second half of the page passes the checks; the second page it counts a fault
for does not exist. -/
theorem half_page_passes (junk : Nat → Junk) :
    handle junk onePage 5 (.dataRequest 4096 8192 false) = .wild := rfl

/-- The offset 4096 is not one of a page of 8192 bytes. -/
theorem half_page_not_validated :
    ¬Validated (fun _ => {}) onePage 5 (.dataRequest 4096 8192 false) := by
  unfold Validated
  rw [half_page_passes]
  exact id

end MachFormal.NetMemory.Validation
