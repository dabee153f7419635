import Mathlib.Data.Option.Basic
import MachFormal.InodePager.InodeCache
import MachFormal.InodePager.Pageout
import MachFormal.InodePager.PagerSpace

/-!
# What the pager routines give back

The routines of the inode pager bind the calling thread to the master processor,
take uses of istructs and lock inodes; the device pager locks its list.  They
leave through many exits.  The state of a run are the tables of the pagers and
what the calling thread holds.  File blocks, page maps and the reclaim list are
those of the other modules; what the rest of the kernel answers is a parameter.
A routine that panics or waits for a lock of its own does not return.
-/

/-!
## Routines that may not return

A routine changes a state and returns a value, or it does not return at all: it
panics, or it waits for something that never comes.  A triple says what holds
whenever a routine that was called in a state of its precondition returns.
-/

namespace MachFormal.Library

/-- A routine over a state; `none` when it does not return. -/
abbrev Routine (σ α : Type) := StateT σ Option α

namespace Routine

variable {σ α β : Type}

/-- The routine does not return. -/
def halt : Routine σ α := fun _ => none

/-- Look at the state. -/
def read (f : σ → α) : Routine σ α := fun s => some (f s, s)

/-- Change the state. -/
def update (f : σ → σ) : Routine σ Unit := fun s => some ((), f s)

/-- Change the state, or wait forever. -/
def attempt (f : σ → Option σ) : Routine σ Unit := fun s => (f s).map (fun s' => ((), s'))

/-- When the routine is called in a state of `P` and returns, its value and the state it leaves
satisfy `Q`. -/
def Triple (P : σ → Prop) (m : Routine σ α) (Q : α → σ → Prop) : Prop :=
  ∀ s, P s → ∀ a s', m s = some (a, s') → Q a s'

variable {P P' : σ → Prop} {Q : α → σ → Prop} {R : β → σ → Prop}

theorem Triple.pure {a : α} (h : ∀ s, P s → Q a s) : Triple P (pure a) Q := by
  intro s hs a' s' hrun
  cases hrun
  exact h s hs

theorem Triple.bind {m : Routine σ α} {f : α → Routine σ β} (first : Triple P m Q)
    (rest : ∀ a, Triple (Q a) (f a) R) : Triple P (m >>= f) R := by
  intro s hs b s' hrun
  obtain ⟨⟨a, middle⟩, hfirst, hrest⟩ := Option.bind_eq_some_iff.mp hrun
  exact rest a middle (first s hs a middle hfirst) b s' hrest

theorem Triple.halt : Triple P (halt : Routine σ α) Q := by
  intro s _ a s' hrun
  cases hrun

theorem Triple.update {f : σ → σ} {Q : Unit → σ → Prop} (h : ∀ s, P s → Q () (f s)) :
    Triple P (update f) Q := by
  intro s hs a s' hrun
  cases hrun
  exact h s hs

theorem Triple.attempt {f : σ → Option σ} {Q : Unit → σ → Prop}
    (h : ∀ s s', P s → f s = some s' → Q () s') : Triple P (attempt f) Q := by
  intro s hs a s' hrun
  obtain ⟨middle, hmiddle, heq⟩ := Option.map_eq_some_iff.mp hrun
  cases heq
  exact h s _ hs hmiddle

/-- The value that was read is the one of the state. -/
theorem Triple.read {f : σ → α} : Triple P (read f) (fun a s => P s ∧ a = f s) := by
  intro s hs a s' hrun
  cases hrun
  exact ⟨hs, rfl⟩

theorem Triple.weaken {m : Routine σ α} (triple : Triple P m Q) (h : ∀ s, P' s → P s) :
    Triple P' m Q :=
  fun s hs => triple s (h s hs)

theorem Triple.strengthen {Q' : α → σ → Prop} {m : Routine σ α} (triple : Triple P m Q)
    (h : ∀ a s, Q a s → Q' a s) : Triple P m Q' :=
  fun s hs a s' hrun => h a s' (triple s hs a s' hrun)

theorem Triple.exists {ι : Type} {P : ι → σ → Prop} {m : Routine σ α}
    (h : ∀ i, Triple (P i) m Q) : Triple (fun s => ∃ i, P i s) m Q := by
  rintro s ⟨i, hs⟩
  exact h i s hs

/-- A loop over a list keeps what each of its turns keeps. -/
theorem Triple.forM {f : α → Routine σ Unit} {list : List α}
    (turn : ∀ a, Triple P (f a) (fun _ => P)) : Triple P (list.forM f) (fun _ => P) := by
  induction list with
  | nil => exact Triple.pure (fun _ hs => hs)
  | cons a rest ih => exact (turn a).bind (fun _ => ih)

end Routine

end MachFormal.Library

namespace MachFormal.InodePager.Balance

open MachFormal.Library MachFormal.Library.Routine
open MachFormal.InodePager.InodeCache (IsId)
open MachFormal.InodePager.InodeIO (Word FileSystem Errno)

abbrev Port := Nat

/-- What the calling thread did: `unix_master` less `unix_release`, and for every record
`istruct_get` less `istruct_put`.  A record that the thread created is born in use; `created`
counts these uses. -/
structure Thread where
  unixLock : Int
  uses : IsId → Int
  created : IsId → Int
  inodeLocks : Nat → Bool
  devicePagerLock : Bool

/-- The members of an istruct that `istruct_lock` does not guard. -/
structure PagerRecord where
  pager : Option Port
  pagerGlobal : Option Port
  cached : Bool
  pagingShift : Nat
  errors : Nat
  space : PagerSpace.Istruct

/-- An inode with its `vm_info`. -/
structure VmInode where
  file : InodeIO.Inode
  pager : Option Port
  inodeSize : Word
  text : Bool

structure PagerFile where
  ip : Nat
  space : PagerSpace.PagerFile

structure DataRequest where
  pager : Port
  offset : Word

structure DevPager where
  pager : Port
  pagerRequest : Port

/-- The tables of the pagers, and the calling thread.  The hash table is the list of the records
in it: a record is entered under its own `pager` port. -/
structure World where
  core : InodeCache.Core
  records : IsId → PagerRecord
  portHash : List IsId
  inodes : Nat → VmInode
  pagerFiles : List PagerFile
  requests : List DataRequest
  devices : List DevPager
  thread : Thread

/-- The rest of the kernel. -/
structure Kernel where
  fs : FileSystem
  pageSize : Nat
  qmax : Nat
  ident : Nat → Nat × Nat × Nat
  iget : World → Nat → Nat → Nat → Option Nat
  /-- The data under `istruct_lock` when a thread that slept on a record goes on. -/
  awaken : World → IsId → InodeCache.Core
  zalloc : World → Option IsId
  kalloc : World → Bool
  /-- The map of a record that has no paging file. -/
  noSpace : PagerSpace.Istruct
  portAllocate : World → Option Port
  portSetAdd : World → Port → Bool
  globalName : Port → Port
  inputBuffer : Nat → UInt8
  inOutRatio : Nat

/-! ## Acquiring and giving back -/

def unixMaster : Routine World Unit :=
  update (fun w => { w with thread := { w.thread with unixLock := w.thread.unixLock + 1 } })

def unixRelease : Routine World Unit :=
  update (fun w => { w with thread := { w.thread with unixLock := w.thread.unixLock - 1 } })

/-- A thread that locks an inode twice sleeps forever. -/
def ilock (ip : Nat) : Routine World Unit :=
  attempt (fun w =>
    if w.thread.inodeLocks ip then none
    else some { w with thread := { w.thread with
      inodeLocks := Function.update w.thread.inodeLocks ip true } })

def iunlock (ip : Nat) : Routine World Unit :=
  update (fun w => { w with thread := { w.thread with
    inodeLocks := Function.update w.thread.inodeLocks ip false } })

/-- `simple_lock(&device_pager_lock)`. -/
def lockDevicePager : Routine World Unit :=
  attempt (fun w =>
    if w.thread.devicePagerLock then none
    else some { w with thread := { w.thread with devicePagerLock := true } })

def unlockDevicePager : Routine World Unit :=
  update (fun w => { w with thread := { w.thread with devicePagerLock := false } })

/-- A call of `istruct_get`, or of `istruct_put`. -/
def countUse (is : IsId) (amount : Int) : Routine World Unit :=
  update (fun w => { w with thread := { w.thread with
    uses := Function.update w.thread.uses is (w.thread.uses is + amount) } })

def setCore (core : InodeCache.Core) : Routine World Unit :=
  update (fun w => { w with core := core })

def setInode (ip : Nat) (f : VmInode → VmInode) : Routine World Unit :=
  update (fun w => { w with inodes := Function.update w.inodes ip (f (w.inodes ip)) })

/-- Change what a record has of its pages. -/
def setPages (is : IsId) (errors : Nat) (space : PagerSpace.Istruct) : Routine World Unit :=
  update (fun w => { w with
    records := Function.update w.records is
      { w.records is with errors := errors, space := space } })

section Routines

variable (kernel : Kernel)

/-- The end of `istruct_get`: the record is in memory, or `iget` brings its inode in.  The
inode comes locked and is unlocked twice. -/
def istructGetEnd (is : IsId) (core : InodeCache.Core) (got : InodeCache.Thread) :
    Routine World Nat := do
  setCore core
  match got.pc with
  | .idle =>
      match got.ip with
      | some ip => pure ip
      | none => halt
  | .getMoving _ =>
      match (core.istruct is).inode with
      | .ip _ => halt
      | .fsIp dev fs ino =>
          let w ← read id
          match kernel.iget w dev fs ino with
          | none => halt
          | some ip =>
              ilock ip
              iunlock ip
              setInode ip (fun inode => { inode with pager := (w.records is).pagerGlobal })
              iunlock ip
              setCore (InodeCache.istructGetMoved core got is ip).1
              pure ip
  | _ => halt

def istructGet (is : IsId) : Routine World Nat := do
  countUse is 1
  let w ← read id
  let (core, got) := InodeCache.istructGet w.core ⟨.idle, [], none⟩ is
  match got.pc with
  | .getSleep _ =>
      let (core, got) :=
        InodeCache.istructGetTest (kernel.awaken { w with core := core } is) got is
      istructGetEnd kernel is core got
  | _ => istructGetEnd kernel is core got

/-- The rounds of the quota loop of `istruct_put`; every round takes a record off the queue. -/
def putRounds : Nat → InodeCache.Core → InodeCache.Thread → InodeCache.Core
  | 0, core, _ => core
  | n + 1, core, thread =>
      match thread.pc with
      | .putReleasing is =>
          let (core', thread') := InodeCache.istructPutLoop kernel.qmax kernel.ident
            (core.put is { core.istruct is with state := .out }) thread
          putRounds n core' thread'
      | _ => core

def istructPut (is : IsId) : Routine World Unit := do
  countUse is (-1)
  let w ← read id
  let (core, put) :=
    InodeCache.istructPut kernel.qmax kernel.ident w.core ⟨.idle, [is], none⟩ is
  setCore (putRounds kernel (core.queue.length + 1) core put)

/-- `inode_pager_lookup`. -/
def lookup (w : World) (name : Port) : Option IsId :=
  w.portHash.find? (fun is => decide ((w.records is).pager = some name))

/-- `pf_bmap` on the paging file of a record; `none` stands for the offset `-1`. -/
def pfBmap (is : IsId) (offset : Word) (flag : PagerSpace.Flag) :
    Routine World (Option Word) := do
  let w ← read id
  let record := w.records is
  match w.pagerFiles[record.space.pfInfo]? with
  | none => halt
  | some pf =>
      match PagerSpace.pfBmap kernel.pageSize pf.space record.space offset.toNat flag
        (kernel.kalloc w) with
      | .error _ => halt
      | .ok (actual, space, pf') =>
          setPages is record.errors space
          update (fun w => { w with
            pagerFiles := w.pagerFiles.set record.space.pfInfo { pf with space := pf' } })
          pure (actual.map (BitVec.ofNat 32))

/-- The offset of a page in the inode; `none` stands for `-1`. -/
def actualOffset (is : IsId) (offset : Word) (flag : PagerSpace.Flag) :
    Routine World (Option Word) := do
  let w ← read id
  if (w.core.istruct is).swapfile then pfBmap kernel is offset flag
  else pure (if offset = -1 then none else some offset)

/-! ## Reading and writing -/

/-- The loop of `inode_write`; it leaves through an error of `BMAP` or of the buffer, or at the
end. -/
def inodeWriteLoop (ip : Nat) (addr : Nat → UInt8) (csize pOffset : Nat) (fOffset : Word) :
    Routine World (Option Errno) := do
  let w ← read id
  match InodeIO.writeBlock kernel.fs addr (w.inodes ip).file csize pOffset fOffset with
  | (none, file) =>
      setInode ip (fun inode => { inode with file := file })
      unixRelease
      pure (some .eio)
  | (some n, file) =>
      setInode ip (fun inode => { inode with file := file })
      if csize - n ≠ 0 ∧ n ≠ 0 then
        inodeWriteLoop ip addr (csize - n) (pOffset + n) (fOffset + BitVec.ofNat 32 n)
      else
        unixRelease
        pure none
termination_by csize
decreasing_by omega

def inodeWrite (ip : Nat) (addr : Nat → UInt8) (csize fOffset : Word) :
    Routine World (Option Errno) := do
  unixMaster
  inodeWriteLoop kernel ip addr csize.toNat 0 fOffset

/-- `inode_read` acquires nothing. -/
def inodeRead (ip : Nat) (buffer : Nat → UInt8) (fOffset : Word) :
    Routine World (Option Errno × (Nat → UInt8)) :=
  read (fun w => InodeIO.inodeRead kernel.fs kernel.pageSize (w.inodes ip).file buffer fOffset)

/-- The part of `inode_has_page` that has the record. -/
def hasPageOf (is : IsId) (fOffset : Word) : Routine World Bool := do
  let ip ← istructGet kernel is
  ilock ip
  let file ← read (fun w => (w.inodes ip).file)
  let lbn := kernel.fs.lblkno fOffset
  let on := kernel.fs.blkoff fOffset
  let diff := file.iSize - fOffset
  if file.iSize ≤ fOffset then
    istructPut kernel is
    iunlock ip
    unixRelease
    pure false
  else
    let n := min (min (kernel.fs.bsize - on) kernel.pageSize) diff.toNat
    if kernel.fs.bmapError file.volume lbn (on + n) then
      istructPut kernel is
      iunlock ip
      unixRelease
      pure true
    else if (file.volume.find lbn).isNone then
      istructPut kernel is
      iunlock ip
      unixRelease
      pure false
    else
      istructPut kernel is
      iunlock ip
      unixRelease
      pure true

/-- `inode_has_page` of a kernel with external pagers. -/
def inodeHasPage (pager : Port) (offset : Word) : Routine World Bool := do
  unixMaster
  match ← read (fun w => lookup w pager) with
  | none => pure false
  | some is => hasPageOf kernel is offset

/-- `inode_has_page` of a kernel without external pagers, where the pager is the address of
the record. -/
def inodeHasPageInternal (pager : Option IsId) (offset : Word) : Routine World Bool := do
  unixMaster
  match pager with
  | none => halt
  | some is => hasPageOf kernel is offset

/-- The size of a pageout. -/
def pageoutBytes (w : World) (is : IsId) (ip : Nat) (offset : Word) : Word :=
  InodeIO.pageoutSize kernel.pageSize
    ⟨(w.core.istruct is).paging, (w.records is).pagingShift, (w.inodes ip).file,
      (w.inodes ip).inodeSize, (w.records is).errors⟩ offset

def countError (is : IsId) : Option Errno → Routine World Unit
  | none => pure ()
  | some _ => do
      let w ← read id
      setPages is ((w.records is).errors + 1) (w.records is).space

def isPageWrite (is : IsId) (ip : Nat) (offset : Word) (addr : Nat → UInt8) :
    Routine World Unit := do
  match ← actualOffset kernel is offset .write with
  | none => pure ()
  | some actual =>
      let size ← read (fun w => pageoutBytes kernel w is ip actual)
      let shift ← read (fun w => (w.records is).pagingShift)
      ilock ip
      let error ← inodeWrite kernel ip addr size (actual <<< shift)
      countError is error
      iunlock ip

def isPageRead (is : IsId) (ip : Nat) (offset : Word) (buffer : Nat → UInt8) :
    Routine World (Option Errno × (Nat → UInt8)) := do
  match ← actualOffset kernel is offset .read with
  | none => pure (some .einval, buffer)
  | some actual =>
      let shift ← read (fun w => (w.records is).pagingShift)
      inodeRead kernel ip buffer (actual <<< shift)

/-- `inode_pager_timeout`: serve the first page in the queue. -/
def inodePagerTimeout : Routine World Unit := do
  let w ← read id
  match w.requests with
  | [] => pure ()
  | entry :: rest =>
      update (fun w => { w with requests := rest })
      match lookup w entry.pager with
      | none => pure ()
      | some is =>
          if (w.records is).errors ≠ 0 then pure ()
          else
            unixMaster
            let ip ← istructGet kernel is
            ilock ip
            let _ ← isPageRead kernel is ip entry.offset kernel.inputBuffer
            iunlock ip
            istructPut kernel is
            unixRelease

/-- The pages of a message: `data_cnt` is rounded up to a multiple of the page size, and the
rounded count is a word. -/
def messagePages (dataCnt : Word) : List Nat :=
  List.range ((dataCnt + BitVec.ofNat 32 (kernel.pageSize - 1)).toNat / kernel.pageSize)

def dataWrite (pager : Port) (offset : Word) (addr : Nat → UInt8) (dataCnt : Word) :
    Routine World Unit := do
  unixMaster
  match ← read (fun w => lookup w pager) with
  | none => halt
  | some is =>
      let ip ← istructGet kernel is
      (messagePages kernel dataCnt).forM (fun i =>
        isPageWrite kernel is ip (offset + BitVec.ofNat 32 (i * kernel.pageSize))
          (fun j => addr (i * kernel.pageSize + j)))
      istructPut kernel is
      unixRelease
      (List.range kernel.inOutRatio).forM (fun _ => inodePagerTimeout kernel)

/-- `is_page_initialize`; the page is looked for under the `pager` port of the record. -/
def isPageInitialize (is : IsId) (offset : Word) (addr : Nat → UInt8) :
    Routine World Unit := do
  match ← actualOffset kernel is offset .read with
  | none => pure ()
  | some actual =>
      let record ← read (fun w => w.records is)
      match record.pager with
      | none => halt
      | some name =>
          if ← inodeHasPage kernel name (actual <<< record.pagingShift) then
            dataWrite kernel name actual addr (BitVec.ofNat 32 kernel.pageSize)
          else pure ()

def dataInitialize (pager : Port) (offset : Word) (addr : Nat → UInt8) (dataCnt : Word) :
    Routine World Unit := do
  unixMaster
  match ← read (fun w => lookup w pager) with
  | none => halt
  | some is =>
      let _ ← istructGet kernel is
      (messagePages kernel dataCnt).forM (fun i =>
        isPageInitialize kernel is (offset + BitVec.ofNat 32 (i * kernel.pageSize))
          (fun j => addr (i * kernel.pageSize + j)))
      istructPut kernel is
      unixRelease

/-- `inode_pagein` of a kernel without external pagers. -/
def inodePagein (is : IsId) (buffer : Nat → UInt8) (offset : Word) :
    Routine World (Option Errno × (Nat → UInt8)) := do
  unixMaster
  let ip ← istructGet kernel is
  ilock ip
  let ret ← inodeRead kernel ip buffer offset
  iunlock ip
  istructPut kernel is
  unixRelease
  pure ret

/-- `inode_pageout` of a kernel without external pagers. -/
def inodePageout (is : IsId) (addr : Nat → UInt8) (offset : Word) :
    Routine World (Option Errno) := do
  unixMaster
  let ip ← istructGet kernel is
  ilock ip
  let size ← read (fun w => pageoutBytes kernel w is ip offset)
  let ret ← inodeWrite kernel ip addr size offset
  istructPut kernel is
  iunlock ip
  unixRelease
  pure ret

/-! ## Setting up a pager -/

/-- `inode_pager_create` for a mapped file, after it has memory for the record; `name` is the
value of its `pager_global`. -/
def inodePagerCreate (ip : Nat) (is : IsId) (name : Option Port) : Routine World Unit := do
  update (fun w => { w with
    core := (InodeCache.pagerCreate w.core ⟨.idle, [], none⟩ is false false ip).1
    records := Function.update w.records is ⟨none, name, false, 0, 0, kernel.noSpace⟩
    thread := { w.thread with
      created := Function.update w.thread.created is (w.thread.created is + 1) } })
  setInode ip (fun inode => { inode with pager := name })
  istructPut kernel is

/-- The part of `inode_pager_setup` that gives a new record its port. -/
def enterPager (ip : Nat) (is : IsId) (canCache : Bool) : Routine World Unit := do
  let w ← read id
  match kernel.portAllocate w with
  | none => halt
  | some name =>
      if kernel.portSetAdd w name then
        update (fun w => { w with
          records := Function.update w.records is { w.records is with
            pager := some name, pagerGlobal := some (kernel.globalName name), cached := canCache }
          portHash := w.portHash ++ [is] })
        setInode ip (fun inode => { inode with pager := some (kernel.globalName name) })
      else halt

/-- The inode is used as a paging file. -/
def isPagerFile (w : World) (ip : Nat) : Bool :=
  w.pagerFiles.any (fun pf => decide (pf.ip = ip))

def inodePagerSetup (ip : Option Nat) (isText canCache : Bool) :
    Routine World (Option Port) := do
  unixMaster
  match ip with
  | none => pure none
  | some ip =>
      setInode ip (fun inode => { inode with text := inode.text || isText })
      let w ← read id
      match (w.inodes ip).pager with
      | none =>
          if isPagerFile w ip then pure none
          else
            match kernel.zalloc w with
            | none =>
                unixRelease
                read (fun w => (w.inodes ip).pager)
            | some is =>
                inodePagerCreate kernel ip is none
                enterPager kernel ip is canCache
                unixRelease
                read (fun w => (w.inodes ip).pager)
      | some _ =>
          unixRelease
          read (fun w => (w.inodes ip).pager)

/-- `inode_pager_setup` of a kernel without external pagers; the name of a pager is the address
of its record. -/
def inodePagerSetupInternal (ip : Option Nat) (isText : Bool) : Routine World (Option Port) := do
  unixMaster
  match ip with
  | none => pure none
  | some ip =>
      setInode ip (fun inode => { inode with text := inode.text || isText })
      let w ← read id
      match (w.inodes ip).pager with
      | none =>
          if isPagerFile w ip then pure none
          else
            match kernel.zalloc w with
            | none =>
                unixRelease
                read (fun w => (w.inodes ip).pager)
            | some is =>
                inodePagerCreate kernel ip is (some is)
                unixRelease
                read (fun w => (w.inodes ip).pager)
      | some _ =>
          unixRelease
          read (fun w => (w.inodes ip).pager)

end Routines

/-! ## The device pager -/

inductive KernReturn where
  | success
  | failure
  deriving DecidableEq, Repr

def isUser (pagerRequest : Port) (d : DevPager) : Bool :=
  decide (d.pagerRequest = pagerRequest)

/-- `memory_object_terminate` of the device pager. -/
def deviceTerminate (pagerRequest : Port) : Routine World KernReturn := do
  lockDevicePager
  match ← read (fun w => w.devices.find? (isUser pagerRequest)) with
  | none => pure .failure
  | some _ =>
      update (fun w => { w with devices := w.devices.eraseP (isUser pagerRequest) })
      unlockDevicePager
      pure .success

/-! ## What is held since a routine was entered -/

/-- Acquired and not given back, and the records created. -/
structure Nest where
  master : Int
  uses : List IsId
  created : List IsId
  inodes : List Nat

/-- The hash table with the names in it. -/
def World.names (w : World) : List IsId × (IsId → Option Port) :=
  (w.portHash, fun is => (w.records is).pager)

/-- The thread holds what it held in `t`, and the nest. -/
structure Since (t : Thread) (names : List IsId × (IsId → Option Port)) (nest : Nest)
    (w : World) : Prop where
  names : w.names = names
  master : w.thread.unixLock = t.unixLock + nest.master
  uses : ∀ is, w.thread.uses is + w.thread.created is =
    t.uses is + t.created is + nest.uses.count is
  created : ∀ is, w.thread.created is = t.created is + nest.created.count is
  inodes : ∀ ip, w.thread.inodeLocks ip = true → t.inodeLocks ip = true ∨ ip ∈ nest.inodes
  device : w.thread.devicePagerLock = t.devicePagerLock

section Specs

variable {kernel : Kernel} {t : Thread} {names : List IsId × (IsId → Option Port)} {m : Int}
  {u c : List IsId} {l : List Nat} {is : IsId} {ip : Nat}

theorem Since.enter (w : World) : Since w.thread w.names ⟨0, [], [], []⟩ w where
  names := rfl
  master := by simp
  uses := by simp
  created := by simp
  inodes := fun _ hlock => Or.inl hlock
  device := rfl

/-- Looking at the state changes nothing. -/
theorem look {α : Type} {P : World → Prop} (f : World → α) : Triple P (read f) (fun _ => P) :=
  Triple.read.strengthen (fun _ _ h => h.1)

/-- A step that leaves the thread and the names alone. -/
theorem quiet {nest : Nest} {f : World → World} (hthread : ∀ w, (f w).thread = w.thread)
    (hnames : ∀ w, (f w).names = w.names) :
    Triple (Since t names nest) (update f) (fun _ => Since t names nest) := by
  refine Triple.update (fun w since => ?_)
  refine ⟨(hnames w).trans since.names, ?_, ?_, ?_, ?_, ?_⟩
  · rw [hthread]; exact since.master
  · rw [hthread]; exact since.uses
  · rw [hthread]; exact since.created
  · rw [hthread]; exact since.inodes
  · rw [hthread]; exact since.device

theorem setCore_quiet {nest : Nest} (core : InodeCache.Core) :
    Triple (Since t names nest) (setCore core) (fun _ => Since t names nest) :=
  quiet (fun _ => rfl) (fun _ => rfl)

theorem setInode_quiet {nest : Nest} (ip : Nat) (f : VmInode → VmInode) :
    Triple (Since t names nest) (setInode ip f) (fun _ => Since t names nest) :=
  quiet (fun _ => rfl) (fun _ => rfl)

theorem setPages_quiet {nest : Nest} (is : IsId) (errors : Nat) (space : PagerSpace.Istruct) :
    Triple (Since t names nest) (setPages is errors space) (fun _ => Since t names nest) := by
  refine quiet (fun _ => rfl) (fun w => ?_)
  refine Prod.ext rfl (funext fun is' => ?_)
  dsimp only [World.names]
  by_cases heq : is' = is
  · subst heq
    rw [Function.update_self]
  · rw [Function.update_of_ne heq]

theorem unixMaster_spec : Triple (Since t names ⟨m, u, c, l⟩) unixMaster
    (fun _ => Since t names ⟨m + 1, u, c, l⟩) := by
  refine Triple.update (fun w since => ?_)
  refine ⟨since.names, ?_, since.uses, since.created, since.inodes, since.device⟩
  have hmaster := since.master
  dsimp only at hmaster ⊢
  omega

theorem unixRelease_spec : Triple (Since t names ⟨m + 1, u, c, l⟩) unixRelease
    (fun _ => Since t names ⟨m, u, c, l⟩) := by
  refine Triple.update (fun w since => ?_)
  refine ⟨since.names, ?_, since.uses, since.created, since.inodes, since.device⟩
  have hmaster := since.master
  dsimp only at hmaster ⊢
  omega

theorem ilock_spec : Triple (Since t names ⟨m, u, c, l⟩) (ilock ip)
    (fun _ => Since t names ⟨m, u, c, ip :: l⟩) := by
  refine Triple.attempt (fun w w' since hlock => ?_)
  split at hlock
  · cases hlock
  · cases hlock
    refine ⟨since.names, since.master, since.uses, since.created, fun ip' hheld => ?_,
      since.device⟩
    by_cases heq : ip' = ip
    · exact Or.inr (heq ▸ List.mem_cons_self)
    · dsimp only at hheld
      rw [Function.update_of_ne heq] at hheld
      exact (since.inodes ip' hheld).imp_right (List.mem_cons_of_mem ip)

theorem iunlock_spec : Triple (Since t names ⟨m, u, c, ip :: l⟩) (iunlock ip)
    (fun _ => Since t names ⟨m, u, c, l⟩) := by
  refine Triple.update (fun w since => ?_)
  refine ⟨since.names, since.master, since.uses, since.created, fun ip' hheld => ?_,
    since.device⟩
  dsimp only at hheld
  by_cases heq : ip' = ip
  · subst heq
    rw [Function.update_self] at hheld
    cases hheld
  · rw [Function.update_of_ne heq] at hheld
    exact (since.inodes ip' hheld).imp_right (List.mem_of_ne_of_mem heq)

/-- To unlock an inode once too often gives nothing back. -/
theorem iunlock_again : Triple (Since t names ⟨m, u, c, l⟩) (iunlock ip)
    (fun _ => Since t names ⟨m, u, c, l⟩) :=
  iunlock_spec.weaken (fun _ since => ⟨since.names, since.master, since.uses, since.created,
    fun ip' hheld => (since.inodes ip' hheld).imp_right (List.mem_cons_of_mem _), since.device⟩)

theorem countUse_get : Triple (Since t names ⟨m, u, c, l⟩) (countUse is 1)
    (fun _ => Since t names ⟨m, is :: u, c, l⟩) := by
  refine Triple.update (fun w since => ?_)
  refine ⟨since.names, since.master, fun is' => ?_, since.created, since.inodes, since.device⟩
  have huses := since.uses is'
  dsimp only at huses ⊢
  by_cases heq : is' = is
  · subst heq
    rw [Function.update_self, List.count_cons_self]
    omega
  · rw [Function.update_of_ne heq, List.count_cons_of_ne (Ne.symm heq)]
    omega

theorem countUse_put : Triple (Since t names ⟨m, is :: u, c, l⟩) (countUse is (-1))
    (fun _ => Since t names ⟨m, u, c, l⟩) := by
  refine Triple.update (fun w since => ?_)
  refine ⟨since.names, since.master, fun is' => ?_, since.created, since.inodes, since.device⟩
  have huses := since.uses is'
  dsimp only at huses ⊢
  by_cases heq : is' = is
  · subst heq
    rw [List.count_cons_self] at huses
    rw [Function.update_self]
    omega
  · rw [List.count_cons_of_ne (Ne.symm heq)] at huses
    rw [Function.update_of_ne heq]
    omega

theorem istructGetEnd_spec (core : InodeCache.Core) (got : InodeCache.Thread) :
    Triple (Since t names ⟨m, u, c, l⟩) (istructGetEnd kernel is core got)
      (fun _ => Since t names ⟨m, u, c, l⟩) := by
  refine (setCore_quiet core).bind (fun _ => ?_)
  split
  · split
    · exact Triple.pure (fun _ since => since)
    · exact Triple.halt
  · split
    · exact Triple.halt
    · refine (look id).bind (fun w => ?_)
      split
      · exact Triple.halt
      · refine ilock_spec.bind (fun _ => iunlock_spec.bind (fun _ => ?_))
        refine (setInode_quiet _ _).bind (fun _ => iunlock_again.bind (fun _ => ?_))
        exact (setCore_quiet _).bind (fun _ => Triple.pure (fun _ since => since))
  · exact Triple.halt

theorem istructGet_spec : Triple (Since t names ⟨m, u, c, l⟩) (istructGet kernel is)
    (fun _ => Since t names ⟨m, is :: u, c, l⟩) := by
  refine countUse_get.bind (fun _ => (look id).bind (fun w => ?_))
  dsimp only
  split
  · exact istructGetEnd_spec _ _
  · exact istructGetEnd_spec _ _

theorem istructPut_spec : Triple (Since t names ⟨m, is :: u, c, l⟩) (istructPut kernel is)
    (fun _ => Since t names ⟨m, u, c, l⟩) :=
  countUse_put.bind (fun _ => (look id).bind (fun _ => setCore_quiet _))

theorem pfBmap_quiet {nest : Nest} (offset : Word) (flag : PagerSpace.Flag) :
    Triple (Since t names nest) (pfBmap kernel is offset flag)
      (fun _ => Since t names nest) := by
  refine (look id).bind (fun w => ?_)
  dsimp only
  split
  · exact Triple.halt
  · split
    · exact Triple.halt
    · refine (setPages_quiet _ _ _).bind (fun _ => ?_)
      refine Triple.bind (quiet ?_ ?_) (fun _ => Triple.pure (fun _ since => since))
      · exact fun _ => rfl
      · exact fun _ => rfl

theorem actualOffset_quiet {nest : Nest} (offset : Word) (flag : PagerSpace.Flag) :
    Triple (Since t names nest) (actualOffset kernel is offset flag)
      (fun _ => Since t names nest) := by
  refine (look id).bind (fun w => ?_)
  split
  · exact pfBmap_quiet offset flag
  · exact Triple.pure (fun _ since => since)

/-- Every exit of the loop of `inode_write` releases the master. -/
theorem inodeWriteLoop_spec (addr : Nat → UInt8) (csize pOffset : Nat) (fOffset : Word) :
    Triple (Since t names ⟨m + 1, u, c, l⟩) (inodeWriteLoop kernel ip addr csize pOffset fOffset)
      (fun _ => Since t names ⟨m, u, c, l⟩) := by
  induction csize using Nat.strong_induction_on generalizing pOffset fOffset with
  | _ csize ih =>
      rw [inodeWriteLoop]
      refine (look id).bind (fun w => ?_)
      split
      · refine (setInode_quiet _ _).bind (fun _ => unixRelease_spec.bind (fun _ => ?_))
        exact Triple.pure (fun _ since => since)
      · refine (setInode_quiet _ _).bind (fun _ => ?_)
        split
        · next hmore => exact ih _ (by omega) _ _
        · exact unixRelease_spec.bind (fun _ => Triple.pure (fun _ since => since))

theorem inodeWrite_spec (addr : Nat → UInt8) (csize fOffset : Word) :
    Triple (Since t names ⟨m, u, c, l⟩) (inodeWrite kernel ip addr csize fOffset)
      (fun _ => Since t names ⟨m, u, c, l⟩) :=
  unixMaster_spec.bind (fun _ => inodeWriteLoop_spec addr _ _ fOffset)

/-- The four exits of `inode_has_page` give back what it took. -/
theorem hasPageOf_spec (fOffset : Word) :
    Triple (Since t names ⟨m + 1, u, c, l⟩) (hasPageOf kernel is fOffset)
      (fun _ => Since t names ⟨m, u, c, l⟩) := by
  refine istructGet_spec.bind (fun ip => ilock_spec.bind (fun _ => (look _).bind (fun file => ?_)))
  have leave : ∀ answer : Bool, Triple (Since t names ⟨m + 1, is :: u, c, ip :: l⟩)
      (do istructPut kernel is; iunlock ip; unixRelease; pure answer)
      (fun _ => Since t names ⟨m, u, c, l⟩) := fun answer =>
    istructPut_spec.bind (fun _ => iunlock_spec.bind (fun _ => unixRelease_spec.bind (fun _ =>
      Triple.pure (fun _ since => since))))
  dsimp only
  split
  · exact leave false
  · split
    · exact leave true
    · split
      · exact leave false
      · exact leave true

/-- `inode_has_page` of a pager that is known. -/
theorem inodeHasPage_spec {name : Port} (offset : Word)
    (hknown : ∀ w : World, w.names = names → (lookup w name).isSome) :
    Triple (Since t names ⟨m, u, c, l⟩) (inodeHasPage kernel name offset)
      (fun _ => Since t names ⟨m, u, c, l⟩) := by
  refine unixMaster_spec.bind (fun _ => Triple.read.bind (fun found => ?_))
  split
  · rintro w ⟨since, hfound⟩
    have hthere := hknown w since.names
    rw [← hfound] at hthere
    cases hthere
  · exact (hasPageOf_spec offset).weaken (fun _ h => h.1)

theorem countError_quiet {nest : Nest} (error : Option Errno) :
    Triple (Since t names nest) (countError is error) (fun _ => Since t names nest) := by
  cases error with
  | none => exact Triple.pure (fun _ since => since)
  | some error => exact (look id).bind (fun _ => setPages_quiet _ _ _)

theorem isPageWrite_spec (offset : Word) (addr : Nat → UInt8) :
    Triple (Since t names ⟨m, u, c, l⟩) (isPageWrite kernel is ip offset addr)
      (fun _ => Since t names ⟨m, u, c, l⟩) := by
  refine (actualOffset_quiet offset .write).bind (fun actual => ?_)
  split
  · exact Triple.pure (fun _ since => since)
  · refine (look _).bind (fun _ => (look _).bind (fun _ => ilock_spec.bind (fun _ => ?_)))
    exact (inodeWrite_spec _ _ _).bind (fun _ => (countError_quiet _).bind (fun _ => iunlock_spec))

theorem isPageRead_quiet {nest : Nest} (offset : Word) (buffer : Nat → UInt8) :
    Triple (Since t names nest) (isPageRead kernel is ip offset buffer)
      (fun _ => Since t names nest) := by
  refine (actualOffset_quiet offset .read).bind (fun actual => ?_)
  split
  · exact Triple.pure (fun _ since => since)
  · exact (look _).bind (fun _ => look _)

theorem inodePagerTimeout_spec :
    Triple (Since t names ⟨m, u, c, l⟩) (inodePagerTimeout kernel)
      (fun _ => Since t names ⟨m, u, c, l⟩) := by
  refine (look id).bind (fun w => ?_)
  split
  · exact Triple.pure (fun _ since => since)
  · refine Triple.bind (quiet ?_ ?_) (fun _ => ?_)
    · exact fun _ => rfl
    · exact fun _ => rfl
    · split
      · exact Triple.pure (fun _ since => since)
      · split
        · exact Triple.pure (fun _ since => since)
        · refine unixMaster_spec.bind (fun _ => istructGet_spec.bind (fun ip => ?_))
          refine ilock_spec.bind (fun _ => (isPageRead_quiet _ _).bind (fun _ => ?_))
          exact iunlock_spec.bind (fun _ => istructPut_spec.bind (fun _ => unixRelease_spec))

theorem dataWrite_spec (pager : Port) (offset : Word) (addr : Nat → UInt8) (dataCnt : Word) :
    Triple (Since t names ⟨m, u, c, l⟩) (dataWrite kernel pager offset addr dataCnt)
      (fun _ => Since t names ⟨m, u, c, l⟩) := by
  refine unixMaster_spec.bind (fun _ => (look _).bind (fun found => ?_))
  split
  · exact Triple.halt
  · refine istructGet_spec.bind (fun ip => ?_)
    refine (Triple.forM (fun i => isPageWrite_spec _ _)).bind (fun _ => ?_)
    refine istructPut_spec.bind (fun _ => unixRelease_spec.bind (fun _ => ?_))
    exact Triple.forM (fun _ => inodePagerTimeout_spec)

/-- A record that was found under a name is found under it as long as the names stay. -/
theorem lookup_known {w w' : World} {name : Port} (hfound : some is = lookup w name)
    (hnames : w'.names = w.names) :
    (w'.records is).pager = some name ∧ (lookup w' name).isSome := by
  have hpager : (w.records is).pager = some name := by
    have htest := List.find?_some hfound.symm
    simpa using htest
  have hsame : ∀ x, (w'.records x).pager = (w.records x).pager :=
    fun x => congrFun (congrArg Prod.snd hnames) x
  have hhash : w'.portHash = w.portHash := congrArg Prod.fst hnames
  refine ⟨(hsame is).trans hpager, ?_⟩
  unfold lookup at hfound ⊢
  simp only [hsame, hhash]
  rw [← hfound]
  rfl

theorem isPageInitialize_spec {name : Port} (offset : Word) (addr : Nat → UInt8)
    (hknown : ∀ w : World, w.names = names →
      (w.records is).pager = some name ∧ (lookup w name).isSome) :
    Triple (Since t names ⟨m, u, c, l⟩) (isPageInitialize kernel is offset addr)
      (fun _ => Since t names ⟨m, u, c, l⟩) := by
  refine (actualOffset_quiet offset .read).bind (fun actual => ?_)
  split
  · exact Triple.pure (fun _ since => since)
  · refine Triple.read.bind (fun record => ?_)
    split
    · exact Triple.halt
    · next name' hname =>
        rintro w ⟨since, rfl⟩
        obtain rfl : name' = name :=
          Option.some.inj (hname.symm.trans (hknown w since.names).1)
        revert since
        refine ((inodeHasPage_spec _ (fun w' h => (hknown w' h).2)).bind (fun there => ?_)) w
        split
        · exact dataWrite_spec _ _ _ _
        · exact Triple.pure (fun _ since => since)

theorem dataInitialize_spec (pager : Port) (offset : Word) (addr : Nat → UInt8) (dataCnt : Word) :
    Triple (Since t names ⟨m, u, c, l⟩) (dataInitialize kernel pager offset addr dataCnt)
      (fun _ => Since t names ⟨m, u, c, l⟩) := by
  refine unixMaster_spec.bind (fun _ => Triple.read.bind (fun found => ?_))
  split
  · exact Triple.halt
  · next is =>
      rintro w ⟨since, hfound⟩
      have hknown : ∀ w' : World, w'.names = names →
          (w'.records is).pager = some pager ∧ (lookup w' pager).isSome :=
        fun w' hnames => lookup_known hfound (hnames.trans since.names.symm)
      revert since
      refine (istructGet_spec.bind (fun ip => ?_)) w
      refine (Triple.forM (fun i => isPageInitialize_spec _ _ hknown)).bind (fun _ => ?_)
      exact istructPut_spec.bind (fun _ => unixRelease_spec)

theorem inodePagein_spec (buffer : Nat → UInt8) (offset : Word) :
    Triple (Since t names ⟨m, u, c, l⟩) (inodePagein kernel is buffer offset)
      (fun _ => Since t names ⟨m, u, c, l⟩) := by
  refine unixMaster_spec.bind (fun _ => istructGet_spec.bind (fun ip => ?_))
  refine ilock_spec.bind (fun _ => (look _).bind (fun _ => iunlock_spec.bind (fun _ => ?_)))
  refine istructPut_spec.bind (fun _ => unixRelease_spec.bind (fun _ => ?_))
  exact Triple.pure (fun _ since => since)

theorem inodePageout_spec (addr : Nat → UInt8) (offset : Word) :
    Triple (Since t names ⟨m, u, c, l⟩) (inodePageout kernel is addr offset)
      (fun _ => Since t names ⟨m, u, c, l⟩) := by
  refine unixMaster_spec.bind (fun _ => istructGet_spec.bind (fun ip => ?_))
  refine ilock_spec.bind (fun _ => (look _).bind (fun _ => (inodeWrite_spec _ _ _).bind
    (fun _ => ?_)))
  refine istructPut_spec.bind (fun _ => iunlock_spec.bind (fun _ => unixRelease_spec.bind
    (fun _ => ?_)))
  exact Triple.pure (fun _ since => since)

/-- A new record is born in use; `istruct_put` gives that use back. -/
theorem inodePagerCreate_spec (name : Option Port) :
    Triple (Since t names ⟨m, u, c, l⟩) (inodePagerCreate kernel ip is name)
      (fun _ w => ∃ names', Since t names' ⟨m, u, is :: c, l⟩ w) := by
  have born : Triple (Since t names ⟨m, u, c, l⟩)
      (update (fun w => { w with
        core := (InodeCache.pagerCreate w.core ⟨.idle, [], none⟩ is false false ip).1
        records := Function.update w.records is ⟨none, name, false, 0, 0, kernel.noSpace⟩
        thread := { w.thread with
          created := Function.update w.thread.created is (w.thread.created is + 1) } }))
      (fun _ w => ∃ names', Since t names' ⟨m, is :: u, is :: c, l⟩ w) := by
    refine Triple.update (fun w since => ⟨_, rfl, since.master, fun is' => ?_, fun is' => ?_,
      since.inodes, since.device⟩)
    · have huses := since.uses is'
      dsimp only at huses ⊢
      by_cases heq : is' = is
      · subst heq
        rw [Function.update_self, List.count_cons_self]
        omega
      · rw [Function.update_of_ne heq, List.count_cons_of_ne (Ne.symm heq)]
        omega
    · have hcreated := since.created is'
      dsimp only at hcreated ⊢
      by_cases heq : is' = is
      · subst heq
        rw [Function.update_self, List.count_cons_self]
        omega
      · rw [Function.update_of_ne heq, List.count_cons_of_ne (Ne.symm heq)]
        omega
  refine born.bind (fun _ => Triple.exists (fun names' => ?_))
  refine (setInode_quiet _ _).bind (fun _ => ?_)
  exact istructPut_spec.strengthen (fun _ _ since => ⟨names', since⟩)

theorem enterPager_spec {nest : Nest} (canCache : Bool) :
    Triple (Since t names nest) (enterPager kernel ip is canCache)
      (fun _ w => ∃ names', Since t names' nest w) := by
  refine (look id).bind (fun w => ?_)
  split
  · exact Triple.halt
  · split
    · refine Triple.bind (Q := fun _ w => ∃ names', Since t names' nest w)
        (Triple.update (fun w since => ⟨_, rfl, since.master, since.uses, since.created,
          since.inodes, since.device⟩)) (fun _ => Triple.exists (fun names' => ?_))
      exact (setInode_quiet _ _).strengthen (fun _ _ since => ⟨names', since⟩)
    · exact Triple.halt

/-- The inode may be mapped: it has a pager already, or is not a paging file. -/
def Mappable (ip : Nat) (w : World) : Prop :=
  (w.inodes ip).pager = none → isPagerFile w ip = false

/-- What `inode_pager_setup` leaves: at most one record is new. -/
def SetUp (t : Thread) (w : World) : Prop :=
  ∃ names born, born.length ≤ 1 ∧ Since t names ⟨0, [], born, []⟩ w

theorem SetUp.of_since {w : World} (since : Since t names ⟨0, [], [], []⟩ w) : SetUp t w :=
  ⟨names, [], Nat.zero_le 1, since⟩

/-- The beginning that both variants of `inode_pager_setup` share. -/
theorem setup_begin {isText : Bool} {f : World → Routine World (Option Port)}
    {Q : Option Port → World → Prop}
    (rest : ∀ w, Mappable ip w →
      Triple (Since t names ⟨0 + 1, [], [], []⟩) (f w) Q) :
    Triple (fun w => Since t names ⟨0, [], [], []⟩ w ∧ Mappable ip w)
      (do
        unixMaster
        setInode ip (fun inode => { inode with text := inode.text || isText })
        let w ← read id
        f w) Q := by
  have first : Triple (fun w => Since t names ⟨0, [], [], []⟩ w ∧ Mappable ip w) unixMaster
      (fun _ w => Since t names ⟨0 + 1, [], [], []⟩ w ∧ Mappable ip w) :=
    Triple.update (fun w h => ⟨unixMaster_spec w h.1 () _ rfl, h.2⟩)
  have second : Triple (fun w => Since t names ⟨0 + 1, [], [], []⟩ w ∧ Mappable ip w)
      (setInode ip (fun inode => { inode with text := inode.text || isText }))
      (fun _ w => Since t names ⟨0 + 1, [], [], []⟩ w ∧ Mappable ip w) := by
    refine Triple.update (fun w h => ⟨setInode_quiet ip
      (fun inode => { inode with text := inode.text || isText }) w h.1 () _ rfl, fun hpager => ?_⟩)
    dsimp only at hpager
    rw [Function.update_self] at hpager
    exact h.2 hpager
  refine first.bind (fun _ => second.bind (fun _ => Triple.read.bind (fun w => ?_)))
  rintro _ ⟨h, rfl⟩
  exact rest _ h.2 _ h.1

theorem setup_end : Triple (Since t names ⟨0 + 1, [], [], []⟩)
    (do unixRelease; read (fun w => (w.inodes ip).pager)) (fun _ => SetUp t) :=
  unixRelease_spec.bind
    (fun _ => (look _).strengthen (fun _ _ since => SetUp.of_since since))

theorem setup_created : Triple (fun w => ∃ names', Since t names' ⟨0 + 1, [], [is], []⟩ w)
    (do unixRelease; read (fun w => (w.inodes ip).pager)) (fun _ => SetUp t) := by
  refine Triple.exists (fun names' => ?_)
  refine unixRelease_spec.bind (fun _ => ?_)
  exact (look _).strengthen (fun _ _ since => ⟨names', [is], le_refl 1, since⟩)

theorem inodePagerSetup_spec (isText canCache : Bool) :
    Triple (fun w => Since t names ⟨0, [], [], []⟩ w ∧ Mappable ip w)
      (inodePagerSetup kernel (some ip) isText canCache) (fun _ => SetUp t) := by
  refine setup_begin (fun w hmappable => ?_)
  split
  · next hpager =>
      rw [if_neg (by simp [hmappable hpager])]
      split
      · exact setup_end
      · refine (inodePagerCreate_spec none).bind (fun _ => Triple.exists (fun names' => ?_))
        exact (enterPager_spec canCache).bind (fun _ => setup_created)
  · exact setup_end

theorem inodePagerSetupInternal_spec (isText : Bool) :
    Triple (fun w => Since t names ⟨0, [], [], []⟩ w ∧ Mappable ip w)
      (inodePagerSetupInternal kernel (some ip) isText) (fun _ => SetUp t) := by
  refine setup_begin (fun w hmappable => ?_)
  split
  · next hpager =>
      rw [if_neg (by simp [hmappable hpager])]
      split
      · exact setup_end
      · exact (inodePagerCreate_spec _).bind (fun _ => setup_created)
  · exact setup_end

/-- The list of the device pager is locked, and was not locked by the thread before. -/
def DeviceLocked (t : Thread) (w : World) : Prop :=
  t.devicePagerLock = false ∧ w.thread = { t with devicePagerLock := true }

theorem lockDevicePager_spec (w : World) :
    Triple (fun s => s = w) lockDevicePager
      (fun _ s => DeviceLocked w.thread s ∧ s.devices = w.devices) := by
  refine Triple.attempt (fun s s' hs hlock => ?_)
  subst hs
  split at hlock
  · cases hlock
  · next hfree =>
      cases hlock
      exact ⟨⟨by simpa using hfree, rfl⟩, rfl⟩

theorem unlockDevicePager_spec :
    Triple (DeviceLocked t) unlockDevicePager (fun _ s => s.thread = t) := by
  refine Triple.update (fun s hlocked => ?_)
  rw [hlocked.2, ← hlocked.1]

theorem deviceTerminate_spec {pagerRequest : Port} (w : World)
    (hknown : (w.devices.find? (isUser pagerRequest)).isSome) :
    Triple (fun s => s = w) (deviceTerminate pagerRequest) (fun _ s => s.thread = w.thread) := by
  refine (lockDevicePager_spec w).bind (fun _ => Triple.read.bind (fun found => ?_))
  split
  · rintro s ⟨⟨-, hdevices⟩, hfound⟩
    rw [hdevices] at hfound
    rw [← hfound] at hknown
    cases hknown
  · refine Triple.bind (Q := fun _ => DeviceLocked w.thread)
      (Triple.update (fun s h => ⟨h.1.1.1, h.1.1.2⟩)) (fun _ => ?_)
    exact unlockDevicePager_spec.bind (fun _ => Triple.pure (fun _ hthread => hthread))

end Specs

/-! ## The calls -/

/-- A call from outside; `inode_has_page`, `inode_pager_setup` and the paging routines come in a
variant for kernels with external pagers and one for kernels without. -/
inductive Call where
  | inodePagerSetup (ip : Option Nat) (isText canCache : Bool)
  | inodePagerSetupInternal (ip : Option Nat) (isText : Bool)
  | inodeHasPage (pager : Port) (offset : Word)
  | inodeHasPageInternal (pager : Option IsId) (offset : Word)
  | inodeWrite (ip : Nat) (addr : Nat → UInt8) (csize fOffset : Word)
  | inodeRead (ip : Nat) (buffer : Nat → UInt8) (fOffset : Word)
  | inodePagein (is : IsId) (buffer : Nat → UInt8) (offset : Word)
  | inodePageout (is : IsId) (addr : Nat → UInt8) (offset : Word)
  | inodePagerTimeout
  | dataWrite (pager : Port) (offset : Word) (addr : Nat → UInt8) (dataCnt : Word)
  | dataInitialize (pager : Port) (offset : Word) (addr : Nat → UInt8) (dataCnt : Word)
  | deviceTerminate (pagerRequest : Port)

/-- Run a call and drop its value. -/
def dropValue {α : Type} (m : Routine World α) : Routine World Unit := do
  let _ ← m
  pure ()

def Call.run (kernel : Kernel) : Call → Routine World Unit
  | .inodePagerSetup ip isText canCache =>
      dropValue (Balance.inodePagerSetup kernel ip isText canCache)
  | .inodePagerSetupInternal ip isText =>
      dropValue (Balance.inodePagerSetupInternal kernel ip isText)
  | .inodeHasPage pager offset => dropValue (Balance.inodeHasPage kernel pager offset)
  | .inodeHasPageInternal pager offset =>
      dropValue (Balance.inodeHasPageInternal kernel pager offset)
  | .inodeWrite ip addr csize fOffset =>
      dropValue (Balance.inodeWrite kernel ip addr csize fOffset)
  | .inodeRead ip buffer fOffset => dropValue (Balance.inodeRead kernel ip buffer fOffset)
  | .inodePagein is buffer offset => dropValue (Balance.inodePagein kernel is buffer offset)
  | .inodePageout is addr offset => dropValue (Balance.inodePageout kernel is addr offset)
  | .inodePagerTimeout => Balance.inodePagerTimeout kernel
  | .dataWrite pager offset addr dataCnt => Balance.dataWrite kernel pager offset addr dataCnt
  | .dataInitialize pager offset addr dataCnt =>
      Balance.dataInitialize kernel pager offset addr dataCnt
  | .deviceTerminate pagerRequest => dropValue (Balance.deviceTerminate pagerRequest)

def Call.setsUp : Call → Bool
  | .inodePagerSetup .. | .inodePagerSetupInternal .. => true
  | _ => false

/-- Nothing is kept and nothing is given back twice. -/
structure Balanced (t t' : Thread) : Prop where
  master : t'.unixLock = t.unixLock
  uses : ∀ is, t'.uses is = t.uses is
  inodes : ∀ ip, t'.inodeLocks ip = true → t.inodeLocks ip = true
  device : t'.devicePagerLock = true → t.devicePagerLock = true

/-- As `Balanced`, but for the records in `born`, which the call created in use: their first use
is given back by an `istruct_put` of its own. -/
structure Settled (born : List IsId) (t t' : Thread) : Prop where
  master : t'.unixLock = t.unixLock
  created : ∀ is, t'.created is = t.created is + born.count is
  uses : ∀ is, t'.uses is = t.uses is - born.count is
  inodes : ∀ ip, t'.inodeLocks ip = true → t.inodeLocks ip = true
  device : t'.devicePagerLock = true → t.devicePagerLock = true

/-- The inode of a setup is there and may be mapped, the pager asked for a page is known, and so
is the user of a device pager that terminates. -/
def Expected (w : World) : Call → Prop
  | .inodePagerSetup ip _ _ | .inodePagerSetupInternal ip _ => ∃ i, ip = some i ∧ Mappable i w
  | .inodeHasPage pager _ => (lookup w pager).isSome
  | .deviceTerminate pagerRequest => (w.devices.find? (isUser pagerRequest)).isSome
  | _ => True

theorem Since.settled {t : Thread} {names : List IsId × (IsId → Option Port)} {born : List IsId}
    {w : World} (since : Since t names ⟨0, [], born, []⟩ w) : Settled born t w.thread where
  master := by simpa using since.master
  created := since.created
  uses := by
    intro is
    have huses := since.uses is
    have hcreated := since.created is
    simp only [List.count_nil, Nat.cast_zero, add_zero] at huses hcreated
    omega
  inodes := fun ip hlock => by simpa using since.inodes ip hlock
  device := fun hlock => since.device ▸ hlock

theorem settled_of_triple {w w' : World} {m : Routine World Unit}
    (triple : Triple (Since w.thread w.names ⟨0, [], [], []⟩) m
      (fun _ => Since w.thread w.names ⟨0, [], [], []⟩))
    (hrun : m w = some ((), w')) : Settled [] w.thread w'.thread :=
  (triple w (Since.enter w) () w' hrun).settled

theorem dropValue_triple {α : Type} {P Q : World → Prop} {m : Routine World α}
    (triple : Triple P m (fun _ => Q)) : Triple P (dropValue m) (fun _ => Q) :=
  triple.bind (fun _ => Triple.pure (fun _ h => h))

/-- Every call that is expected gives back what it took, whatever the tables hold, wherever it
leaves and however the rest of the kernel answers. -/
theorem settled_of_expected (kernel : Kernel) (call : Call) {w w' : World}
    (hexpected : Expected w call) (hreturn : call.run kernel w = some ((), w')) :
    ∃ born : List IsId, born.length ≤ 1 ∧ (call.setsUp = false → born = []) ∧
      Settled born w.thread w'.thread := by
  have quietly : ∀ {m : Routine World Unit}, m w = some ((), w') →
      Triple (Since w.thread w.names ⟨0, [], [], []⟩) m
        (fun _ => Since w.thread w.names ⟨0, [], [], []⟩) →
      ∃ born : List IsId, born.length ≤ 1 ∧ (call.setsUp = false → born = []) ∧
        Settled born w.thread w'.thread :=
    fun hrun triple => ⟨[], Nat.zero_le 1, fun _ => rfl, settled_of_triple triple hrun⟩
  have setUp : ∀ {m : Routine World (Option Port)} {ip : Nat}, call.setsUp = true →
      Mappable ip w → dropValue m w = some ((), w') →
      Triple (fun w' => Since w.thread w.names ⟨0, [], [], []⟩ w' ∧ Mappable ip w') m
        (fun _ => SetUp w.thread) →
      ∃ born : List IsId, born.length ≤ 1 ∧ (call.setsUp = false → born = []) ∧
        Settled born w.thread w'.thread := by
    intro m ip hcall hmappable hrun triple
    obtain ⟨_, born, hborn, since⟩ :=
      dropValue_triple triple w ⟨Since.enter w, hmappable⟩ () w' hrun
    exact ⟨born, hborn, fun hnot => by simp [hcall] at hnot, since.settled⟩
  cases call with
  | inodePagerSetup ip isText canCache =>
      obtain ⟨i, rfl, hmappable⟩ := hexpected
      exact setUp rfl hmappable hreturn (inodePagerSetup_spec isText canCache)
  | inodePagerSetupInternal ip isText =>
      obtain ⟨i, rfl, hmappable⟩ := hexpected
      exact setUp rfl hmappable hreturn (inodePagerSetupInternal_spec isText)
  | inodeHasPage pager offset =>
      obtain ⟨is, hfound⟩ := Option.isSome_iff_exists.mp hexpected
      exact quietly hreturn (dropValue_triple (inodeHasPage_spec offset
        (fun w'' hnames => (lookup_known hfound.symm hnames).2)))
  | inodeHasPageInternal pager offset =>
      refine quietly hreturn (dropValue_triple (unixMaster_spec.bind (fun _ => ?_)))
      split
      · exact Triple.halt
      · exact hasPageOf_spec offset
  | inodeWrite ip addr csize fOffset =>
      exact quietly hreturn (dropValue_triple (inodeWrite_spec addr csize fOffset))
  | inodeRead ip buffer fOffset => exact quietly hreturn (dropValue_triple (look _))
  | inodePagein is buffer offset =>
      exact quietly hreturn (dropValue_triple (inodePagein_spec buffer offset))
  | inodePageout is addr offset =>
      exact quietly hreturn (dropValue_triple (inodePageout_spec addr offset))
  | inodePagerTimeout => exact quietly hreturn inodePagerTimeout_spec
  | dataWrite pager offset addr dataCnt =>
      exact quietly hreturn (dataWrite_spec pager offset addr dataCnt)
  | dataInitialize pager offset addr dataCnt =>
      exact quietly hreturn (dataInitialize_spec pager offset addr dataCnt)
  | deviceTerminate pagerRequest =>
      have hthread := dropValue_triple (deviceTerminate_spec w hexpected) w rfl () w' hreturn
      dsimp only at hthread
      refine ⟨[], Nat.zero_le 1, fun _ => rfl, ?_⟩
      rw [hthread]
      exact (Since.enter w).settled

/-- The map of a record without a paging file. -/
def emptySpace : PagerSpace.Istruct :=
  ⟨0, 0, 0, .direct [], by decide, rfl⟩

/-- A kernel that gives out record 7 and port 3. -/
def smallKernel : Kernel where
  fs := InodeIO.plainFs 12 (by decide)
  pageSize := 4096
  qmax := 10
  ident := fun ip => (0, 0, ip)
  iget := fun _ _ _ ino => some ino
  awaken := fun w _ => w.core
  zalloc := fun _ => some 7
  kalloc := fun _ => true
  noSpace := emptySpace
  portAllocate := fun _ => some 3
  portSetAdd := fun _ _ => true
  globalName := fun name => name + 100
  inputBuffer := fun _ => 0
  inOutRatio := 4

/-- Nothing is paged, and the thread holds nothing. -/
def quietWorld : World where
  core := ⟨fun _ => InodeCache.blank, [], [], 0, 0⟩
  records := fun _ => ⟨none, none, false, 0, 0, emptySpace⟩
  portHash := []
  inodes := fun _ => ⟨⟨0, [], fun _ _ => 0⟩, none, 0, false⟩
  pagerFiles := []
  requests := []
  devices := []
  thread := ⟨0, fun _ => 0, fun _ => 0, fun _ => false, false⟩

theorem settled_of_expected_newFile :
    ∃ w', (Call.inodePagerSetup (some 1) false true).run smallKernel quietWorld = some ((), w') ∧
      ∃ born : List IsId, born.length ≤ 1 ∧
        ((Call.inodePagerSetup (some 1) false true).setsUp = false → born = []) ∧
        Settled born quietWorld.thread w'.thread :=
  ⟨_, rfl, settled_of_expected smallKernel (.inodePagerSetup (some 1) false true)
    ⟨1, rfl, fun _ => rfl⟩ rfl⟩

/-- The setup of a new file puts a use it did not get: the one the record was born with.  Setups
of no inode, questions about a page of an unknown pager and terminations of an unknown user return
with what they took. -/
theorem not_always_balanced :
    (∃ w', (Call.inodePagerSetup (some 1) false true).run smallKernel quietWorld =
        some ((), w') ∧ w'.thread.uses 7 = -1 ∧ ¬Balanced quietWorld.thread w'.thread) ∧
      (∃ w', (Call.inodePagerSetup none false true).run smallKernel quietWorld =
        some ((), w') ∧ w'.thread.unixLock = 1 ∧ ¬Balanced quietWorld.thread w'.thread) ∧
      (∃ w', (Call.inodeHasPage 9 0).run smallKernel quietWorld =
        some ((), w') ∧ w'.thread.unixLock = 1 ∧ ¬Balanced quietWorld.thread w'.thread) ∧
      ∃ w', (Call.deviceTerminate 9).run smallKernel quietWorld =
        some ((), w') ∧ w'.thread.devicePagerLock = true ∧
          ¬Balanced quietWorld.thread w'.thread := by
  refine ⟨⟨_, rfl, rfl, fun balanced => ?_⟩, ⟨_, rfl, rfl, fun balanced => ?_⟩,
    ⟨_, rfl, rfl, fun balanced => ?_⟩, ⟨_, rfl, rfl, fun balanced => ?_⟩⟩
  · exact absurd (balanced.uses 7) (by decide)
  · exact absurd balanced.master (by decide)
  · exact absurd balanced.master (by decide)
  · exact absurd (balanced.device rfl) (by decide)

end MachFormal.InodePager.Balance
