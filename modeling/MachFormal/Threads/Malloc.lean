import MachFormal.Library.ByteMemory
import MachFormal.Library.Machine

/-!
# The memory allocator of the C Threads library

Blocks have power-of-two sizes and are kept on one free list a size.  The
links of the free lists, the headers of the pools from which blocks are carved
and the free list pointers of allocated blocks are words of the memory that is
handed out.  Calls run one after the other, as the spin locks make them; the
answer of `vm_allocate` is an input of the call.  The locks, the counters of
the debugging version and the variant for multiple tasks are left out.
-/

namespace MachFormal.Threads.Malloc

open Library

def nBuckets : Nat := 29

/-- The size of `union header`. -/
def headerSize : Nat := 4

def minSize : Nat := 8

/-- What is fixed when the program starts: the page size, the number of pages of a pool, and
the address of `malloc_free_list`, whose entries take eight bytes. -/
structure Config where
  pageShift : Nat
  three_le : 3 ≤ pageShift
  lt_32 : pageShift < 32
  mallocPoolSize : Nat
  freeLists : Nat
  freeLists_le : freeLists + 8 * nBuckets ≤ 2 ^ 32

namespace Config

def vmPageSize (c : Config) : Nat := 2 ^ c.pageShift

/-- The product is computed in 32 bits. -/
def poolBytes (c : Config) : Nat := c.vmPageSize * c.mallocPoolSize % 2 ^ 32

/-- The address of one free list. -/
def freeList (c : Config) (i : Nat) : Nat := c.freeLists + 8 * i

end Config

/-- The memory and the variables of the allocator, and the regions `vm_allocate` has given. -/
structure Heap where
  mem : Mem
  heads : Nat → Nat
  pool : Nat
  poolSize : Nat
  granted : List Range

/-! ## More memory -/

/-- A region that `vm_allocate` may return: not at address 0, and apart from earlier ones. -/
def Fresh (granted : List Range) (r : Range) : Prop :=
  0 < r.1 ∧ r.1 + r.2 ≤ 2 ^ 32 ∧ ∀ g ∈ granted, Apart r g

instance (granted : List Range) (r : Range) : Decidable (Fresh granted r) :=
  inferInstanceAs (Decidable (_ ∧ _ ∧ _))

/-- `vm_allocate` fails, or returns the address of a fresh region; it cannot return another
one. -/
def vmAllocate (h : Heap) (size : Nat) : Option Nat → Option (Heap × Option Nat)
  | none => some (h, none)
  | some address =>
      if Fresh h.granted (address, size) then
        some ({ h with granted := (address, size) :: h.granted }, some address)
      else none

/-- The loop over the pools behind the first one.  A pool is a node of two words, the address
of the next pool and the size that is left; `none` stands for a loop that does not end. -/
def findPool (mem : Mem) (amount : Nat) : Nat → Nat → Option (Option (Mem × Nat))
  | 0, _ => none
  | fuel + 1, prev =>
      let cur := load mem prev
      if cur = 0 then some none
      else
        let size := load mem (cur + 4)
        if amount ≤ size then
          let mem := store mem (cur + 4) (size - amount)
          let mem := if size - amount = 0 then store mem prev (load mem cur) else mem
          some (some (mem, cur + (size - amount)))
        else findPool mem amount fuel cur

/-- The part of `more_memory` under `malloc_lock`: take the amount from the first pool, from
another pool, or from new memory. -/
def takeMemory (c : Config) (h : Heap) (amount : Nat) (vm : Option Nat) :
    Option (Heap × Option Nat) :=
  if amount ≤ h.poolSize then
    let poolSize := h.poolSize - amount
    let address := h.pool + poolSize
    if poolSize = 0 then
      let pool := load h.mem h.pool
      some ({ h with
        pool := pool
        poolSize := if pool ≠ 0 then load h.mem (pool + 4) else poolSize }, some address)
    else some ({ h with poolSize := poolSize }, some address)
  else
    match if h.pool ≠ 0 then findPool h.mem amount (2 ^ 32) h.pool else some none with
    | none => none
    | some (some (mem, address)) => some ({ h with mem := mem }, some address)
    | some none =>
        if c.poolBytes ≤ amount then vmAllocate h amount vm
        else
          match vmAllocate h c.poolBytes vm with
          | none => none
          | some (h, none) => some (h, none)
          | some (h, some newPool) =>
              let mem := if h.pool ≠ 0 then store h.mem (h.pool + 4) h.poolSize else h.mem
              let poolSize := c.poolBytes - amount
              some ({ h with
                mem := store mem newPool h.pool
                pool := newPool
                poolSize := poolSize }, some (newPool + poolSize))

/-- Put a block on a free list. -/
def push (h : Heap) (i block : Nat) : Heap :=
  { h with
    mem := store h.mem block (h.heads i)
    heads := Function.update h.heads i block }

/-- The final loop of `more_memory`. -/
def pushBlocks (i size : Nat) : Nat → Nat → Heap → Heap
  | 0, _, h => h
  | n + 1, block, h => pushBlocks i size n (block + size) (push h i block)

def moreMemory (c : Config) (h : Heap) (size i : Nat) (vm : Option Nat) : Option (Heap × Bool) :=
  let amount := if size ≤ c.vmPageSize then c.vmPageSize else size
  let n := if size ≤ c.vmPageSize then c.vmPageSize / size else 1
  match takeMemory c h amount vm with
  | none => none
  | some (h, none) => some (h, false)
  | some (h, some address) => some (pushBlocks i size n address h, true)

/-! ## The three routines -/

/-- The loop of `malloc` that looks for a block size. -/
def findBucket (size : Nat) : Nat → Nat → Nat → Nat × Nat
  | 0, i, n => (i, n)
  | fuel + 1, i, n => if n < size then findBucket size fuel (i + 1) (n * 2 % 2 ^ 32) else (i, n)

/-- Take the first block of a free list, and store the address of the list in its header. -/
def pop (c : Config) (h : Heap) (i : Nat) : Heap × Nat :=
  let block := h.heads i
  ({ h with
    mem := store h.mem block (c.freeList i)
    heads := Function.update h.heads i (load h.mem block) }, block + headerSize)

def malloc (c : Config) (h : Heap) (size : Nat) (vm : Option Nat) : Option (Heap × Nat) :=
  let size := (size + headerSize) % 2 ^ 32
  if size ≤ headerSize then some (h, 0)
  else
    let bucket := findBucket size nBuckets 0 minSize
    if bucket.1 = nBuckets then some (h, 0)
    else if h.heads bucket.1 = 0 then
      match moreMemory c h bucket.2 bucket.1 vm with
      | none => none
      | some (h, false) => some (h, 0)
      | some (h, true) => some (pop c h bucket.1)
    else some (pop c h bucket.1)

/-- The free list of a block, with the checks of `free` and `realloc`.  The difference of the
pointers is a 32-bit number. -/
def listIndex (c : Config) (mem : Mem) (base : Nat) : Option Nat :=
  let fl := load mem (base - headerSize)
  let i := (((fl : Int) - c.freeLists).bmod (2 ^ 32)).tdiv 8
  if i < 0 ∨ nBuckets ≤ i then none
  else if fl ≠ c.freeList i.toNat then none
  else some i.toNat

def free (c : Config) (h : Heap) (base : Nat) : Heap :=
  if base = 0 then h
  else
    match listIndex c h.mem base with
    | none => h
    | some i => push h i (base - headerSize)

def bcopy (mem : Mem) (source target length : Nat) : Mem := fun x =>
  if target ≤ x ∧ x < target + length then mem (source + (x - target)) else mem x

def realloc (c : Config) (h : Heap) (oldBase newSize : Nat) (vm : Option Nat) :
    Option (Heap × Nat) :=
  if oldBase = 0 then malloc c h newSize vm
  else
    match listIndex c h.mem oldBase with
    | none => some (h, 0)
    | some i =>
        let oldSize := 2 ^ (i + 3) - headerSize
        if newSize ≤ oldSize ∧ 2 ^ (i + 2) < (newSize + headerSize) % 2 ^ 32 then
          some (h, oldBase)
        else
          match malloc c h newSize vm with
          | none => none
          | some (h, newBase) =>
              let mem := if newBase ≠ 0 then bcopy h.mem oldBase newBase (min oldSize newSize)
                else h.mem
              some (free c { h with mem := mem } oldBase, newBase)

/-! ## The allocator and its clients -/

/-- A block a client has got and not given back; `bucket` is the free list it belongs to. -/
structure Block where
  base : Nat
  size : Nat
  bucket : Nat
  deriving DecidableEq, Repr

/-- The whole block with its header. -/
def Block.range (b : Block) : Range :=
  (b.base - headerSize, 2 ^ (b.bucket + 3))

structure System where
  heap : Heap
  live : List Block
  result : Nat

/-- What clients do: calls with the answer of `vm_allocate`, and writing to a byte of a block. -/
inductive Label where
  | malloc (size : UInt32) (vm : Option Nat)
  | free (base : Nat)
  | realloc (base : Nat) (size : UInt32) (vm : Option Nat)
  | write (address : Nat) (value : UInt8)

/-- A client gets the result of a call. -/
def adopt (c : Config) (live : List Block) (size : Nat) (returned : Heap × Nat) : System :=
  { heap := returned.1
    live := if returned.2 = 0 then live
      else ⟨returned.2, size, (listIndex c returned.1.mem returned.2).getD 0⟩ :: live
    result := returned.2 }

def drop (live : List Block) (base : Nat) : List Block :=
  live.eraseP (fun b => b.base == base)

/-- Clients free and reallocate live blocks or the null pointer, and write inside their
blocks. -/
def step (c : Config) (s : System) : Label → Option System
  | .malloc size vm => (malloc c s.heap size.toNat vm).map (adopt c s.live size.toNat)
  | .free base =>
      if base = 0 ∨ ∃ b ∈ s.live, b.base = base then
        some { s with heap := free c s.heap base, live := drop s.live base }
      else none
  | .realloc base size vm =>
      if base = 0 ∨ ∃ b ∈ s.live, b.base = base then
        (realloc c s.heap base size.toNat vm).map (adopt c (drop s.live base) size.toNat)
      else none
  | .write address value =>
      if ∃ b ∈ s.live, b.base ≤ address ∧ address < b.base + b.size then
        some { s with heap := { s.heap with mem := Function.update s.heap.mem address value } }
      else none

/-- Before the first call nothing is allocated. -/
def initial (mem : Mem) : System :=
  { heap := { mem := mem, heads := fun _ => 0, pool := 0, poolSize := 0, granted := [] }
    live := []
    result := 0 }

/-- The allocator with its clients, started with any contents of the memory. -/
def machine (c : Config) : Machine System Label where
  init := fun s => ∃ mem, s = initial mem
  step := step c

end MachFormal.Threads.Malloc
