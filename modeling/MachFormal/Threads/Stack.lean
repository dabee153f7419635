import MachFormal.Library.ByteMemory
import MachFormal.Library.Machine
import Mathlib.Data.BitVec

/-!
# Finding the current cproc by its stack

A cproc is found by clearing low bits of the stack pointer: the word at the base of the
segment points to it.  The mask is the complement of the segment size less one, and the
size is the stack limit rounded up to pages, which need not be a power of two.  The
assertions of `setup_stack` look at the two ends of a segment only.

A run is `stack_init` and then any calls of `alloc_stack`; how often `vm_allocate` fails
before it succeeds is part of the call, and it succeeds only where nothing is in use.
-/

namespace MachFormal.Threads.Stack

open Library

abbrev Word := BitVec 32

/-! ## The code -/

/-- The size of a page, what `getrlimit` returns, and `cthread_stack_base`. -/
structure Config where
  pageShift : Nat
  lt_32 : pageShift < 32
  rlimCur : Word
  cthreadStackBase : Word

namespace Config

def vmPageSize (c : Config) : Word := BitVec.ofNat 32 (2 ^ c.pageShift)

/-- `BYTES_TO_PAGES (rlim.rlim_cur)`. -/
def pages (c : Config) : Word := (c.rlimCur + c.vmPageSize - 1) / c.vmPageSize

def cthreadStackSize (c : Config) : Word := c.pages * c.vmPageSize

def cthreadStackMask (c : Config) : Word := ~~~(c.cthreadStackSize - 1)

end Config

def vmMaxAddress : Nat := 2 ^ 31

/-- `base` is where the segment begins; `id` is the address of the structure. -/
structure Cproc where
  id : Nat
  stackBase : Word
  stackSize : Word
  initialStack : Bool
  base : Word

def Cproc.segment (c : Config) (p : Cproc) : Range := (p.base.toNat, c.cthreadStackSize.toNat)

/-- `word` is the memory, as far as it is read for pointers to cprocs. -/
structure State where
  nextStackBase : Word
  initialStackBoundary : Word
  initialStackDeallocated : Word
  cprocs : List Cproc
  word : Word → Nat
  inUse : List Range

section Code

variable (c : Config)

/-- `setup_stack`; an assertion that fails stops the program. -/
def setupStack (s : State) (id : Nat) (initialStack : Bool) (base : Word) : Option State :=
  if base &&& c.cthreadStackMask = base ∧
      (base + c.cthreadStackSize - 1) &&& c.cthreadStackMask = base then
    let stackBase := base + 2 * c.vmPageSize
    let stackSize := if initialStack then s.initialStackBoundary - stackBase
      else c.cthreadStackSize - 2 * c.vmPageSize
    some { s with
      cprocs := ⟨id, stackBase, stackSize, initialStack, base⟩ :: s.cprocs
      word := Function.update s.word base id }
  else none

/-- `stack_init` with the stack pointer `sp`. -/
def stackInit (word : Word → Nat) (inUse : List Range) (id : Nat) (sp : Word) : Option State :=
  let base := sp &&& c.cthreadStackMask
  setupStack c
    { nextStackBase := (c.cthreadStackBase + c.cthreadStackSize - 1) &&& c.cthreadStackMask
      initialStackBoundary := sp
      initialStackDeallocated := 0
      cprocs := []
      word := word
      inUse := (base.toNat, c.cthreadStackSize.toNat) :: inUse } id true base

/-- The loop of `alloc_stack`: where it is after some failures of `vm_allocate`. -/
def searchBase : Nat → Word → Option Word
  | 0, base => if c.cthreadStackBase = 0 ∨ base ≠ 0 then some base else none
  | failures + 1, base =>
      if c.cthreadStackBase = 0 ∨ base ≠ 0 then searchBase failures (base + c.cthreadStackSize)
      else none

/-- `vm_allocate` at a fixed address succeeds only where nothing is in use. -/
def vmAllocate (inUse : List Range) (base size : Word) : Option (List Range) :=
  if base.toNat + size.toNat ≤ vmMaxAddress ∧
      ∀ r ∈ inUse, Apart (base.toNat, size.toNat) r then
    some ((base.toNat, size.toNat) :: inUse)
  else none

/-- Memory that was just allocated is zero. -/
def zeroFill (word : Word → Nat) (base stop : Word) : Word → Nat := fun a =>
  if base.toNat ≤ a.toNat ∧ a.toNat < stop.toNat then 0 else word a

def allocStack (s : State) (id failures : Nat) : Option State :=
  if s.initialStackDeallocated ≠ 0 then
    -- the initial stack is given back up to the boundary, and allocated again
    let base := s.initialStackBoundary &&& c.cthreadStackMask
    setupStack c { s with
      initialStackDeallocated := 0
      word := zeroFill s.word base s.initialStackBoundary } id true base
  else do
    let base ← searchBase c failures s.nextStackBase
    let inUse ← vmAllocate s.inUse base c.cthreadStackSize
    setupStack c { s with
      nextStackBase := base + c.cthreadStackSize
      word := zeroFill s.word base (base + c.cthreadStackSize)
      inUse := inUse } id false base

/-- `ur_cthread_self` with the stack pointer `sp`: the pointer that it returns, after its
assertion. -/
def urCthreadSelf (s : State) (sp : Word) : Option Nat := do
  let p ← s.cprocs.find? fun p => p.id = s.word (sp &&& c.cthreadStackMask)
  if s.word (sp &&& c.cthreadStackMask) ≠ 0 ∧ p.stackBase ≤ sp ∧ sp < p.stackBase + p.stackSize then
    some p.id
  else none

/-- A call of `alloc_stack`: the address of the new cproc, and the failures. -/
structure Label where
  id : Nat
  failures : Nat

/-- The addresses of cprocs are not null and not used twice. -/
def step (s : State) (label : Label) : Option State :=
  if label.id ≠ 0 ∧ ∀ p ∈ s.cprocs, p.id ≠ label.id then allocStack c s label.id label.failures
  else none

def machine : Machine State Label where
  init := fun s => ∃ word inUse id sp, id ≠ 0 ∧ sp.toNat < vmMaxAddress ∧
    stackInit c word inUse id sp = some s
  step := step c

end Code

/-! ## What is asked of the stacks -/

/-- Segments are apart, and every address of a stack leads to the cproc. -/
structure Identified (c : Config) (s : State) : Prop where
  apart : (s.cprocs.map (Cproc.segment c)).Pairwise Apart
  word : ∀ p ∈ s.cprocs, ∀ sp, p.stackBase ≤ sp → sp < p.stackBase + p.stackSize →
    s.word (sp &&& c.cthreadStackMask) = p.id
  self : ∀ p ∈ s.cprocs, ∀ sp, p.stackBase ≤ sp → sp < p.stackBase + p.stackSize →
    urCthreadSelf c s sp = some p.id

/-- The number of pages of a segment is a power of two, or three: with three the only page of
the stack is the one whose bit is masked. -/
def Maskable (c : Config) : Prop := (∃ m, c.pages.toNat = 2 ^ m) ∨ c.pages.toNat = 3

/-! ## Masks -/

section Masks

variable {base d y : Word}

theorem add_masked (aligned : base &&& ~~~y = base) (within : d &&& y = d) :
    (base + d) &&& ~~~y = base := by
  have apart : base &&& d = 0 := by
    rw [← aligned, ← within]
    ext i
    simp only [BitVec.getElem_and, BitVec.getElem_not]
    cases y[i] <;> simp
  have clear : d &&& ~~~y = 0 := by
    rw [← within]
    ext i
    simp only [BitVec.getElem_and, BitVec.getElem_not]
    cases y[i] <;> simp
  rw [BitVec.add_eq_or_of_and_eq_zero _ _ apart, BitVec.and_or_distrib_right, aligned, clear]
  exact BitVec.or_zero

theorem eq_zero_of_masked (aligned : base &&& ~~~y = base) (within : base &&& y = base) :
    base = 0 := by
  have both : base &&& ~~~y &&& y = base := by rw [aligned, within]
  rw [← both]
  ext i
  simp only [BitVec.getElem_and, BitVec.getElem_not]
  cases y[i] <;> simp

theorem within_of_power {m : Nat} (mask : y.toNat = 2 ^ m - 1) (small : d.toNat < 2 ^ m) :
    d &&& y = d := by
  apply BitVec.eq_of_toNat_eq
  rw [BitVec.toNat_and, mask, Nat.and_two_pow_sub_one_eq_mod, Nat.mod_eq_of_lt small]

theorem within_of_three {k : Nat} (mask : y.toNat = 2 ^ (k + 1) + (2 ^ k - 1))
    (lower : 2 ^ (k + 1) ≤ d.toNat) (upper : d.toNat < 2 ^ (k + 1) + 2 ^ k) : d &&& y = d := by
  apply BitVec.eq_of_toNat_eq
  obtain ⟨a, split⟩ := Nat.exists_eq_add_of_le lower
  have small : a < 2 ^ k := by omega
  have grow : 2 ^ k < 2 ^ (k + 1) := Nat.pow_lt_pow_right (by decide) (by omega)
  have address := Nat.two_pow_add_eq_or_of_lt (show a < 2 ^ (k + 1) by omega) 1
  have masked := Nat.two_pow_add_eq_or_of_lt (show 2 ^ k - 1 < 2 ^ (k + 1) by omega) 1
  rw [Nat.mul_one] at address masked
  rw [BitVec.toNat_and, mask, split, address, masked, ← Nat.or_and_distrib_left,
    Nat.and_two_pow_sub_one_eq_mod, Nat.mod_eq_of_lt small]

end Masks

/-! ## Sizes -/

section Sizes

variable {c : Config}

theorem toNat_vmPageSize (c : Config) : c.vmPageSize.toNat = 2 ^ c.pageShift := by
  rw [Config.vmPageSize, BitVec.toNat_ofNat]
  exact Nat.mod_eq_of_lt (Nat.pow_lt_pow_right (by decide) c.lt_32)

theorem toNat_cthreadStackSize (c : Config) :
    c.cthreadStackSize.toNat = c.pages.toNat * 2 ^ c.pageShift := by
  have pages : c.pages.toNat = (c.rlimCur + c.vmPageSize - 1).toNat / 2 ^ c.pageShift := by
    rw [Config.pages, BitVec.toNat_udiv, toNat_vmPageSize]
  have bound : c.pages.toNat * 2 ^ c.pageShift < 2 ^ 32 := by
    rw [pages]
    exact Nat.lt_of_le_of_lt (Nat.div_mul_le_self _ _) (BitVec.isLt _)
  rw [Config.cthreadStackSize, BitVec.toNat_mul, toNat_vmPageSize, Nat.mod_eq_of_lt bound]

theorem size_pos (maskable : Maskable c) : 0 < c.cthreadStackSize.toNat := by
  rw [toNat_cthreadStackSize]
  refine Nat.mul_pos ?_ (Nat.two_pow_pos _)
  rcases maskable with ⟨m, power⟩ | three
  · rw [power]
    exact Nat.two_pow_pos m
  · omega

theorem toNat_size_sub_one (maskable : Maskable c) :
    (c.cthreadStackSize - 1).toNat = c.cthreadStackSize.toNat - 1 :=
  BitVec.toNat_sub_of_le (by
    rw [BitVec.le_def]
    exact size_pos maskable)

/-- With a number of pages that can be masked, every address of the stack leads to the base. -/
theorem offset_masked (maskable : Maskable c) {base d : Word}
    (aligned : base &&& c.cthreadStackMask = base) (small : d.toNat < c.cthreadStackSize.toNat)
    (above : c.pages.toNat = 3 → 2 ^ (c.pageShift + 1) ≤ d.toNat) :
    (base + d) &&& c.cthreadStackMask = base := by
  have mask := toNat_size_sub_one maskable
  have size := toNat_cthreadStackSize c
  refine add_masked aligned ?_
  rcases maskable with ⟨m, power⟩ | three
  · rw [power, ← Nat.pow_add] at size
    rw [size] at mask small
    exact within_of_power mask small
  · have positive := Nat.two_pow_pos c.pageShift
    have double : 2 ^ (c.pageShift + 1) = 2 ^ c.pageShift * 2 := Nat.pow_succ ..
    refine within_of_three (k := c.pageShift) ?_ (above three) ?_
    · rw [mask, size, three]
      omega
    · rw [size, three] at small
      omega

theorem stackBase_le (maskable : Maskable c) {base sp : Word}
    (aligned : base &&& c.cthreadStackMask = base) (low : base.toNat < vmMaxAddress)
    (start : base + 2 * c.vmPageSize ≤ sp) :
    base.toNat ≤ sp.toNat ∧
      (c.pages.toNat = 3 → base.toNat + 2 ^ (c.pageShift + 1) ≤ sp.toNat) := by
  have double : 2 ^ (c.pageShift + 1) = 2 ^ c.pageShift * 2 := Nat.pow_succ ..
  rw [BitVec.le_def, BitVec.toNat_add, BitVec.toNat_mul, toNat_vmPageSize,
    show (2 : Word).toNat = 2 from rfl] at start
  unfold vmMaxAddress at low
  have size := toNat_cthreadStackSize c
  have bound := c.cthreadStackSize.isLt
  by_cases huge : c.pageShift = 31
  · -- one page of half the address space: the sum wraps, and the base is 0
    have one : c.pages.toNat * 2 ^ 31 < 2 ^ 32 := by rwa [size, huge] at bound
    have positive := size_pos maskable
    rw [size, huge] at positive
    have single : c.pages.toNat = 1 := by omega
    have zero : base = 0 := by
      have mask := toNat_size_sub_one maskable
      rw [size, huge, single, Nat.one_mul] at mask
      exact eq_zero_of_masked aligned (within_of_power mask low)
    rw [zero]
    exact ⟨Nat.zero_le _, fun three => by omega⟩
  · have shift : c.pageShift ≤ 30 := by
      have := c.lt_32
      omega
    have page : 2 ^ c.pageShift ≤ 2 ^ 30 := Nat.pow_le_pow_right (by decide) shift
    rw [Nat.mod_eq_of_lt (show 2 * 2 ^ c.pageShift < 2 ^ 32 by omega),
      Nat.mod_eq_of_lt (show base.toNat + 2 * 2 ^ c.pageShift < 2 ^ 32 by omega)] at start
    exact ⟨by omega, fun _ => by omega⟩

end Sizes

/-! ## The invariant -/

/-- What holds of a cproc that has its stack. -/
structure Owner (c : Config) (s : State) (p : Cproc) : Prop where
  nonnull : p.id ≠ 0
  aligned : p.base &&& c.cthreadStackMask = p.base
  word : s.word p.base = p.id
  inUse : p.segment c ∈ s.inUse
  low : p.base.toNat < vmMaxAddress
  start : p.stackBase = p.base + 2 * c.vmPageSize
  stop : ∀ sp, sp < p.stackBase + p.stackSize →
    sp.toNat < p.base.toNat + c.cthreadStackSize.toNat

structure Inv (c : Config) (s : State) : Prop where
  undisturbed : s.initialStackDeallocated = 0
  owners : ∀ p ∈ s.cprocs, Owner c s p
  distinct : s.cprocs.Pairwise fun p q => p.id ≠ q.id
  apart : (s.cprocs.map (Cproc.segment c)).Pairwise Apart

section Invariant

variable {c : Config} {s s' : State}

theorem setupStack_eq_some {id : Nat} {initialStack : Bool} {base : Word}
    (set : setupStack c s id initialStack base = some s') :
    base &&& c.cthreadStackMask = base ∧
      s' = { s with
        cprocs := ⟨id, base + 2 * c.vmPageSize,
          if initialStack then s.initialStackBoundary - (base + 2 * c.vmPageSize)
          else c.cthreadStackSize - 2 * c.vmPageSize, initialStack, base⟩ :: s.cprocs
        word := Function.update s.word base id } := by
  unfold setupStack at set
  split at set
  · next asserted => exact ⟨asserted.1, (Option.some.inj set).symm⟩
  · cases set

/-- The boundary of the initial stack lies in the segment that its masking gives. -/
theorem boundary_lt (maskable : Maskable c) (sp : Word) :
    (sp &&& c.cthreadStackMask).toNat ≤ sp.toNat ∧
      sp.toNat < (sp &&& c.cthreadStackMask).toNat + c.cthreadStackSize.toNat := by
  have positive := size_pos maskable
  have mask := toNat_size_sub_one maskable
  have apart : (sp &&& c.cthreadStackMask) &&& (sp &&& (c.cthreadStackSize - 1)) = 0 := by
    ext i
    simp only [Config.cthreadStackMask, BitVec.getElem_and, BitVec.getElem_not]
    cases (c.cthreadStackSize - 1)[i] <;> simp
  have whole : (sp &&& c.cthreadStackMask) + (sp &&& (c.cthreadStackSize - 1)) = sp := by
    rw [BitVec.add_eq_or_of_and_eq_zero _ _ apart]
    ext i
    simp only [Config.cthreadStackMask, BitVec.getElem_or, BitVec.getElem_and, BitVec.getElem_not]
    cases (c.cthreadStackSize - 1)[i] <;> simp
  have sum := BitVec.toNat_add_of_and_eq_zero apart
  rw [whole] at sum
  have small : (sp &&& (c.cthreadStackSize - 1)).toNat ≤ (c.cthreadStackSize - 1).toNat := by
    rw [BitVec.toNat_and]
    exact Nat.and_le_right
  omega

theorem Inv.initial (maskable : Maskable c) {word : Word → Nat} {inUse : List Range} {id : Nat}
    {sp : Word} (nonnull : id ≠ 0) (low : sp.toNat < vmMaxAddress)
    (set : stackInit c word inUse id sp = some s) : Inv c s := by
  obtain ⟨aligned, rfl⟩ := setupStack_eq_some set
  obtain ⟨below, inside⟩ := boundary_lt maskable sp
  refine ⟨rfl, ?_, List.pairwise_singleton _ _, List.pairwise_singleton _ _⟩
  intro p member
  obtain rfl := List.mem_singleton.mp member
  refine ⟨nonnull, aligned, Function.update_self .., List.mem_cons_self,
    Nat.lt_of_le_of_lt below low, rfl, fun x before => ?_⟩
  -- the stack ends at the boundary
  have boundary : ∀ a b : Word, a + (b - a) = b := by
    intro a b
    rw [BitVec.add_comm, BitVec.sub_add_cancel]
  simp only [if_true, boundary, BitVec.lt_def] at before
  exact Nat.lt_trans before inside

theorem Inv.allocStack (maskable : Maskable c) (inv : Inv c s) {id failures : Nat}
    (nonnull : id ≠ 0) (fresh : ∀ p ∈ s.cprocs, p.id ≠ id)
    (allocated : allocStack c s id failures = some s') : Inv c s' := by
  unfold Stack.allocStack at allocated
  rw [if_neg (not_not.mpr inv.undisturbed)] at allocated
  obtain ⟨base, -, allocated⟩ := Option.bind_eq_some_iff.mp allocated
  obtain ⟨inUse, granted, set⟩ := Option.bind_eq_some_iff.mp allocated
  obtain ⟨aligned, rfl⟩ := setupStack_eq_some set
  unfold vmAllocate at granted
  split at granted
  case isFalse => cases granted
  case isTrue free =>
  obtain ⟨room, elsewhere⟩ := free
  obtain rfl := Option.some.inj granted
  have positive := size_pos maskable
  unfold vmMaxAddress at room
  have stop : (base + c.cthreadStackSize).toNat = base.toNat + c.cthreadStackSize.toNat := by
    rw [BitVec.toNat_add, Nat.mod_eq_of_lt (by omega)]
  refine ⟨inv.undisturbed, ?_, List.pairwise_cons.mpr ⟨?_, inv.distinct⟩,
    List.pairwise_cons.mpr ⟨?_, inv.apart⟩⟩
  · intro p member
    rcases List.mem_cons.mp member with rfl | member
    · refine ⟨nonnull, aligned, Function.update_self .., List.mem_cons_self, ?_, rfl, ?_⟩
      · unfold vmMaxAddress
        simp only
        omega
      · intro x before
        have last : ∀ a b d : Word, a + b + (d - b) = a + d := by
          intro a b d
          rw [BitVec.add_assoc, BitVec.add_comm b, BitVec.sub_add_cancel]
        simp only [Bool.false_eq_true, if_false, last, BitVec.lt_def, stop] at before
        exact before
    · have owner := inv.owners p member
      have outside := elsewhere _ owner.inUse
      refine ⟨owner.nonnull, owner.aligned, ?_, List.mem_cons_of_mem _ owner.inUse, owner.low,
        owner.start, owner.stop⟩
      unfold Apart Cproc.segment at outside
      simp only at outside
      have other : p.base ≠ base := by
        intro same
        rw [same] at outside
        omega
      have kept : ¬(base.toNat ≤ p.base.toNat ∧
          p.base.toNat < (base + c.cthreadStackSize).toNat) := by
        rw [stop]
        omega
      simp only
      rw [Function.update_of_ne other, zeroFill, if_neg kept, owner.word]
  · exact fun p member same => fresh p member same.symm
  · intro r segment
    obtain ⟨p, member, rfl⟩ := List.mem_map.mp segment
    exact elsewhere _ (inv.owners p member).inUse

theorem Inv.step (maskable : Maskable c) (inv : Inv c s) {label : Label}
    (moved : step c s label = some s') : Inv c s' := by
  unfold Stack.step at moved
  split at moved
  · next allowed => exact inv.allocStack maskable allowed.1 allowed.2 moved
  · cases moved

theorem Owner.masked (maskable : Maskable c) {p : Cproc} (owner : Owner c s p) {sp : Word}
    (start : p.stackBase ≤ sp) (before : sp < p.stackBase + p.stackSize) :
    sp &&& c.cthreadStackMask = p.base := by
  have stop := owner.stop sp before
  rw [owner.start] at start
  obtain ⟨above, three⟩ := stackBase_le maskable owner.aligned owner.low start
  have offset : (sp - p.base).toNat = sp.toNat - p.base.toNat :=
    BitVec.toNat_sub_of_le (BitVec.le_def.mpr above)
  have masked := offset_masked maskable owner.aligned (d := sp - p.base) (by omega)
    (fun pages => by have := three pages; omega)
  rwa [BitVec.add_comm, BitVec.sub_add_cancel] at masked

theorem Inv.identified (maskable : Maskable c) (inv : Inv c s) : Identified c s := by
  have words : ∀ p ∈ s.cprocs, ∀ sp, p.stackBase ≤ sp → sp < p.stackBase + p.stackSize →
      s.word (sp &&& c.cthreadStackMask) = p.id := by
    intro p member sp start before
    have owner := inv.owners p member
    rw [owner.masked maskable start before, owner.word]
  refine ⟨inv.apart, words, fun p member sp start before => ?_⟩
  have word := words p member sp start before
  -- the pointer leads to the cproc, as no other one has its address
  have found : s.cprocs.find? (fun q => q.id = p.id) = some p := by
    refine List.find?_eq_some_iff_append.mpr ⟨by simp, ?_⟩
    obtain ⟨front, back, split⟩ := List.append_of_mem member
    refine ⟨front, back, split, fun q earlier => ?_⟩
    have distinct := inv.distinct
    rw [split, List.pairwise_append] at distinct
    simpa using distinct.2.2 q earlier p List.mem_cons_self
  rw [urCthreadSelf, word, found]
  exact if_pos ⟨(inv.owners p member).nonnull, start, before⟩

end Invariant

/-- In every run of `alloc_stack` calls, with a number of pages that can be masked, stacks are
apart and masking a stack pointer finds its cproc. -/
theorem identified_of_maskable {c : Config} (maskable : Maskable c) {s : State}
    (reachable : (machine c).Reachable Machine.always s) : Identified c s := by
  refine Inv.identified maskable (reachable.invariant ?_ ?_)
  · rintro s ⟨word, inUse, id, sp, nonnull, low, set⟩
    exact .initial maskable nonnull low set
  · exact fun s label s' inv _ moved => inv.step maskable moved

/-- A limit of `bytes` with pages of 4096 bytes; stacks are allocated from 65536 on. -/
def limited (bytes : Word) : Config := ⟨12, by decide, bytes, 0x10000⟩

/-- Four pages: the main thread, and one more after a failure of `vm_allocate`. -/
theorem identified_fourPages :
    ∃ s, ((stackInit (limited 16384) (fun _ => 0) [] 1 0x7fffeff0).bind fun s =>
        (machine (limited 16384)).run s [⟨2, 1⟩]) = some s ∧
      s.cprocs.map Cproc.base = [0x14000, 0x7fffc000] ∧ Identified (limited 16384) s := by
  have ran : ((stackInit (limited 16384) (fun _ => 0) [] 1 0x7fffeff0).bind fun s =>
      (machine (limited 16384)).run s [⟨2, 1⟩]).map (fun s => s.cprocs.map Cproc.base) =
      some [0x14000, 0x7fffc000] := by decide +kernel
  obtain ⟨s, reached, bases⟩ := Option.map_eq_some_iff.mp ran
  obtain ⟨start, begun, run⟩ := Option.bind_eq_some_iff.mp reached
  refine ⟨s, reached, bases, identified_of_maskable (.inl ⟨2, by decide⟩)
    (.of_run [⟨2, 1⟩] (.init ⟨_, _, 1, _, by decide, by decide, begun⟩) run ?_)⟩
  exact Machine.meets_of_forall fun _ _ _ => trivial

/-- Five pages: the base of the main stack is one of the bits that the mask keeps. -/
theorem fivePages_not_found :
    ∃ s, (machine (limited 20480)).Reachable Machine.always s ∧ ¬Identified (limited 20480) s := by
  refine ⟨_, .init ⟨fun _ => 0, [], 1, 0x7fffcff0, by decide, by decide, rfl⟩, fun identified => ?_⟩
  have word := identified.word _ List.mem_cons_self 0x7fffa000 (by decide) (by decide)
  exact absurd word (by decide)

end MachFormal.Threads.Stack
