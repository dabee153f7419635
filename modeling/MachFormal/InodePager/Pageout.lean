import MachFormal.InodePager.RoundTrip

/-!
# Pageouts of mapped files

`is_page_write` and, in kernels without external pagers, `inode_pageout` send a
page of an object that is backed by an inode to the file.  For a mapped file
they cut the page at the size the file has in the `vm_info` structure, so that a
pageout does not extend it.  The difference of two offsets is a word.
-/

namespace MachFormal.InodePager.InodeIO

open MachFormal.Library

/-- An object that is backed by an inode and not by a paging file. -/
structure Istruct where
  paging : Bool
  pagingShift : Nat
  inode : Inode
  inodeSize : Word
  errors : Nat

/-- The loop of `inode_pager_create` that counts the halvings of the block size. -/
def pagingShiftLoop (pageSize blockSize shift : Nat) : Nat :=
  if pageSize < blockSize then pagingShiftLoop pageSize (blockSize / 2) (shift + 1) else shift
termination_by blockSize
decreasing_by omega

def inodePagerCreate (fs : FileSystem) (pageSize : Nat) (ip : Inode) (inodeSize : Word)
    (paging : Bool) : Istruct where
  paging := paging
  pagingShift := if paging then pagingShiftLoop pageSize fs.bsize 0 else 0
  inode := ip
  inodeSize := inodeSize
  errors := 0

/-- The size that is passed to `inode_write`, and what it did. -/
structure Pageout where
  size : Word
  written : Written

/-- The size of a pageout; a page of a mapped file ends at the size of the file. -/
def pageoutSize (pageSize : Nat) (is : Istruct) (offset : Word) : Word :=
  if is.paging then BitVec.ofNat 32 pageSize
  else if offset + BitVec.ofNat 32 pageSize > is.inodeSize then is.inodeSize - offset
  else BitVec.ofNat 32 pageSize

/-- `is_page_write` of an object without a paging file; `none` when it returns early. -/
def isPageWrite (fs : FileSystem) (pageSize : Nat) (is : Istruct) (offset : Word)
    (addr : Nat → UInt8) : Option Pageout :=
  if offset = -1 then none
  else
    some ⟨pageoutSize pageSize is offset,
      inodeWrite fs is.inode addr (pageoutSize pageSize is offset) (offset <<< is.pagingShift)⟩

/-- The object after `is_page_write`. -/
def afterPageWrite (is : Istruct) : Option Pageout → Istruct
  | none => is
  | some out =>
      { is with
        inode := out.written.inode
        errors := is.errors + if out.written.error.isSome then 1 else 0 }

@[simp] theorem afterPageWrite_pagingShift (is : Istruct) (out : Option Pageout) :
    (afterPageWrite is out).pagingShift = is.pagingShift := by
  cases out <;> rfl

/-- `inode_pageout` of the page at `mOffset` of an object that starts at `pagingOffset` of
the file. -/
def inodePageout (fs : FileSystem) (pageSize : Nat) (is : Istruct)
    (mOffset pagingOffset : Word) (addr : Nat → UInt8) : Pageout :=
  ⟨pageoutSize pageSize is (mOffset + pagingOffset),
    inodeWrite fs is.inode addr (pageoutSize pageSize is (mOffset + pagingOffset))
      (mOffset + pagingOffset)⟩

/-- A pageout writes the bytes of the page that are below the size of the file, no others,
and does not extend the file further. -/
structure WritesBelow (fs : FileSystem) (pageSize : Nat) (is : Istruct) (offset : Word)
    (addr : Nat → UInt8) (out : Pageout) : Prop where
  size : out.size.toNat = min pageSize (is.inodeSize.toNat - offset.toNat)
  taken : out.written.pOffset ≤ pageSize
  inside : ∀ i < pageSize, offset.toNat + i < is.inodeSize.toNat →
    out.written.inode.byteAt fs (offset.toNat + i) = some (addr i)
  outside : ∀ pos byte, pos < offset.toNat ∨ offset.toNat + pageSize ≤ pos ∨
    is.inodeSize.toNat ≤ pos → is.inode.byteAt fs pos = some byte →
    out.written.inode.byteAt fs pos = some byte
  iSize : out.written.inode.iSize.toNat ≤ max is.inode.iSize.toNat is.inodeSize.toNat

section Mapped

variable {fs : FileSystem} {pageSize : Nat} {is : Istruct} {offset : Word}

theorem pageoutSize_below (hmapped : is.paging = false) (hpage : pageSize < 2 ^ 32)
    (hbelow : offset.toNat ≤ is.inodeSize.toNat) (hroom : offset.toNat + pageSize < 2 ^ 32) :
    (pageoutSize pageSize is offset).toNat = min pageSize (is.inodeSize.toNat - offset.toNat) := by
  have hsum := toNat_add_ofNat hroom
  rw [pageoutSize, hmapped, if_neg (by simp)]
  split
  · next hgt =>
      have hgt' := BitVec.lt_def.mp hgt
      rw [BitVec.toNat_sub_of_le (BitVec.le_def.mpr hbelow)]
      omega
  · next hle =>
      have hle' : ¬is.inodeSize.toNat < (offset + BitVec.ofNat 32 pageSize).toNat :=
        fun hlt => hle (BitVec.lt_def.mpr hlt)
      rw [BitVec.toNat_ofNat, Nat.mod_eq_of_lt hpage]
      omega

/-- Nothing cuts the page that ends with the offset space, and behind the size of the file
the difference wraps. -/
theorem below_of_pageoutSize (hmapped : is.paging = false) (hpos : 0 < pageSize)
    (hend : offset.toNat + pageSize ≤ 2 ^ 32) (hpage : pageSize < 2 ^ 32)
    (hsize : (pageoutSize pageSize is offset).toNat =
      min pageSize (is.inodeSize.toNat - offset.toNat)) :
    offset.toNat ≤ is.inodeSize.toNat ∧ offset.toNat + pageSize < 2 ^ 32 := by
  have hlt := is.inodeSize.isLt
  rw [pageoutSize, hmapped, if_neg (by simp)] at hsize
  rcases Nat.lt_or_eq_of_le hend with hroom | hlast
  · refine ⟨?_, hroom⟩
    by_contra hbehind
    have hgt : offset + BitVec.ofNat 32 pageSize > is.inodeSize := by
      refine BitVec.lt_def.mpr ?_
      rw [toNat_add_ofNat hroom]
      omega
    rw [if_pos hgt, BitVec.toNat_sub] at hsize
    have hoffset := offset.isLt
    omega
  · have hzero : offset + BitVec.ofNat 32 pageSize = 0#32 := by
      apply BitVec.eq_of_toNat_eq
      rw [BitVec.toNat_add, BitVec.toNat_ofNat, Nat.add_mod_mod, hlast]
      rfl
    rw [hzero, if_neg (by simp), BitVec.toNat_ofNat, Nat.mod_eq_of_lt hpage] at hsize
    omega

theorem writesBelow_of_below (faithful : Faithful fs) (hmapped : is.paging = false)
    (hdistinct : is.inode.volume.Distinct) (hpage : pageSize < 2 ^ 32)
    (hbelow : offset.toNat ≤ is.inodeSize.toNat) (hroom : offset.toNat + pageSize < 2 ^ 32)
    (addr : Nat → UInt8) :
    WritesBelow fs pageSize is offset addr
      ⟨pageoutSize pageSize is offset,
        inodeWrite fs is.inode addr (pageoutSize pageSize is offset) offset⟩ := by
  have hsize := pageoutSize_below hmapped hpage hbelow hroom
  obtain ⟨ip', hwritten, stored⟩ := writeLoop_stored faithful addr is.inode 0 offset rfl hdistinct
    (show offset.toNat + (pageoutSize pageSize is offset).toNat < 2 ^ 32 by omega)
  have hwrite : inodeWrite fs is.inode addr (pageoutSize pageSize is offset) offset =
      ⟨none, ip', 0 + (pageoutSize pageSize is offset).toNat⟩ := hwritten
  simp only [Nat.zero_add] at stored
  rw [hwrite]
  refine ⟨hsize, ?_, fun i hi hin => ?_, fun pos byte hpos held => ?_, ?_⟩
  · dsimp only
    omega
  · exact stored.inside i (by omega)
  · exact stored.outside pos byte (by omega) held
  · dsimp only
    rw [stored.size]
    omega

end Mapped

/-- Both pageouts of a page of a mapped file write what is below the size of the file exactly
when the page does not start behind that size and is not the last page of the offset space. -/
theorem pageout_writesBelow_iff {fs : FileSystem} (faithful : Faithful fs) {pageShift : Nat}
    (hshift : pageShift ≤ 30) {ip : Inode} (hdistinct : ip.volume.Distinct) (inodeSize : Word)
    {mOffset pagingOffset : Word} (haligned : 2 ^ pageShift ∣ (mOffset + pagingOffset).toNat)
    (addr : Nat → UInt8) :
    ((∀ out, isPageWrite fs (2 ^ pageShift) (inodePagerCreate fs (2 ^ pageShift) ip inodeSize false)
          (mOffset + pagingOffset) addr = some out →
        WritesBelow fs (2 ^ pageShift) (inodePagerCreate fs (2 ^ pageShift) ip inodeSize false)
          (mOffset + pagingOffset) addr out) ∧
      WritesBelow fs (2 ^ pageShift) (inodePagerCreate fs (2 ^ pageShift) ip inodeSize false)
        (mOffset + pagingOffset) addr
        (inodePageout fs (2 ^ pageShift) (inodePagerCreate fs (2 ^ pageShift) ip inodeSize false)
          mOffset pagingOffset addr)) ↔
    (mOffset + pagingOffset).toNat ≤ inodeSize.toNat ∧
      (mOffset + pagingOffset).toNat + 2 ^ pageShift < 2 ^ 32 := by
  have hpos : 0 < 2 ^ pageShift := Nat.two_pow_pos pageShift
  have hpage : 2 ^ pageShift < 2 ^ 32 := Nat.pow_lt_pow_right (by decide) (by omega)
  constructor
  · rintro ⟨-, hpageout⟩
    exact below_of_pageoutSize rfl hpos (page_end_le hshift haligned) hpage hpageout.size
  · rintro ⟨hbelow, hroom⟩
    have hmapped : (inodePagerCreate fs (2 ^ pageShift) ip inodeSize false).paging = false := rfl
    have hwrites := writesBelow_of_below faithful hmapped hdistinct hpage hbelow hroom addr
    refine ⟨fun out hout => ?_, hwrites⟩
    unfold isPageWrite at hout
    split at hout
    · cases hout
    · cases hout
      simpa [inodePagerCreate] using hwrites

/-- A file of 5000 bytes whose second page of 4096 is paged out. -/
theorem pageout_writesBelow_secondPage :
    (∀ out, isPageWrite (plainFs 13 (by decide)) (2 ^ 12)
          (inodePagerCreate (plainFs 13 (by decide)) (2 ^ 12) (emptyInode (fun _ _ => 7)) 5000 false)
          (4096 + 0) (fun i => i.toUInt8) = some out →
        WritesBelow (plainFs 13 (by decide)) (2 ^ 12)
          (inodePagerCreate (plainFs 13 (by decide)) (2 ^ 12) (emptyInode (fun _ _ => 7)) 5000 false)
          (4096 + 0) (fun i => i.toUInt8) out) ∧
      WritesBelow (plainFs 13 (by decide)) (2 ^ 12)
        (inodePagerCreate (plainFs 13 (by decide)) (2 ^ 12) (emptyInode (fun _ _ => 7)) 5000 false)
        (4096 + 0) (fun i => i.toUInt8)
        (inodePageout (plainFs 13 (by decide)) (2 ^ 12)
          (inodePagerCreate (plainFs 13 (by decide)) (2 ^ 12) (emptyInode (fun _ _ => 7)) 5000 false)
          4096 0 (fun i => i.toUInt8)) :=
  (pageout_writesBelow_iff (plainFs_faithful 13 (by decide)) (by decide) (emptyInode_distinct _)
    5000 (by decide) _).mpr (by decide)

/-- A file truncated to nothing while its second page is dirty. -/
theorem truncated_file_overrun :
    ¬WritesBelow (plainFs 13 (by decide)) (2 ^ 12)
      (inodePagerCreate (plainFs 13 (by decide)) (2 ^ 12) (emptyInode (fun _ _ => 7)) 0 false)
      4096 (fun i => i.toUInt8)
      (inodePageout (plainFs 13 (by decide)) (2 ^ 12)
        (inodePagerCreate (plainFs 13 (by decide)) (2 ^ 12) (emptyInode (fun _ _ => 7)) 0 false)
        4096 0 (fun i => i.toUInt8)) := by
  intro hwrites
  exact absurd hwrites.size (by decide)

end MachFormal.InodePager.InodeIO
