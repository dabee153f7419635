import MachFormal.Library.Machine
import MachFormal.InodePager.Pageout

/-!
# Pages scattered over a paging inode

An object that pages to an inode of its own shifts the offsets of its pages, so
that each page starts a block of its own when blocks are larger than pages.  The
shifted offset is a word.  The state carries, beside the object, the data that
every page was last written with, which no routine looks at.
-/

namespace MachFormal.InodePager.InodeIO

open MachFormal.Library

/-- The offset of a page. -/
abbrev PageOffset (pageShift : Nat) := { o : Word // 2 ^ pageShift ∣ o.toNat }

/-- `is_page_read` of an object without a paging file. -/
def isPageRead (fs : FileSystem) (pageSize : Nat) (is : Istruct) (offset : Word)
    (buffer : Nat → UInt8) : Option Errno × (Nat → UInt8) :=
  if offset = -1 then (some .einval, buffer)
  else inodeRead fs pageSize is.inode buffer (offset <<< is.pagingShift)

structure Scatter (pageShift : Nat) where
  is : Istruct
  last : PageOffset pageShift → Option (Nat → UInt8)

/-- One call of `is_page_write`. -/
def scatterStep (fs : FileSystem) {pageShift : Nat} (s : Scatter pageShift)
    (write : PageOffset pageShift × (Nat → UInt8)) : Option (Scatter pageShift) :=
  some
    { is := afterPageWrite s.is (isPageWrite fs (2 ^ pageShift) s.is write.1.val write.2)
      last := Function.update s.last write.1 (some write.2) }

/-- The object is created on an empty inode; nothing is known of the disk. -/
def scatterMachine (fs : FileSystem) (pageShift : Nat) :
    Machine (Scatter pageShift) (PageOffset pageShift × (Nat → UInt8)) where
  init := fun s => (∃ block inodeSize, s.is =
    inodePagerCreate fs (2 ^ pageShift) (emptyInode block) inodeSize true) ∧ s.last = fun _ => none
  step := scatterStep fs

/-- Where the page starts in the file when the shift does not wrap. -/
def pageBase (fs : FileSystem) {pageShift : Nat} (o : PageOffset pageShift) : Nat :=
  o.val.toNat * 2 ^ (fs.bshift - pageShift)

/-- The shifted page ends before the end of the offset space. -/
def ShiftFits (fs : FileSystem) {pageShift : Nat} (o : PageOffset pageShift) : Prop :=
  pageBase fs o + 2 ^ pageShift < 2 ^ 32

/-- Pages share no byte of the file, a page that was written is read as it was last written,
and a page is there exactly when it was written. -/
structure Scattered (fs : FileSystem) {pageShift : Nat} (s : Scatter pageShift) : Prop where
  apart : ∀ o o' : PageOffset pageShift, ShiftFits fs o → ShiftFits fs o' → o ≠ o' →
    (o.val <<< s.is.pagingShift).toNat + 2 ^ pageShift ≤ (o'.val <<< s.is.pagingShift).toNat ∨
      (o'.val <<< s.is.pagingShift).toNat + 2 ^ pageShift ≤ (o.val <<< s.is.pagingShift).toNat
  reads : ∀ (o : PageOffset pageShift) (data : Nat → UInt8), ShiftFits fs o →
    s.last o = some data → ∀ buffer,
      (isPageRead fs (2 ^ pageShift) s.is o.val buffer).1 = none ∧
        ∀ i < 2 ^ pageShift, (isPageRead fs (2 ^ pageShift) s.is o.val buffer).2 i = data i
  present : ∀ o : PageOffset pageShift, ShiftFits fs o →
    (hasPage fs (2 ^ pageShift) s.is.inode (o.val <<< s.is.pagingShift) = true ↔
      (s.last o).isSome)

/-! ## Where the pages are -/

section Bases

variable {fs : FileSystem} {pageShift : Nat} {o o' : PageOffset pageShift}

/-- The loop counts how often the block size is to be halved. -/
theorem pagingShiftLoop_eq (pageShift bshift shift : Nat) :
    pagingShiftLoop (2 ^ pageShift) (2 ^ bshift) shift = shift + (bshift - pageShift) := by
  induction bshift generalizing shift with
  | zero =>
      rw [pagingShiftLoop, if_neg (by have := Nat.one_le_two_pow (n := pageShift); omega)]
      omega
  | succ b ih =>
      rw [pagingShiftLoop]
      by_cases hlt : pageShift < b + 1
      · rw [if_pos (Nat.pow_lt_pow_right (by decide) hlt), Nat.pow_succ,
          Nat.mul_div_cancel _ (by decide), ih]
        omega
      · rw [if_neg (by have := Nat.pow_le_pow_right (n := 2) (by decide) (Nat.le_of_not_lt hlt); omega)]
        omega

/-- The distance of neighbouring pages in the file: a page or a block, whichever is larger. -/
def pageUnit (fs : FileSystem) (pageShift : Nat) : Nat :=
  2 ^ (pageShift + (fs.bshift - pageShift))

theorem pageBase_eq (fs : FileSystem) (o : PageOffset pageShift) :
    ∃ k, o.val.toNat = 2 ^ pageShift * k ∧ pageBase fs o = pageUnit fs pageShift * k := by
  obtain ⟨k, hk⟩ := o.property
  refine ⟨k, hk, ?_⟩
  rw [pageBase, pageUnit, hk, Nat.pow_add, Nat.mul_right_comm]

theorem page_le_unit (fs : FileSystem) (pageShift : Nat) : 2 ^ pageShift ≤ pageUnit fs pageShift :=
  Nat.pow_le_pow_right (by decide) (by omega)

theorem bsize_dvd_unit (fs : FileSystem) (pageShift : Nat) : fs.bsize ∣ pageUnit fs pageShift :=
  Nat.pow_dvd_pow 2 (by omega)

theorem pageUnit_pos (fs : FileSystem) (pageShift : Nat) : 0 < pageUnit fs pageShift :=
  Nat.two_pow_pos _

/-- A position of a page tells which page it is. -/
theorem page_of_position {i i' : Nat} (hi : i < 2 ^ pageShift) (hi' : i' < 2 ^ pageShift)
    (hblock : (pageBase fs o + i) / fs.bsize = (pageBase fs o' + i') / fs.bsize) : o = o' := by
  obtain ⟨k, hk, hbase⟩ := pageBase_eq fs o
  obtain ⟨k', hk', hbase'⟩ := pageBase_eq fs o'
  obtain ⟨m, hm⟩ := bsize_dvd_unit fs pageShift
  have hunit := page_le_unit fs pageShift
  have hpos := pageUnit_pos fs pageShift
  have hof : ∀ k i, i < 2 ^ pageShift → (pageUnit fs pageShift * k + i) / fs.bsize / m = k := by
    intro k i hlt
    rw [Nat.div_div_eq_div_mul, ← hm, Nat.mul_add_div hpos, Nat.div_eq_of_lt (by omega),
      Nat.add_zero]
  have hsame : k = k' := by
    rw [← hof k i hi, ← hof k' i' hi', ← hbase, ← hbase', hblock]
  exact Subtype.ext (BitVec.eq_of_toNat_eq (by rw [hk, hk', hsame]))

theorem bases_apart (fs : FileSystem) (hne : o ≠ o') :
    pageBase fs o + 2 ^ pageShift ≤ pageBase fs o' ∨
      pageBase fs o' + 2 ^ pageShift ≤ pageBase fs o := by
  obtain ⟨k, hk, hbase⟩ := pageBase_eq fs o
  obtain ⟨k', hk', hbase'⟩ := pageBase_eq fs o'
  have hunit := page_le_unit fs pageShift
  have hdiffer : k ≠ k' := by
    rintro rfl
    exact hne (Subtype.ext (BitVec.eq_of_toNat_eq (hk.trans hk'.symm)))
  rw [hbase, hbase']
  rcases Nat.lt_or_gt_of_ne hdiffer with hlt | hgt
  · left
    have hle : pageUnit fs pageShift * (k + 1) ≤ pageUnit fs pageShift * k' :=
      Nat.mul_le_mul_left _ hlt
    rw [Nat.mul_succ] at hle
    omega
  · right
    have hle : pageUnit fs pageShift * (k' + 1) ≤ pageUnit fs pageShift * k :=
      Nat.mul_le_mul_left _ hgt
    rw [Nat.mul_succ] at hle
    omega

/-- A shift that does not wrap multiplies. -/
theorem toNat_shifted (hfits : ShiftFits fs o) :
    (o.val <<< (fs.bshift - pageShift)).toNat = pageBase fs o := by
  have hlt : pageBase fs o < 2 ^ 32 := by
    have := Nat.two_pow_pos pageShift
    unfold ShiftFits at hfits
    omega
  rw [BitVec.toNat_shiftLeft, Nat.shiftLeft_eq]
  exact Nat.mod_eq_of_lt hlt

theorem ShiftFits.ne_last (hfits : ShiftFits fs o) : o.val ≠ -1 := by
  intro heq
  have hpos := Nat.two_pow_pos pageShift
  have hscale : o.val.toNat * 1 ≤ pageBase fs o :=
    Nat.mul_le_mul_left _ (Nat.one_le_two_pow)
  rw [heq] at hscale
  have hvalue : ((-1 : Word)).toNat = 2 ^ 32 - 1 := by decide
  unfold ShiftFits at hfits
  omega

end Bases

/-! ## Runs -/

/-- The data of every written page is in the file, and the blocks of the file are those of
written pages. -/
structure ScatterInv (fs : FileSystem) {pageShift : Nat} (s : Scatter pageShift) : Prop where
  paging : s.is.paging = true
  shift : s.is.pagingShift = fs.bshift - pageShift
  distinct : s.is.inode.volume.Distinct
  fits : ∀ (o : PageOffset pageShift), (s.last o).isSome → ShiftFits fs o
  stored : ∀ (o : PageOffset pageShift) (data : Nat → UInt8), s.last o = some data →
    pageBase fs o + 2 ^ pageShift ≤ s.is.inode.iSize.toNat ∧
      ∀ i < 2 ^ pageShift, s.is.inode.byteAt fs (pageBase fs o + i) = some (data i)
  blocks : ∀ l, (s.is.inode.volume.find l).isSome →
    ∃ o : PageOffset pageShift, (s.last o).isSome ∧
      ∃ i < 2 ^ pageShift, (pageBase fs o + i) / fs.bsize = l

section Runs

variable {fs : FileSystem} {pageShift : Nat} {s s' : Scatter pageShift}

theorem ScatterInv.start (hinit : (scatterMachine fs pageShift).init s) : ScatterInv fs s := by
  obtain ⟨⟨block, inodeSize, his⟩, hlast⟩ := hinit
  refine ⟨by rw [his]; rfl, ?_, by rw [his]; exact emptyInode_distinct block, fun o hsome => ?_,
    fun o data hdata => ?_, fun l hfind => ?_⟩
  · rw [his, inodePagerCreate]
    simp only [if_true, FileSystem.bsize, pagingShiftLoop_eq, Nat.zero_add]
  · simp [hlast] at hsome
  · simp [hlast] at hdata
  · simp [his, inodePagerCreate, emptyInode, Volume.find] at hfind

theorem ScatterInv.step (faithful : Faithful fs) (hshift : pageShift ≤ 30) (inv : ScatterInv fs s)
    {write : PageOffset pageShift × (Nat → UInt8)} (hfits : ShiftFits fs write.1)
    (hstep : scatterStep fs s write = some s') : ScatterInv fs s' := by
  obtain ⟨o, data⟩ := write
  cases hstep
  have hpos := Nat.two_pow_pos pageShift
  have hpage : 2 ^ pageShift < 2 ^ 32 := Nat.pow_lt_pow_right (by decide) (by omega)
  have hbase : (o.val <<< s.is.pagingShift).toNat = pageBase fs o := by
    rw [inv.shift]
    exact toNat_shifted hfits
  have hsize : (pageoutSize (2 ^ pageShift) s.is o.val).toNat = 2 ^ pageShift := by
    rw [pageoutSize, if_pos inv.paging, BitVec.toNat_ofNat, Nat.mod_eq_of_lt hpage]
  obtain ⟨ip', hwritten, stored⟩ := writeLoop_stored faithful data s.is.inode 0 _ hbase
    inv.distinct (show pageBase fs o + 2 ^ pageShift < 2 ^ 32 from hfits)
  have hwrite : isPageWrite fs (2 ^ pageShift) s.is o.val data =
      some ⟨pageoutSize (2 ^ pageShift) s.is o.val, ⟨none, ip', 0 + 2 ^ pageShift⟩⟩ := by
    rw [isPageWrite, if_neg hfits.ne_last, inodeWrite, hsize, hwritten]
  simp only [Nat.zero_add] at stored
  dsimp only
  rw [hwrite, afterPageWrite]
  refine ⟨inv.paging, inv.shift, stored.distinct, fun o' hsome => ?_, fun o' data' hdata => ?_,
    fun l hfind => ?_⟩
  · dsimp only at hsome
    by_cases heq : o' = o
    · rw [heq]
      exact hfits
    · rw [Function.update_of_ne heq] at hsome
      exact inv.fits o' hsome
  · dsimp only at hdata ⊢
    rw [stored.size]
    by_cases heq : o' = o
    · subst heq
      rw [Function.update_self, Option.some.injEq] at hdata
      subst hdata
      exact ⟨le_max_right _ _, stored.inside⟩
    · rw [Function.update_of_ne heq] at hdata
      obtain ⟨hbelow, hbytes⟩ := inv.stored o' data' hdata
      refine ⟨le_trans hbelow (le_max_left _ _), fun i hi => ?_⟩
      have hapart := bases_apart fs heq
      exact stored.outside _ _ (by omega) (hbytes i hi)
  · dsimp only at hfind
    by_cases htouched : ∃ i < 2 ^ pageShift, (pageBase fs o + i) / fs.bsize = l
    · exact ⟨o, by simp, htouched⟩
    · have hfirst : l ≠ pageBase fs o / fs.bsize :=
        fun heq => htouched ⟨0, hpos, by rw [Nat.add_zero, heq]⟩
      rw [stored.blocks l hfirst (fun i hi heq => htouched ⟨i, hi, heq⟩)] at hfind
      obtain ⟨o', hsome, hinside⟩ := inv.blocks l hfind
      refine ⟨o', ?_, hinside⟩
      dsimp only
      by_cases heq : o' = o
      · simp [heq]
      · rw [Function.update_of_ne heq]
        exact hsome

/-- The first block of a page that was not written is missing. -/
theorem ScatterInv.unwritten (inv : ScatterInv fs s) {o : PageOffset pageShift}
    (hlast : s.last o = none) : s.is.inode.volume.find (pageBase fs o / fs.bsize) = none := by
  by_contra hfind
  obtain ⟨o', hsome, i, hi, hblock⟩ := inv.blocks _ (Option.isSome_iff_ne_none.mpr hfind)
  have hsame : (pageBase fs o' + i) / fs.bsize = (pageBase fs o + 0) / fs.bsize := by
    rw [hblock, Nat.add_zero]
  obtain rfl := page_of_position hi (Nat.two_pow_pos pageShift) hsame
  rw [hlast] at hsome
  cases hsome

theorem ScatterInv.scattered (faithful : Faithful fs) (inv : ScatterInv fs s) :
    Scattered fs s := by
  have hpos := Nat.two_pow_pos pageShift
  refine ⟨fun o o' hfits hfits' hne => ?_, fun o data hfits hdata buffer => ?_, fun o hfits => ?_⟩
  · rw [inv.shift, toNat_shifted hfits, toNat_shifted hfits']
    exact bases_apart fs hne
  · obtain ⟨hbelow, hbytes⟩ := inv.stored o data hdata
    have hbase := toNat_shifted hfits
    rw [isPageRead, if_neg hfits.ne_last, inv.shift]
    have hinside : (o.val <<< (fs.bshift - pageShift)).toNat < s.is.inode.iSize.toNat := by omega
    obtain ⟨hok, hread⟩ := inodeRead_copies faithful hpos hinside
      (fun i hi _ => by rw [hbase, hbytes i hi]; rfl) buffer
    refine ⟨hok, fun i hi => ?_⟩
    have hcopied := (hread i hi).1 (by omega)
    rw [hbase, hbytes i hi, Option.some.injEq] at hcopied
    exact hcopied.symm
  · have hbase := toNat_shifted hfits
    rw [inv.shift, hasPage]
    simp only [faithful.found, Bool.false_eq_true, if_false, FileSystem.lblkno, hbase]
    cases hlast : s.last o with
    | some data =>
        obtain ⟨hbelow, hbytes⟩ := inv.stored o data hlast
        have hinside : ¬s.is.inode.iSize ≤ o.val <<< (fs.bshift - pageShift) := fun hle => by
          have := BitVec.le_def.mp hle
          omega
        have hfirst := hbytes 0 hpos
        rw [Nat.add_zero, Inode.byteAt] at hfirst
        obtain ⟨bn, hbn, -⟩ := Option.map_eq_some_iff.mp hfirst
        simp [hinside, hbn]
    | none =>
        rw [inv.unwritten hlast]
        split <;> simp

end Runs

/-- As long as no shifted page reaches the end of the offset space, pages are scattered and
found again. -/
theorem scattered_of_shiftFits {fs : FileSystem} (faithful : Faithful fs) {pageShift : Nat}
    (hshift : pageShift ≤ 30) {s : Scatter pageShift}
    (hreach : (scatterMachine fs pageShift).Reachable (fun _ write => ShiftFits fs write.1) s) :
    Scattered fs s := by
  have inv : ScatterInv fs s := hreach.invariant (fun _ hinit => ScatterInv.start hinit)
    (fun _ _ _ inv hfits hstep => inv.step faithful hshift hfits hstep)
  exact inv.scattered faithful

theorem aligned_4096 : 2 ^ 12 ∣ (4096 : Word).toNat := by decide

/-- Blocks of 8192 and pages of 4096: the pages at 0 and 4096 are written, the first one
twice. -/
def twoPages : List (PageOffset 12 × (Nat → UInt8)) :=
  [(⟨0, by decide⟩, fun _ => 1), (⟨4096, aligned_4096⟩, fun _ => 2), (⟨0, by decide⟩, fun _ => 3)]

def freshScatter : Scatter 12 :=
  ⟨inodePagerCreate (plainFs 13 (by decide)) (2 ^ 12) (emptyInode (fun _ _ => 7)) 0 true,
    fun _ => none⟩

theorem freshScatter_init : (scatterMachine (plainFs 13 (by decide)) 12).init freshScatter :=
  ⟨⟨_, _, rfl⟩, rfl⟩

theorem scattered_twoPages :
    ∃ s, (scatterMachine (plainFs 13 (by decide)) 12).run freshScatter twoPages = some s ∧
      Scattered (plainFs 13 (by decide)) s :=
  ⟨_, rfl, scattered_of_shiftFits (plainFs_faithful 13 (by decide)) (by decide)
    (Machine.Reachable.of_run twoPages (.init freshScatter_init) rfl
      ⟨by unfold ShiftFits; decide, by unfold ShiftFits; decide, by unfold ShiftFits; decide,
        trivial⟩)⟩

/-- The shift drops the highest bit of the offset: the page at 2147483648 is put where the
page at 0 is. -/
theorem shifted_pages_collide :
    ∃ (s : Scatter 12) (o o' : PageOffset 12),
      (scatterMachine (plainFs 13 (by decide)) 12).run freshScatter
          [(⟨0, by decide⟩, fun _ => 1), (⟨0x80000000, by decide⟩, fun _ => 2)] = some s ∧
        o ≠ o' ∧ (s.last o).isSome ∧ (s.last o').isSome ∧
        o.val <<< s.is.pagingShift = o'.val <<< s.is.pagingShift := by
  refine ⟨_, ⟨0, by decide⟩, ⟨0x80000000, by decide⟩, rfl, by decide, by decide, by decide, ?_⟩
  simp only [afterPageWrite_pagingShift, freshScatter, inodePagerCreate, if_true,
    FileSystem.bsize, pagingShiftLoop_eq]
  decide

end MachFormal.InodePager.InodeIO
