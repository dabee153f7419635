import MachFormal.Library.Machine
import MachFormal.Library.Bitmap

/-!
# Paging files and their page maps

A paging file keeps a bitmap of its used pages and a count of its free ones.
An object backed by a paging file maps its own pages to pages of the file, in
one table when it is small and in a table of lazily allocated tables when it is
large.  The tables have the sizes the object was created with, and the bitmap
has as many bytes as the file needs; both facts are part of the types.  What
`kalloc` finds and what fresh memory holds are inputs.  A panic, the use of an
uninitialised variable and an access behind the end of a table are faults.
-/

namespace MachFormal.InodePager.PagerSpace

open MachFormal.Library MachFormal.Library.Bitmap

inductive Fault where
  | panic
  | wild
  deriving DecidableEq, Repr

/-- `howmany(npgs, NBBY)`. -/
def howmany (npgs : Nat) : Nat :=
  (npgs + 7) / 8

structure PagerFile where
  count : Int
  bmap : List (BitVec 8)
  npgs : Nat
  pfree : Int
  bmap_length : bmap.length = howmany npgs
  deriving DecidableEq, Repr

/-! ## Allocation of file pages -/

/-- `pf_allocate_page`: the lowest clear bit of the map; `none` stands for `-1`. -/
def pfAllocatePage (pf : PagerFile) : Except Fault (Option (Nat × PagerFile)) :=
  if pf.pfree = 0 then .ok none
  else
    match scan pf.bmap 0 with
    | none => .error .wild
    | some (bp, i) =>
        if bp * 8 + i > pf.npgs then .error .panic
        else
          .ok (some (bp * 8 + i,
            { pf with
              bmap := setbit pf.bmap (bp * 8 + i)
              pfree := pf.pfree - 1
              bmap_length := by rw [length_setbit, pf.bmap_length] }))

def pfDeallocatePage (pf : PagerFile) (page : Nat) : Except Fault PagerFile :=
  if page > pf.npgs then .error .panic
  else if page / 8 < pf.bmap.length then
    .ok { pf with
      bmap := clrbit pf.bmap page
      pfree := pf.pfree + 1
      bmap_length := by rw [length_clrbit, pf.bmap_length] }
  else .error .wild

/-- The loop of `pf_file_init` that clears the bits of the pages below `npgs`. -/
def clearBits (bytes : List (BitVec 8)) : Nat → List (BitVec 8)
  | 0 => bytes
  | n + 1 => clrbit (clearBits bytes n) n

theorem length_clearBits (bytes : List (BitVec 8)) (n : Nat) :
    (clearBits bytes n).length = bytes.length := by
  induction n with
  | zero => rfl
  | succ n ih => rw [clearBits, length_clrbit, ih]

/-- `pf_file_init`: the file is refused when it is paged as a normal file, cannot be
truncated or has no file system statistics.  A size of 0 asks for the whole disk.  `memory`
is what the fresh bitmap holds. -/
def pfFileInit (pageSize : Nat) (busy setattrError statfsError : Bool) (size diskSize : Nat)
    (memory : Nat → BitVec 8) : Option PagerFile :=
  if busy || setattrError then none
  else if size = 0 && statfsError then none
  else
    let npgs := (if size = 0 then diskSize else size) / pageSize
    some {
      count := 0
      bmap := clearBits ((List.range (howmany npgs)).map memory) npgs
      npgs := npgs
      pfree := npgs
      bmap_length := by simp [length_clearBits] }

/-! ## Page maps -/

/-- `PAGEMAP_ENTRIES`: a table of 512 bytes holds 128 words. -/
def pagemapEntries : Nat := 512 / 4

def indirectPagemap (size : Nat) : Bool :=
  decide (size * 4 > 512)

def indirectPagemapEntries (size : Nat) : Nat :=
  (size - 1) / pagemapEntries + 1

/-- `is->pmap`.  An entry `none` is `-1`, a table `none` is `NULL`. -/
inductive Pmap where
  | direct (entries : List (Option Nat))
  | indirect (tables : List (Option (List (Option Nat))))
  deriving DecidableEq, Repr

/-- The map was allocated for an object of this size. -/
def Pmap.Fits (size : Nat) : Pmap → Prop
  | .direct entries => indirectPagemap size = false ∧ entries.length = size
  | .indirect tables => indirectPagemap size = true ∧
      tables.length = indirectPagemapEntries size ∧
      ∀ entries, some entries ∈ tables → entries.length = pagemapEntries

/-- What is found at a page of the object. -/
inductive Slot where
  | wild
  | noTable
  | entry (page : Option Nat)
  deriving DecidableEq, Repr

def Pmap.read (pmap : Pmap) (fPage : Nat) : Slot :=
  match pmap with
  | .direct entries =>
      match entries[fPage]? with
      | none => .wild
      | some page => .entry page
  | .indirect tables =>
      match tables[fPage / pagemapEntries]? with
      | none => .wild
      | some none => .noTable
      | some (some entries) =>
          match entries[fPage % pagemapEntries]? with
          | none => .wild
          | some page => .entry page

/-- Store a new page number. -/
def Pmap.setEntry (pmap : Pmap) (fPage page : Nat) : Pmap :=
  match pmap with
  | .direct entries => .direct (entries.set fPage (some page))
  | .indirect tables =>
      match tables[fPage / pagemapEntries]? with
      | some (some entries) =>
          .indirect (tables.set (fPage / pagemapEntries)
            (some (entries.set (fPage % pagemapEntries) (some page))))
      | _ => .indirect tables

/-- Store a fresh second-level table, filled with `-1`. -/
def Pmap.addTable (pmap : Pmap) (fPage : Nat) : Pmap :=
  match pmap with
  | .direct entries => .direct entries
  | .indirect tables =>
      .indirect (tables.set (fPage / pagemapEntries) (some (List.replicate pagemapEntries none)))

theorem Pmap.Fits.setEntry {size : Nat} {pmap : Pmap} (h : pmap.Fits size) (fPage page : Nat) :
    (pmap.setEntry fPage page).Fits size := by
  cases pmap with
  | direct entries => exact ⟨h.1, List.length_set.trans h.2⟩
  | indirect tables =>
      obtain ⟨hsize, hlength, htables⟩ := h
      unfold Pmap.setEntry
      dsimp only
      split
      · next entries hentries =>
          refine ⟨hsize, List.length_set.trans hlength, fun table htable => ?_⟩
          rcases List.mem_or_eq_of_mem_set htable with hold | hnew
          · exact htables table hold
          · rw [Option.some.inj hnew, List.length_set]
            exact htables entries (List.mem_of_getElem? hentries)
      · exact ⟨hsize, hlength, htables⟩

theorem Pmap.Fits.addTable {size : Nat} {pmap : Pmap} (h : pmap.Fits size) (fPage : Nat) :
    (pmap.addTable fPage).Fits size := by
  cases pmap with
  | direct entries => exact h
  | indirect tables =>
      obtain ⟨hsize, hlength, htables⟩ := h
      refine ⟨hsize, List.length_set.trans hlength, fun table htable => ?_⟩
      rcases List.mem_or_eq_of_mem_set htable with hold | hnew
      · exact htables table hold
      · rw [Option.some.inj hnew, List.length_replicate]

/-- An object backed by a paging file; `pfInfo` is the position of the file. -/
structure Istruct where
  size : Nat
  pfInfo : Nat
  errors : Nat
  pmap : Pmap
  fits : pmap.Fits size

def Istruct.setEntry (is : Istruct) (fPage page : Nat) : Istruct :=
  { is with pmap := is.pmap.setEntry fPage page, fits := is.fits.setEntry fPage page }

def Istruct.addTable (is : Istruct) (fPage : Nat) : Istruct :=
  { is with pmap := is.pmap.addTable fPage, fits := is.fits.addTable fPage }

/-- The map `pf_pager_create` fills in. -/
def newPmap (size : Nat) : Pmap :=
  if indirectPagemap size then .indirect (List.replicate (indirectPagemapEntries size) none)
  else .direct (List.replicate size none)

theorem newPmap_fits (size : Nat) : (newPmap size).Fits size := by
  unfold newPmap
  split
  · next hsize =>
      refine ⟨hsize, List.length_replicate, fun entries hentries => ?_⟩
      cases (List.mem_replicate.mp hentries).2
  · next hsize => exact ⟨by simpa using hsize, List.length_replicate⟩

/-- `pf_pager_create`; the two flags say whether `zalloc` and `kalloc` found memory. -/
def pfPagerCreate (pageSize : Nat) (pfInfo size : Nat) (zallocOk kallocOk : Bool) :
    Option Istruct :=
  if zallocOk && kallocOk then
    some ⟨size / pageSize, pfInfo, 0, newPmap (size / pageSize), newPmap_fits _⟩
  else none

inductive Flag where
  | read
  | write
  deriving DecidableEq, Repr

/-- The end of `pf_bmap` at an entry that is `-1`: allocate a page and store it. -/
def pfBmapNew (pageSize : Nat) (pf : PagerFile) (is : Istruct) (fOffset : Nat) :
    Except Fault (Option Nat × Istruct × PagerFile) :=
  match pfAllocatePage pf with
  | .error fault => .error fault
  | .ok none => .ok (none, is, pf)
  | .ok (some (newpage, pf')) =>
      .ok (some (fOffset % pageSize + newpage * pageSize),
        is.setEntry (fOffset / pageSize) newpage, pf')

/-- `pf_bmap`; `none` stands for the offset `-1`. -/
def pfBmap (pageSize : Nat) (pf : PagerFile) (is : Istruct) (fOffset : Nat) (flag : Flag)
    (kallocOk : Bool) : Except Fault (Option Nat × Istruct × PagerFile) :=
  if fOffset / pageSize > is.size then .ok (none, is, pf)
  else
    match is.pmap.read (fOffset / pageSize) with
    | .wild => .error .wild
    | .noTable =>
        if flag = .read then .ok (none, is, pf)
        else if kallocOk then pfBmapNew pageSize pf (is.addTable (fOffset / pageSize)) fOffset
        else .ok (none, is, pf)
    | .entry none =>
        if flag = .read then .ok (none, is, pf) else pfBmapNew pageSize pf is fOffset
    | .entry (some page) => .ok (some (fOffset % pageSize + page * pageSize), is, pf)

/-- The file pages in the map, in the order in which the loops of `pf_dealloc` meet them. -/
def Pmap.mapped : Pmap → List Nat
  | .direct entries => items entries
  | .indirect tables => (items tables).flatMap items

def deallocatePages (pf : PagerFile) : List Nat → Except Fault PagerFile
  | [] => .ok pf
  | page :: rest =>
      match pfDeallocatePage pf page with
      | .error fault => .error fault
      | .ok pf' => deallocatePages pf' rest

/-- `pf_dealloc`: give back every page of the object. -/
def pfDealloc (pf : PagerFile) (is : Istruct) : Except Fault PagerFile :=
  match deallocatePages pf is.pmap.mapped with
  | .error fault => .error fault
  | .ok pf' => .ok { pf' with count := pf'.count - 1 }

/-! ## The flat view of a page map -/

/-- The row of a second-level table; a missing table has no pages. -/
def row (table : Option (List (Option Nat))) : List (Option Nat) :=
  table.getD (List.replicate pagemapEntries none)

/-- The entries for the pages 0, 1, 2, … of the object. -/
def Pmap.slots : Pmap → List (Option Nat)
  | .direct entries => entries
  | .indirect tables => tables.flatMap row

section Slots

variable {size fPage page : Nat} {pmap : Pmap}

theorem row_length {tables : List (Option (List (Option Nat)))}
    (h : (Pmap.indirect tables).Fits size) : ∀ table ∈ tables, (row table).length = pagemapEntries := by
  intro table htable
  cases table with
  | none => exact List.length_replicate
  | some entries => exact h.2.2 entries htable

theorem div_mod_pagemap (fPage : Nat) :
    fPage / pagemapEntries * pagemapEntries + fPage % pagemapEntries = fPage :=
  Nat.div_add_mod' fPage pagemapEntries

theorem mod_pagemap_lt (fPage : Nat) : fPage % pagemapEntries < pagemapEntries :=
  Nat.mod_lt fPage (by decide)

/-- Both kinds of map look up the flat list of entries. -/
theorem slots_of_read (h : pmap.Fits size) {entry : Option Nat}
    (hread : pmap.read fPage = .entry entry) : pmap.slots[fPage]? = some entry := by
  cases pmap with
  | direct entries =>
      unfold Pmap.read at hread
      dsimp only at hread
      split at hread
      · cases hread
      · next hentry =>
          cases hread
          exact hentry
  | indirect tables =>
      unfold Pmap.read at hread
      dsimp only at hread
      split at hread
      · cases hread
      · cases hread
      · next entries htable =>
          split at hread
          · cases hread
          · next hentry =>
              cases hread
              have hslot := flatMap_getElem? (row_length h) htable (mod_pagemap_lt fPage)
              rw [div_mod_pagemap] at hslot
              exact hslot.trans hentry

theorem slots_of_noTable (h : pmap.Fits size) (hread : pmap.read fPage = .noTable) :
    pmap.slots[fPage]? = some none := by
  cases pmap with
  | direct entries =>
      unfold Pmap.read at hread
      dsimp only at hread
      split at hread <;> cases hread
  | indirect tables =>
      unfold Pmap.read at hread
      dsimp only at hread
      split at hread
      · cases hread
      · next htable =>
          have hslot := flatMap_getElem? (row_length h) htable (mod_pagemap_lt fPage)
          rw [div_mod_pagemap] at hslot
          rw [Pmap.slots, hslot]
          simp [row, mod_pagemap_lt fPage]
      · split at hread <;> cases hread

theorem slots_setEntry (h : pmap.Fits size) {entry : Option Nat}
    (hread : pmap.read fPage = .entry entry) :
    (pmap.setEntry fPage page).slots = pmap.slots.set fPage (some page) := by
  cases pmap with
  | direct entries => rfl
  | indirect tables =>
      unfold Pmap.read at hread
      dsimp only at hread
      split at hread
      · cases hread
      · cases hread
      · next entries htable =>
          simp only [Pmap.setEntry, htable, Pmap.slots]
          have hset := flatMap_set_row (row_length h) htable (mod_pagemap_lt fPage)
            (y := some (entries.set (fPage % pagemapEntries) (some page))) (v := some page) rfl
          rwa [div_mod_pagemap] at hset

theorem slots_addTable (hread : pmap.read fPage = .noTable) :
    (pmap.addTable fPage).slots = pmap.slots := by
  cases pmap with
  | direct entries => rfl
  | indirect tables =>
      unfold Pmap.read at hread
      dsimp only at hread
      split at hread
      · cases hread
      · next htable => exact flatMap_set_same htable rfl
      · split at hread <;> cases hread

theorem read_addTable (hread : pmap.read fPage = .noTable) :
    (pmap.addTable fPage).read fPage = .entry none := by
  cases pmap with
  | direct entries =>
      unfold Pmap.read at hread
      dsimp only at hread
      split at hread <;> cases hread
  | indirect tables =>
      unfold Pmap.read at hread
      dsimp only at hread
      split at hread
      · cases hread
      · next htable =>
          have hlt : fPage / pagemapEntries < tables.length :=
            (List.getElem?_eq_some_iff.mp htable).1
          simp [Pmap.addTable, Pmap.read, List.getElem?_set_self hlt, mod_pagemap_lt fPage]
      · split at hread <;> cases hread

/-- Pages inside the object are inside the tables. -/
theorem read_ne_wild (h : pmap.Fits size) (hpage : fPage < size) : pmap.read fPage ≠ .wild := by
  cases pmap with
  | direct entries =>
      have hlt : fPage < entries.length := by rw [h.2]; exact hpage
      simp [Pmap.read, List.getElem?_eq_getElem hlt]
  | indirect tables =>
      have hlt : fPage / pagemapEntries < tables.length := by
        rw [h.2.1, indirectPagemapEntries, Nat.lt_succ_iff]
        exact Nat.div_le_div_right (by omega)
      cases htable : tables[fPage / pagemapEntries] with
      | none => simp [Pmap.read, List.getElem?_eq_getElem hlt, htable]
      | some entries =>
          have hwidth := h.2.2 entries (htable ▸ List.getElem_mem hlt)
          have hmod : fPage % pagemapEntries < entries.length := hwidth ▸ mod_pagemap_lt fPage
          simp [Pmap.read, List.getElem?_eq_getElem hlt, htable, List.getElem?_eq_getElem hmod]

theorem mapped_eq_items_slots (pmap : Pmap) : pmap.mapped = items pmap.slots := by
  cases pmap with
  | direct entries => rfl
  | indirect tables =>
      induction tables with
      | nil => rfl
      | cons table tables ih =>
          simp only [Pmap.mapped, Pmap.slots, items, List.flatMap_cons, List.flatMap_append] at ih ⊢
          rw [ih]
          congr 1
          cases table with
          | none => simp [row, List.flatMap_replicate]
          | some entries => simp [row, items]

theorem mapped_newPmap (size : Nat) : (newPmap size).mapped = [] := by
  unfold newPmap
  split <;> simp [Pmap.mapped, items, List.flatMap_replicate]

end Slots

/-! ## One paging file -/

/-- The pages in the list are the used pages of the file, each listed once. -/
structure PagerFile.Owns (pf : PagerFile) (owned : List Nat) : Prop where
  nodup : owned.Nodup
  mem_iff : ∀ n, n ∈ owned ↔ n < pf.npgs ∧ isset pf.bmap n = true
  pfree : pf.pfree = (List.range pf.npgs).countP (fun n => !isset pf.bmap n)

section Owns

variable {pf pf' : PagerFile} {owned rest : List Nat} {page : Nat}

theorem PagerFile.Owns.perm (h : pf.Owns owned) (hperm : rest.Perm owned) : pf.Owns rest :=
  ⟨hperm.nodup_iff.mpr h.nodup, fun n => hperm.mem_iff.trans (h.mem_iff n), h.pfree⟩

theorem byte_lt (hpage : page < pf.npgs) : page / 8 < pf.bmap.length := by
  rw [pf.bmap_length, howmany]
  omega

/-- `pf_allocate_page` never panics; it fails when the file is full, and otherwise returns
a page that was free. -/
theorem PagerFile.Owns.allocate (h : pf.Owns owned) :
    (pf.pfree = 0 ∧ pfAllocatePage pf = .ok none) ∨
      ∃ page pf', pf.pfree ≠ 0 ∧ pfAllocatePage pf = .ok (some (page, pf')) ∧ page < pf.npgs ∧
        page ∉ owned ∧ pf'.npgs = pf.npgs ∧ pf'.Owns (page :: owned) := by
  unfold pfAllocatePage
  by_cases hfree : pf.pfree = 0
  · exact Or.inl ⟨hfree, by rw [if_pos hfree]⟩
  · right
    have hpos : 0 < (List.range pf.npgs).countP (fun n => !isset pf.bmap n) := by
      have hcount := h.pfree
      omega
    obtain ⟨m, hm, hclear⟩ := List.countP_pos_iff.mp hpos
    have hmlt : m < pf.npgs := List.mem_range.mp hm
    obtain ⟨bp, i, hscan, hi, hbp, hfound, hbefore⟩ :=
      scan_spec 0 (byte_lt hmlt) (by simpa using hclear)
    have hle : bp * 8 + i ≤ m := by
      by_contra hgt
      have hset := hbefore m (by omega)
      simp [hset] at hclear
    have hlt : bp * 8 + i < pf.npgs := by omega
    have hbyte := byte_lt hlt
    rw [if_neg hfree, hscan, Nat.zero_add]
    simp only [show ¬ bp * 8 + i > pf.npgs by omega, if_false]
    refine ⟨bp * 8 + i, _, hfree, rfl, hlt, ?_, rfl, ?_, fun n => ?_, ?_⟩
    · intro hin
      have hset := ((h.mem_iff _).mp hin).2
      rw [hfound] at hset
      cases hset
    · refine List.nodup_cons.mpr ⟨fun hin => ?_, h.nodup⟩
      have hset := ((h.mem_iff _).mp hin).2
      rw [hfound] at hset
      cases hset
    · simp only [List.mem_cons, h.mem_iff, isset_setbit hbyte]
      by_cases hn : n = bp * 8 + i
      · simp [hn, hlt]
      · simp [hn]
    · have hupdate := countP_update (fun b => !b) (isset pf.bmap) true
        List.nodup_range (List.mem_range.mpr hlt)
      rw [← isset_setbit hbyte, hfound] at hupdate
      have hcount := h.pfree
      simp only [Bool.not_true, Bool.not_false, Bool.toNat_true, Bool.toNat_false] at hupdate
      simp only
      omega

/-- `pf_deallocate_page` of a used page frees it. -/
theorem PagerFile.Owns.deallocate (owned : List Nat) (h : pf.Owns (page :: owned)) :
    ∃ pf', pfDeallocatePage pf page = .ok pf' ∧ pf'.npgs = pf.npgs ∧ pf'.Owns owned := by
  obtain ⟨hnotin, hnodup⟩ := List.nodup_cons.mp h.nodup
  obtain ⟨hlt, hset⟩ := (h.mem_iff page).mp List.mem_cons_self
  have hbyte := byte_lt hlt
  unfold pfDeallocatePage
  simp only [show ¬ page > pf.npgs by omega, if_false, hbyte, if_true]
  refine ⟨_, rfl, rfl, hnodup, fun n => ?_, ?_⟩
  · simp only [isset_clrbit hbyte]
    by_cases hn : n = page
    · subst hn
      simp [hnotin]
    · have hold := h.mem_iff n
      simp only [List.mem_cons, hn, false_or] at hold
      simp [hn, hold]
  · have hupdate := countP_update (fun b => !b) (isset pf.bmap) false
      List.nodup_range (List.mem_range.mpr hlt)
    rw [← isset_clrbit hbyte, hset] at hupdate
    have hcount := h.pfree
    simp only [Bool.not_true, Bool.not_false, Bool.toNat_true, Bool.toNat_false] at hupdate
    simp only
    omega

theorem PagerFile.Owns.deallocatePages {pages : List Nat} (h : pf.Owns (pages ++ owned)) :
    ∃ pf', PagerSpace.deallocatePages pf pages = .ok pf' ∧ pf'.npgs = pf.npgs ∧ pf'.Owns owned := by
  induction pages generalizing pf with
  | nil => exact ⟨pf, rfl, rfl, h⟩
  | cons page pages ih =>
      obtain ⟨pf₁, hdealloc, hnpgs, howns⟩ := PagerFile.Owns.deallocate (pages ++ owned) h
      obtain ⟨pf₂, hrest, hnpgs', howns'⟩ := ih howns
      refine ⟨pf₂, ?_, hnpgs'.trans hnpgs, howns'⟩
      rw [PagerSpace.deallocatePages, hdealloc]
      exact hrest

theorem isset_clearBits {bytes : List (BitVec 8)} {n : Nat} (hlength : n ≤ 8 * bytes.length)
    {m : Nat} (hm : m < n) : isset (clearBits bytes n) m = false := by
  induction n with
  | zero => exact absurd hm (Nat.not_lt_zero m)
  | succ n ih =>
      have hbyte : n / 8 < (clearBits bytes n).length := by
        rw [length_clearBits]
        omega
      rw [clearBits, isset_clrbit hbyte, Function.update_apply]
      by_cases heq : m = n
      · simp [heq]
      · rw [if_neg heq]
        exact ih (by omega) (by omega)

/-- A new paging file owns nothing. -/
theorem pfFileInit_owns {pageSize size diskSize : Nat} {busy setattrError statfsError : Bool}
    {memory : Nat → BitVec 8}
    (hinit : pfFileInit pageSize busy setattrError statfsError size diskSize memory = some pf) :
    pf.Owns [] := by
  unfold pfFileInit at hinit
  split at hinit
  · cases hinit
  · split at hinit
    · cases hinit
    · cases hinit
      have hclear : ∀ m < (if size = 0 then diskSize else size) / pageSize,
          isset (clearBits ((List.range (howmany ((if size = 0 then diskSize else size) /
            pageSize))).map memory) ((if size = 0 then diskSize else size) / pageSize)) m = false :=
        fun m hm => isset_clearBits (by rw [List.length_map, List.length_range, howmany]; omega) hm
      refine ⟨List.nodup_nil, fun n => ?_, ?_⟩
      · constructor
        · intro hin
          cases hin
        · rintro ⟨hlt, hset⟩
          rw [hclear n hlt] at hset
          cases hset
      · have hall := List.countP_eq_length.mpr
          (fun n (hn : n ∈ List.range ((if size = 0 then diskSize else size) / pageSize)) =>
            show (!isset _ n) = true by rw [hclear n (List.mem_range.mp hn)]; rfl)
        rw [List.length_range] at hall
        simp only [hall]

end Owns

/-! ## One call of `pf_bmap` -/

section Bmap

variable {pageSize fOffset : Nat} {pf : PagerFile} {is : Istruct} {owned : List Nat}

/-- What a call of `pf_bmap` inside the object does: it finds the page of the file, or
fails and maps nothing, or maps a page that was free. -/
inductive BmapResult (pageSize fOffset : Nat) (pf : PagerFile) (is : Istruct) (owned : List Nat) :
    Option Nat → Istruct → PagerFile → Prop where
  | found {page : Nat} (hslot : is.pmap.slots[fOffset / pageSize]? = some (some page)) :
      BmapResult pageSize fOffset pf is owned
        (some (fOffset % pageSize + page * pageSize)) is pf
  | failed {is' : Istruct} (hsame : is'.pmap.slots = is.pmap.slots) (hfile : is'.pfInfo = is.pfInfo)
      (hsize : is'.size = is.size) :
      BmapResult pageSize fOffset pf is owned none is' pf
  | mapped {page : Nat} {is' : Istruct} {pf' : PagerFile}
      (hslot : is.pmap.slots[fOffset / pageSize]? = some none)
      (hslots : is'.pmap.slots = is.pmap.slots.set (fOffset / pageSize) (some page))
      (hfile : is'.pfInfo = is.pfInfo) (hsize : is'.size = is.size)
      (herrors : is'.errors = is.errors) (hfresh : page ∉ owned)
      (hnpgs : pf'.npgs = pf.npgs) (howns : pf'.Owns (page :: owned)) :
      BmapResult pageSize fOffset pf is owned
        (some (fOffset % pageSize + page * pageSize)) is' pf'

theorem pfBmapNew_spec (is : Istruct) (hpf : pf.Owns owned)
    (hread : is.pmap.read (fOffset / pageSize) = .entry none) :
    ∃ result is' pf', pfBmapNew pageSize pf is fOffset = .ok (result, is', pf') ∧
      BmapResult pageSize fOffset pf is owned result is' pf' ∧
      (pf.pfree ≠ 0 → result ≠ none) := by
  have hslot := slots_of_read is.fits hread
  unfold pfBmapNew
  rcases hpf.allocate with ⟨hfull, halloc⟩ | ⟨page, pf', hfree, halloc, -, hfresh, hnpgs, howns⟩
  · rw [halloc]
    exact ⟨none, is, pf, rfl, .failed rfl rfl rfl, fun hne => absurd hfull hne⟩
  · rw [halloc]
    exact ⟨_, _, _, rfl,
      .mapped hslot (slots_setEntry is.fits hread) rfl rfl rfl hfresh hnpgs howns, fun _ => by simp⟩

/-- The file has a place for a page of the object: the page is mapped, or the file has a
free page and there is memory for a missing second-level table. -/
def Room (pf : PagerFile) (is : Istruct) (fPage : Nat) (kallocOk : Bool) : Prop :=
  match is.pmap.read fPage with
  | .wild => False
  | .noTable => kallocOk = true ∧ pf.pfree ≠ 0
  | .entry none => pf.pfree ≠ 0
  | .entry (some _) => True

/-- `pf_bmap` inside the object never faults, and a write for which there is room succeeds. -/
theorem pfBmap_spec (pageSize fOffset : Nat) (hpf : pf.Owns owned)
    (hinside : fOffset / pageSize < is.size) (flag : Flag) (kallocOk : Bool) :
    ∃ result is' pf', pfBmap pageSize pf is fOffset flag kallocOk = .ok (result, is', pf') ∧
      BmapResult pageSize fOffset pf is owned result is' pf' ∧
      (flag = .write → Room pf is (fOffset / pageSize) kallocOk → result ≠ none) := by
  unfold pfBmap Room
  rw [if_neg (by omega)]
  cases hread : is.pmap.read (fOffset / pageSize) with
  | wild => exact absurd hread (read_ne_wild is.fits hinside)
  | noTable =>
      cases flag with
      | read => exact ⟨none, is, pf, rfl, .failed rfl rfl rfl, fun hflag => by cases hflag⟩
      | write =>
          cases kallocOk with
          | false =>
              exact ⟨none, is, pf, rfl, .failed rfl rfl rfl, fun _ hroom => by cases hroom.1⟩
          | true =>
              have hslots : (is.addTable (fOffset / pageSize)).pmap.slots = is.pmap.slots :=
                slots_addTable hread
              obtain ⟨result, is', pf', hnew, hresult, hsome⟩ := pfBmapNew_spec
                (is.addTable (fOffset / pageSize)) hpf (read_addTable hread)
              refine ⟨result, is', pf', hnew, ?_, fun _ hroom => hsome hroom.2⟩
              cases hresult with
              | found hslot =>
                  rw [slots_of_read (is.addTable (fOffset / pageSize)).fits
                    (read_addTable hread)] at hslot
                  cases hslot
              | failed hsame hfile hsize =>
                  exact .failed (hsame.trans hslots) hfile hsize
              | mapped hslot hset hfile hsize herrors hfresh hnpgs howns =>
                  exact .mapped (hslots ▸ hslot) (hset.trans (by rw [hslots])) hfile hsize herrors
                    hfresh hnpgs howns
  | entry entry =>
      cases entry with
      | none =>
          cases flag with
          | read => exact ⟨none, is, pf, rfl, .failed rfl rfl rfl, fun hflag => by cases hflag⟩
          | write =>
              obtain ⟨result, is', pf', hnew, hresult, hsome⟩ := pfBmapNew_spec is hpf hread
              exact ⟨result, is', pf', hnew, hresult, fun _ hfree => hsome hfree⟩
      | some page =>
          exact ⟨_, is, pf, rfl, .found (slots_of_read is.fits hread), fun _ _ => by simp⟩

/-- `pf_bmap` finds a page that is mapped. -/
theorem pfBmap_found (pageSize fOffset : Nat) (pf : PagerFile) {page : Nat} (hinside : fOffset / pageSize < is.size)
    (hslot : is.pmap.slots[fOffset / pageSize]? = some (some page)) (flag : Flag)
    (kallocOk : Bool) :
    pfBmap pageSize pf is fOffset flag kallocOk =
      .ok (some (fOffset % pageSize + page * pageSize), is, pf) := by
  unfold pfBmap
  rw [if_neg (by omega)]
  cases hread : is.pmap.read (fOffset / pageSize) with
  | wild => exact absurd hread (read_ne_wild is.fits hinside)
  | noTable =>
      rw [slots_of_noTable is.fits hread] at hslot
      cases hslot
  | entry entry =>
      rw [slots_of_read is.fits hread] at hslot
      cases hslot
      rfl

end Bmap

/-! ## All paging files and objects -/

/-- The paging files and the objects ever created; an object is `none` once it is gone. -/
structure State where
  files : List PagerFile
  objects : List (Option Istruct)
  faulted : Bool

inductive Label where
  | pfFileInit (busy setattrError statfsError : Bool) (size diskSize : Nat)
      (memory : Nat → BitVec 8)
  | pfPagerCreate (file size : Nat) (zallocOk kallocOk : Bool)
  | pfBmap (id fOffset : Nat) (flag : Flag) (kallocOk : Bool)
  | pfDealloc (id : Nat)

/-- Store what a call returned for an object and its file. -/
def State.put (s : State) (id : Nat) (object : Option Istruct) (file : Nat) (pf : PagerFile) :
    State :=
  { s with files := s.files.set file pf, objects := s.objects.set id object }

/-- A live object and its paging file. -/
def State.get (s : State) (id : Nat) : Option (Istruct × PagerFile) :=
  match s.objects[id]? with
  | some (some is) => (s.files[is.pfInfo]?).map (fun pf => (is, pf))
  | _ => none

def step (pageSize : Nat) (s : State) : Label → Option State
  | .pfFileInit busy setattrError statfsError size diskSize memory =>
      match PagerSpace.pfFileInit pageSize busy setattrError statfsError size diskSize memory with
      | none => some s
      | some pf => some { s with files := s.files ++ [pf] }
  | .pfPagerCreate file size zallocOk kallocOk =>
      match s.files[file]?, PagerSpace.pfPagerCreate pageSize file size zallocOk kallocOk with
      | none, _ => none
      | some _, none => some s
      | some pf, some is =>
          some { s with
            files := s.files.set file { pf with count := pf.count + 1 }
            objects := s.objects ++ [some is] }
  | .pfBmap id fOffset flag kallocOk =>
      match s.get id with
      | none => none
      | some (is, pf) =>
          match PagerSpace.pfBmap pageSize pf is fOffset flag kallocOk with
          | .error _ => some { s with faulted := true }
          | .ok (_, is', pf') => some (s.put id (some is') is.pfInfo pf')
  | .pfDealloc id =>
      match s.get id with
      | none => none
      | some (is, pf) =>
          match PagerSpace.pfDealloc pf is with
          | .error _ => some { s with faulted := true }
          | .ok pf' => some (s.put id none is.pfInfo pf')

def initial : State := ⟨[], [], false⟩

def machine (pageSize : Nat) : Machine State Label where
  init := fun s => s = initial
  step := step pageSize

/-- Calls of `pf_bmap` are at offsets inside the object. -/
def Inside (pageSize : Nat) (s : State) : Label → Prop
  | .pfBmap id fOffset _ _ => ∀ is pf, s.get id = some (is, pf) → fOffset / pageSize < is.size
  | _ => True

/-- The file pages in the map of one object, if it is backed by the file. -/
def pagesIn (file : Nat) : Option Istruct → List Nat
  | none => []
  | some is => if is.pfInfo = file then is.pmap.mapped else []

/-- The entries other than `-1` of all live objects of a file. -/
def State.owned (s : State) (file : Nat) : List Nat :=
  s.objects.flatMap (pagesIn file)

structure Inv (s : State) : Prop where
  faulted : s.faulted = false
  owns : ∀ (file : Nat) (pf : PagerFile), s.files[file]? = some pf → pf.Owns (s.owned file)
  backed : ∀ is : Istruct, some is ∈ s.objects → is.pfInfo < s.files.length

theorem Inv.initial : Inv PagerSpace.initial :=
  ⟨rfl, fun _ _ hfile => by simp [PagerSpace.initial] at hfile,
    fun _ his => by simp [PagerSpace.initial] at his⟩

section Preservation

variable {s s' : State} {id file pageSize : Nat} {is : Istruct} {pf pf' : PagerFile}
  {object : Option Istruct}

theorem get_eq_some (hget : s.get id = some (is, pf)) :
    s.objects[id]? = some (some is) ∧ s.files[is.pfInfo]? = some pf := by
  unfold State.get at hget
  split at hget
  · next is' hobject =>
      obtain ⟨pf', hfile, heq⟩ := Option.map_eq_some_iff.mp hget
      cases heq
      exact ⟨hobject, hfile⟩
  · cases hget

/-- Replacing an object trades its pages for those of its successor. -/
theorem owned_put_perm (hobject : s.objects[id]? = some (some is)) (object : Option Istruct)
    (file : Nat) (pf : PagerFile) (file' : Nat) :
    ((s.put id object file pf).owned file' ++ pagesIn file' (some is)).Perm
      (s.owned file' ++ pagesIn file' object) :=
  flatMap_set_perm (pagesIn file') hobject object

/-- Replacing an object of one file keeps the accounts of the other files. -/
theorem Inv.put (h : Inv s) (hget : s.get id = some (is, pf))
    (hobject : ∀ is', object = some is' → is'.pfInfo = is.pfInfo)
    (howns : pf'.Owns ((s.put id object is.pfInfo pf').owned is.pfInfo)) :
    Inv (s.put id object is.pfInfo pf') := by
  obtain ⟨hold, hfile⟩ := get_eq_some hget
  refine ⟨h.faulted, fun file pf₁ hpf₁ => ?_, fun is' his' => ?_⟩
  · by_cases heq : file = is.pfInfo
    · subst heq
      have hlt := (List.getElem?_eq_some_iff.mp hfile).1
      simp only [State.put, List.getElem?_set_self hlt, Option.some.injEq] at hpf₁
      subst hpf₁
      exact howns
    · simp only [State.put, List.getElem?_set_ne (Ne.symm heq)] at hpf₁
      have hperm := owned_put_perm hold object is.pfInfo pf' file
      have hnone : pagesIn file object = [] := by
        cases object with
        | none => rfl
        | some is' => simp [pagesIn, hobject is' rfl, Ne.symm heq]
      rw [hnone, show pagesIn file (some is) = [] by simp [pagesIn, Ne.symm heq],
        List.append_nil, List.append_nil] at hperm
      exact (h.owns file pf₁ hpf₁).perm hperm
  · simp only [State.put, List.length_set]
    rcases List.mem_or_eq_of_mem_set his' with hmem | hnew
    · exact h.backed is' hmem
    · rw [hobject is' hnew.symm]
      exact (List.getElem?_eq_some_iff.mp hfile).1

theorem pagesIn_self (is : Istruct) : pagesIn is.pfInfo (some is) = is.pmap.mapped := by
  simp [pagesIn]

theorem Inv.pfBmap (h : Inv s) {fOffset : Nat} {result : Option Nat} {is' : Istruct}
    (hget : s.get id = some (is, pf))
    (hresult : BmapResult pageSize fOffset pf is (s.owned is.pfInfo) result is' pf') :
    Inv (s.put id (some is') is.pfInfo pf') := by
  obtain ⟨hold, hfile⟩ := get_eq_some hget
  have hpf := h.owns is.pfInfo pf hfile
  have hperm := owned_put_perm hold (some is') is.pfInfo pf' is.pfInfo
  rw [pagesIn_self] at hperm
  cases hresult with
  | found hslot =>
      rw [pagesIn_self] at hperm
      exact h.put hget (fun _ heq => by cases heq; rfl)
        (hpf.perm ((List.perm_append_right_iff _).mp hperm))
  | failed hsame hinfo hsize =>
      have hpages : pagesIn is.pfInfo (some is') = is.pmap.mapped := by
        rw [pagesIn, if_pos hinfo, mapped_eq_items_slots, hsame, mapped_eq_items_slots]
      rw [hpages] at hperm
      exact h.put hget (fun _ heq => by cases heq; exact hinfo)
        (hpf.perm ((List.perm_append_right_iff _).mp hperm))
  | @mapped page _ _ hslot hslots hinfo hsize herrors hfresh hnpgs howns =>
      have hpages : (pagesIn is.pfInfo (some is')).Perm (page :: is.pmap.mapped) := by
        rw [pagesIn, if_pos hinfo, mapped_eq_items_slots, hslots, mapped_eq_items_slots]
        exact items_set_perm hslot
      have hmoved : (s.owned is.pfInfo ++ (page :: is.pmap.mapped)).Perm
          ((page :: s.owned is.pfInfo) ++ is.pmap.mapped) := List.perm_middle
      exact h.put hget (fun _ heq => by cases heq; exact hinfo)
        (howns.perm ((List.perm_append_right_iff _).mp
          ((hperm.trans (hpages.append_left _)).trans hmoved)))

/-- A record that differs in other fields alone has the same accounts. -/
theorem Inv.replace (h : Inv s) (is' : Istruct) (hget : s.get id = some (is, pf))
    (hpmap : is'.pmap = is.pmap) (hinfo : is'.pfInfo = is.pfInfo) (hsize : is'.size = is.size) :
    Inv (s.put id (some is') is.pfInfo pf) := by
  have hfailed : BmapResult 0 0 pf is (s.owned is.pfInfo) none is' pf :=
    .failed (by rw [hpmap]) hinfo hsize
  exact h.pfBmap hget hfailed

theorem Inv.pfDealloc (h : Inv s) (hget : s.get id = some (is, pf)) :
    ∃ pf', pfDealloc pf is = .ok pf' ∧ Inv (s.put id none is.pfInfo pf') := by
  obtain ⟨hold, hfile⟩ := get_eq_some hget
  have hpf := h.owns is.pfInfo pf hfile
  have hperm := owned_put_perm hold none is.pfInfo pf is.pfInfo
  rw [pagesIn_self, pagesIn, List.append_nil] at hperm
  obtain ⟨pf₁, hdealloc, hnpgs, howns⟩ := PagerFile.Owns.deallocatePages
    (hpf.perm (List.perm_append_comm.trans hperm))
  refine ⟨{ pf₁ with count := pf₁.count - 1 }, ?_, ?_⟩
  · rw [PagerSpace.pfDealloc, hdealloc]
  · exact h.put hget (fun _ heq => by cases heq) ⟨howns.nodup, howns.mem_iff, howns.pfree⟩

theorem Inv.fileInit (h : Inv s) (hpf : pf.Owns []) : Inv { s with files := s.files ++ [pf] } := by
  refine ⟨h.faulted, fun file pf₁ hpf₁ => ?_, fun is his => ?_⟩
  · rcases Nat.lt_or_ge file s.files.length with hlt | hge
    · rw [List.getElem?_append_left hlt] at hpf₁
      exact h.owns file pf₁ hpf₁
    · -- nobody is backed by the new file yet
      have hlast : file = s.files.length := by
        have hlt := (List.getElem?_eq_some_iff.mp hpf₁).1
        simp only [List.length_append, List.length_singleton] at hlt
        omega
      subst hlast
      simp only [List.getElem?_append_right (Nat.le_refl _), Nat.sub_self,
        List.getElem?_cons_zero, Option.some.injEq] at hpf₁
      subst hpf₁
      have hnone : ({ s with files := s.files ++ [pf] } : State).owned s.files.length = [] := by
        refine List.flatMap_eq_nil_iff.mpr (fun object hobject => ?_)
        cases object with
        | none => rfl
        | some is =>
            have hlt := h.backed is hobject
            simp [pagesIn, Nat.ne_of_lt hlt]
      rw [hnone]
      exact hpf
  · have hlt := h.backed is his
    simp only [List.length_append, List.length_singleton]
    omega

theorem Inv.pagerCreate (h : Inv s) {size : Nat} {zallocOk kallocOk : Bool}
    (hfile : s.files[file]? = some pf)
    (hcreate : pfPagerCreate pageSize file size zallocOk kallocOk = some is) :
    Inv { s with
      files := s.files.set file { pf with count := pf.count + 1 }
      objects := s.objects ++ [some is] } := by
  have hlt := (List.getElem?_eq_some_iff.mp hfile).1
  unfold pfPagerCreate at hcreate
  split at hcreate
  · cases hcreate
    refine ⟨h.faulted, fun file' pf₁ hpf₁ => ?_, fun is' his' => ?_⟩
    · have howned : ∀ files : List PagerFile, ({ s with
          files := files
          objects := s.objects ++ [some ⟨size / pageSize, file, 0, newPmap (size / pageSize),
            newPmap_fits _⟩] } : State).owned file' = s.owned file' := by
        intro files
        simp [State.owned, pagesIn, mapped_newPmap]
      rw [howned]
      by_cases heq : file' = file
      · subst heq
        simp only [List.getElem?_set_self hlt, Option.some.injEq] at hpf₁
        subst hpf₁
        have hpf := h.owns file' pf hfile
        exact ⟨hpf.nodup, hpf.mem_iff, hpf.pfree⟩
      · rw [List.getElem?_set_ne (Ne.symm heq)] at hpf₁
        exact h.owns file' pf₁ hpf₁
    · simp only [List.length_set]
      rcases List.mem_append.mp his' with hmem | hnew
      · exact h.backed is' hmem
      · cases List.mem_singleton.mp hnew
        exact hlt
  · cases hcreate

/-- A page of a file is mapped by one page of one object. -/
theorem Inv.slot_inj (h : Inv s) {id' fPage fPage' page : Nat} {is' : Istruct}
    (hobject : s.objects[id]? = some (some is)) (hobject' : s.objects[id']? = some (some is'))
    (hinfo : is'.pfInfo = is.pfInfo) (hslot : is.pmap.slots[fPage]? = some (some page))
    (hslot' : is'.pmap.slots[fPage']? = some (some page)) : id = id' ∧ fPage = fPage' := by
  have hlt := h.backed is (List.mem_of_getElem? hobject)
  have hnodup := (h.owns is.pfInfo _ (List.getElem?_eq_getElem hlt)).nodup
  obtain ⟨heach, hpairs⟩ := List.nodup_flatMap.mp hnodup
  have hpage : page ∈ pagesIn is.pfInfo (some is) := by
    rw [pagesIn_self, mapped_eq_items_slots]
    exact mem_items.mpr (List.mem_of_getElem? hslot)
  have hpage' : page ∈ pagesIn is.pfInfo (some is') := by
    rw [pagesIn, if_pos hinfo, mapped_eq_items_slots]
    exact mem_items.mpr (List.mem_of_getElem? hslot')
  obtain ⟨hidlt, hid⟩ := List.getElem?_eq_some_iff.mp hobject
  obtain ⟨hidlt', hid'⟩ := List.getElem?_eq_some_iff.mp hobject'
  have hsame : id = id' := by
    by_contra hne
    rcases Nat.lt_or_gt_of_ne hne with hless | hgreater
    · have hdisjoint := List.pairwise_iff_getElem.mp hpairs id id' hidlt hidlt' hless
      rw [hid, hid'] at hdisjoint
      exact hdisjoint hpage hpage'
    · have hdisjoint := List.pairwise_iff_getElem.mp hpairs id' id hidlt' hidlt hgreater
      rw [hid, hid'] at hdisjoint
      exact hdisjoint hpage' hpage
  subst hsame
  obtain rfl : is = is' := by
    rw [hobject] at hobject'
    exact Option.some.inj (Option.some.inj hobject')
  have hown := heach (some is) (List.mem_of_getElem? hobject)
  rw [pagesIn_self, mapped_eq_items_slots] at hown
  exact ⟨rfl, slot_unique hown hslot hslot'⟩

/-- A write for which there is room is mapped to a page of the file. -/
theorem Inv.bmap_room (h : Inv s) (hpos : 0 < pageSize) {fPage : Nat} {kallocOk : Bool}
    (hget : s.get id = some (is, pf)) (hinside : fPage < is.size)
    (hroom : Room pf is fPage kallocOk) :
    ∃ page is' pf',
      PagerSpace.pfBmap pageSize pf is (fPage * pageSize) .write kallocOk =
        .ok (some (page * pageSize), is', pf') ∧
      is'.pmap.slots[fPage]? = some (some page) ∧
      (∀ g, g ≠ fPage → is'.pmap.slots[g]? = is.pmap.slots[g]?) ∧
      is'.pfInfo = is.pfInfo ∧ is'.size = is.size ∧ is'.errors = is.errors ∧
      pf'.npgs = pf.npgs ∧ Inv (s.put id (some is') is.pfInfo pf') := by
  have hpf := h.owns is.pfInfo pf (get_eq_some hget).2
  have hpage : fPage * pageSize / pageSize = fPage := Nat.mul_div_cancel fPage hpos
  have hzero : fPage * pageSize % pageSize = 0 := Nat.mul_mod_left _ _
  obtain ⟨result, is', pf', hbmap, hresult, hsome⟩ := pfBmap_spec pageSize
    (fPage * pageSize) hpf (by rw [hpage]; exact hinside) .write kallocOk
  have hinv := h.pfBmap hget hresult
  rw [hpage] at hsome
  have hsome := hsome rfl hroom
  cases hresult with
  | @found page hslot =>
      rw [hpage] at hslot
      rw [hzero, Nat.zero_add] at hbmap
      exact ⟨page, is, pf, hbmap, hslot, fun _ _ => rfl, rfl, rfl, rfl, rfl, hinv⟩
  | failed => exact absurd rfl hsome
  | @mapped page is' pf' hslot hslots hinfo hsize herrors hfresh hnpgs howns =>
      rw [hpage] at hslot hslots
      rw [hzero, Nat.zero_add] at hbmap
      have hlt := (List.getElem?_eq_some_iff.mp hslot).1
      refine ⟨page, is', pf', hbmap, ?_, fun g hg => ?_, hinfo, hsize, herrors, hnpgs, hinv⟩
      · rw [hslots, List.getElem?_set_self hlt]
      · rw [hslots, List.getElem?_set_ne (Ne.symm hg)]

/-- Apart from `pf_bmap`, a step changes no object: it may add one or take one away. -/
theorem step_objects {label : Label}
    (hlabel : ∀ id fOffset flag kallocOk, label ≠ .pfBmap id fOffset flag kallocOk)
    (hstep : step pageSize s label = some s') :
    s.objects.length ≤ s'.objects.length ∧
      ∀ id is, s'.objects[id]? = some (some is) →
        s.objects[id]? = some (some is) ∨ s.objects.length ≤ id := by
  cases label with
  | pfFileInit busy setattrError statfsError size diskSize memory =>
      simp only [PagerSpace.step] at hstep
      split at hstep <;> cases hstep <;> exact ⟨Nat.le_refl _, fun _ _ hobject => Or.inl hobject⟩
  | pfPagerCreate file size zallocOk kallocOk =>
      simp only [PagerSpace.step] at hstep
      split at hstep
      · cases hstep
      · cases hstep
        exact ⟨Nat.le_refl _, fun _ _ hobject => Or.inl hobject⟩
      · cases hstep
        refine ⟨by simp, fun id is hobject => ?_⟩
        rcases Nat.lt_or_ge id s.objects.length with hlt | hge
        · rw [List.getElem?_append_left hlt] at hobject
          exact Or.inl hobject
        · exact Or.inr hge
  | pfBmap id fOffset flag kallocOk => exact absurd rfl (hlabel id fOffset flag kallocOk)
  | pfDealloc id =>
      simp only [PagerSpace.step] at hstep
      split at hstep
      · cases hstep
      · split at hstep
        · cases hstep
          exact ⟨Nat.le_refl _, fun _ _ hobject => Or.inl hobject⟩
        · cases hstep
          refine ⟨by simp [State.put], fun id' is hobject => Or.inl ?_⟩
          simp only [State.put] at hobject
          by_cases hid : id' = id
          · subst hid
            have hlt : id' < s.objects.length := by
              simpa using (List.getElem?_eq_some_iff.mp hobject).1
            rw [List.getElem?_set_self hlt] at hobject
            cases hobject
          · rwa [List.getElem?_set_ne (Ne.symm hid)] at hobject

/-- A new object has no pages. -/
theorem step_new_object {label : Label}
    (hlabel : ∀ id fOffset flag kallocOk, label ≠ .pfBmap id fOffset flag kallocOk)
    (hstep : step pageSize s label = some s') (hobject : s'.objects[id]? = some (some is))
    (hnew : s.objects.length ≤ id) : is.pmap.mapped = [] := by
  have hgone : ∀ objects : List (Option Istruct), objects.length = s.objects.length →
      objects[id]? ≠ some (some is) := by
    intro objects hlength hsome
    have hlt := (List.getElem?_eq_some_iff.mp hsome).1
    omega
  cases label with
  | pfBmap id fOffset flag kallocOk => exact absurd rfl (hlabel id fOffset flag kallocOk)
  | pfFileInit busy setattrError statfsError size diskSize memory =>
      simp only [PagerSpace.step] at hstep
      split at hstep <;> cases hstep <;> exact absurd hobject (hgone _ rfl)
  | pfPagerCreate file size zallocOk kallocOk =>
      simp only [PagerSpace.step] at hstep
      split at hstep
      · cases hstep
      · cases hstep
        exact absurd hobject (hgone _ rfl)
      · next hfile hcreate =>
          cases hstep
          simp only [List.getElem?_append_right hnew, List.getElem?_singleton] at hobject
          split at hobject
          · unfold pfPagerCreate at hcreate
            split at hcreate
            · cases hcreate
              cases hobject
              exact mapped_newPmap _
            · cases hcreate
          · cases hobject
  | pfDealloc id' =>
      simp only [PagerSpace.step] at hstep
      split at hstep
      · cases hstep
      · split at hstep <;> cases hstep
        · exact absurd hobject (hgone _ rfl)
        · exact absurd hobject (hgone _ (by simp [State.put]))

theorem deallocatePages_npgs {pages : List Nat} (hdealloc : deallocatePages pf pages = .ok pf') :
    pf'.npgs = pf.npgs := by
  induction pages generalizing pf with
  | nil =>
      cases hdealloc
      rfl
  | cons page rest ih =>
      unfold deallocatePages at hdealloc
      split at hdealloc
      · cases hdealloc
      · next pf₁ hpage =>
          rw [ih hdealloc]
          unfold pfDeallocatePage at hpage
          split at hpage
          · cases hpage
          · split at hpage
            · cases hpage
              rfl
            · cases hpage

/-- Every step inside the objects keeps the accounts. -/
theorem Inv.step (h : Inv s) {label : Label} (hok : Inside pageSize s label)
    (hstep : step pageSize s label = some s') : Inv s' := by
  cases label with
  | pfFileInit busy setattrError statfsError size diskSize memory =>
      simp only [PagerSpace.step] at hstep
      split at hstep
      · cases hstep
        exact h
      · next hinit =>
          cases hstep
          exact h.fileInit (pfFileInit_owns hinit)
  | pfPagerCreate file size zallocOk kallocOk =>
      simp only [PagerSpace.step] at hstep
      split at hstep
      · cases hstep
      · cases hstep
        exact h
      · next hfile hcreate =>
          cases hstep
          exact h.pagerCreate hfile hcreate
  | pfBmap id fOffset flag kallocOk =>
      simp only [PagerSpace.step] at hstep
      cases hget : s.get id with
      | none => simp [hget] at hstep
      | some pair =>
          obtain ⟨is, pf⟩ := pair
          have hpf := h.owns is.pfInfo pf (get_eq_some hget).2
          obtain ⟨result, is', pf', hbmap, hresult, -⟩ :=
            pfBmap_spec pageSize fOffset hpf (hok is pf hget) flag kallocOk
          simp only [hget, hbmap, Option.some.injEq] at hstep
          subst hstep
          exact h.pfBmap hget hresult
  | pfDealloc id =>
      simp only [PagerSpace.step] at hstep
      cases hget : s.get id with
      | none => simp [hget] at hstep
      | some pair =>
          obtain ⟨is, pf⟩ := pair
          obtain ⟨pf', hdealloc, hinv⟩ := h.pfDealloc hget
          simp only [hget, hdealloc, Option.some.injEq] at hstep
          subst hstep
          exact hinv

end Preservation

/-! ## Space accounting -/

/-- The accounts of one paging file. -/
structure Accounted (s : State) (file : Nat) (pf : PagerFile) : Prop where
  pfree_eq : pf.pfree = (List.range pf.npgs).countP (fun n => !isset pf.bmap n)
  entry_used : ∀ is, some is ∈ s.objects → is.pfInfo = file →
    ∀ page ∈ is.pmap.mapped, page < pf.npgs ∧ isset pf.bmap page = true
  entries_distinct : (s.owned file).Nodup
  used_owned : ∀ page < pf.npgs, isset pf.bmap page = true → (s.owned file).count page = 1
  allocate : ∃ result, pfAllocatePage pf = .ok result ∧
    ∀ page pf', result = some (page, pf') → page < pf.npgs ∧ isset pf.bmap page = false ∧
      page ∉ s.owned file
  free_again : (∀ is, some is ∈ s.objects → is.pfInfo ≠ file) →
    pf.pfree = pf.npgs ∧ ∀ page < pf.npgs, isset pf.bmap page = false

theorem Inv.accounted {s : State} (h : Inv s) {file : Nat} {pf : PagerFile}
    (hfile : s.files[file]? = some pf) : Accounted s file pf := by
  have hpf := h.owns file pf hfile
  refine ⟨hpf.pfree, fun is his hinfo page hpage => ?_, hpf.nodup, fun page hlt hset => ?_, ?_, ?_⟩
  · refine (hpf.mem_iff page).mp (List.mem_flatMap.mpr ⟨some is, his, ?_⟩)
    simpa [pagesIn, hinfo] using hpage
  · exact List.count_eq_one_of_mem hpf.nodup ((hpf.mem_iff page).mpr ⟨hlt, hset⟩)
  · rcases hpf.allocate with ⟨-, halloc⟩ | ⟨page, pf', -, halloc, hlt, hfresh, -, -⟩
    · exact ⟨none, halloc, fun _ _ heq => by cases heq⟩
    · refine ⟨some (page, pf'), halloc, fun page' pf'' heq => ?_⟩
      cases heq
      refine ⟨hlt, ?_, hfresh⟩
      by_contra hset
      exact hfresh ((hpf.mem_iff page).mpr ⟨hlt, by simpa using hset⟩)
  · intro hgone
    have hnone : s.owned file = [] := by
      refine List.flatMap_eq_nil_iff.mpr (fun object hobject => ?_)
      cases object with
      | none => rfl
      | some is => simp [pagesIn, hgone is hobject]
    have hclear : ∀ page < pf.npgs, isset pf.bmap page = false := by
      intro page hlt
      by_contra hset
      have hin := (hpf.mem_iff page).mpr ⟨hlt, by simpa using hset⟩
      rw [hnone] at hin
      cases hin
    refine ⟨?_, hclear⟩
    have hall := List.countP_eq_length.mpr
      (fun n (hn : n ∈ List.range pf.npgs) =>
        show (!isset pf.bmap n) = true by rw [hclear n (List.mem_range.mp hn)]; rfl)
    rw [hpf.pfree, hall, List.length_range]

/-- In every run of the four routines, at offsets inside the objects, nothing faults and
every paging file is accounted for. -/
theorem space_accounted (pageSize : Nat) {s : State}
    (hreach : (machine pageSize).Reachable (Inside pageSize) s) :
    s.faulted = false ∧ ∀ file pf, s.files[file]? = some pf → Accounted s file pf := by
  have hinv : Inv s := hreach.invariant
    (fun s hinit => by
      cases (show s = initial from hinit)
      exact Inv.initial)
    (fun _ _ _ hinv hok hstep => hinv.step hok hstep)
  exact ⟨hinv.faulted, fun file pf hfile => hinv.accounted hfile⟩

/-- A file of nine pages serves a small and a large object until it is full. -/
def fillFile : List Label :=
  [.pfFileInit false false false (9 * 4096) 0 (fun _ => 0xaa#8),
    .pfPagerCreate 0 (8 * 4096) true true, .pfPagerCreate 0 (300 * 4096) true true,
    .pfBmap 0 0 .write true, .pfBmap 1 (299 * 4096 + 5) .write true, .pfBmap 1 0 .write false,
    .pfBmap 0 (3 * 4096) .write true, .pfDealloc 0, .pfBmap 1 (298 * 4096) .write true]

theorem space_accounted_fillFile :
    ∃ s, (machine 4096).run initial fillFile = some s ∧ s.owned 0 = [0, 1] ∧
      s.faulted = false ∧ ∀ file pf, s.files[file]? = some pf → Accounted s file pf := by
  refine ⟨_, rfl, rfl, space_accounted 4096 (Machine.Reachable.of_run fillFile (.init rfl) rfl ?_)⟩
  refine ⟨trivial, trivial, trivial, ?_, ?_, ?_, ?_, trivial, ?_, trivial⟩ <;>
    · intro is pf hget
      cases hget
      decide

end MachFormal.InodePager.PagerSpace
