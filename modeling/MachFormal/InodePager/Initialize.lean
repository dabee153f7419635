import MachFormal.InodePager.DefaultPager
import MachFormal.InodePager.PageMap
import MachFormal.InodePager.Placement

/-!
# Initial data of paging objects

`memory_object_data_initialize` offers data for pages that the pager may have
already; `is_page_initialize` decides page by page.  Objects on a paging file
and objects on an inode of their own are modelled down to the blocks of the
inodes.  Beside the objects the states carry what every page is expected to
hold: the data of the last write, or the first initial data if there was no
write.  No routine looks at it.
-/

namespace MachFormal.InodePager.Initialize

open MachFormal.Library MachFormal.InodePager.PagerSpace MachFormal.InodePager.DefaultPager
open MachFormal.InodePager.InodeIO

/-- The contents of a page. -/
abbrev Page (pageShift : Nat) := Fin (2 ^ pageShift) → UInt8

/-- The bytes of a page in memory. -/
def bytes {pageShift : Nat} (page : Page pageShift) : Nat → UInt8 :=
  fun i => if h : i < 2 ^ pageShift then page ⟨i, h⟩ else 0

/-- Initial data counts only where nothing is expected yet. -/
def noteInitial {α : Type} (held : Option α) (page : α) : Option α :=
  match held with
  | none => some page
  | some old => some old

/-! ## Objects on paging files -/

/-- The paging files with their inodes, and the objects on them. -/
structure Swap (pageShift : Nat) where
  space : PagerSpace.State
  inodes : Nat → Inode
  expected : Nat → Nat → Option (Page pageShift)
  halted : Bool

/-- A page of a message, and whether there is memory for a table of the page map. -/
structure PageData (pageShift : Nat) where
  page : Page pageShift
  kallocOk : Bool

def Swap.expect {pageShift : Nat} (s : Swap pageShift) (id fPage : Nat)
    (held : Option (Page pageShift)) : Swap pageShift :=
  { s with
    expected := Function.update s.expected id (Function.update (s.expected id) fPage held) }

section Routines

variable (fs : FileSystem) {pageShift : Nat}

/-- `is_page_write`; a missing object or a wild access stops the system. -/
def isPageWrite (s : Swap pageShift) (id offset : Nat) (data : PageData pageShift) : Swap pageShift :=
  match s.space.get id with
  | none => { s with halted := true }
  | some (is, pf) =>
      match pfBmap (2 ^ pageShift) pf is offset .write data.kallocOk with
      | .error _ => { s with halted := true }
      | .ok (none, is', pf') => { s with space := s.space.put id (some is') is.pfInfo pf' }
      | .ok (some actual, is', pf') =>
          let written := inodeWrite fs (s.inodes is.pfInfo) (bytes data.page)
            (BitVec.ofNat 32 (2 ^ pageShift)) (BitVec.ofNat 32 actual)
          { s with
            space := s.space.put id
              (some (if written.error.isSome then countError is' else is')) is.pfInfo pf'
            inodes := Function.update s.inodes is.pfInfo written.inode }

/-- `is_page_initialize`: the offset is translated, and translated once more by the write. -/
def isPageInitialize (s : Swap pageShift) (id offset : Nat) (data : PageData pageShift) : Swap pageShift :=
  match s.space.get id with
  | none => { s with halted := true }
  | some (is, pf) =>
      match pfBmap (2 ^ pageShift) pf is offset .read true with
      | .error _ => { s with halted := true }
      | .ok (none, _, _) => s
      | .ok (some actual, _, _) =>
          if hasPage fs (2 ^ pageShift) (s.inodes is.pfInfo) (BitVec.ofNat 32 actual) then
            isPageWrite fs s id actual data
          else s

/-- `is_page_read`: the result for the page, `none` for anything but success. -/
def isPageRead (s : Swap pageShift) (id offset : Nat) (buffer : Nat → UInt8) : Option (Nat → UInt8) :=
  match s.space.get id with
  | none => none
  | some (is, pf) =>
      match pfBmap (2 ^ pageShift) pf is offset .read true with
      | .error _ => none
      | .ok (none, _, _) => none
      | .ok (some actual, _, _) =>
          match inodeRead fs (2 ^ pageShift) (s.inodes is.pfInfo) buffer
            (BitVec.ofNat 32 actual) with
          | (none, page) => some page
          | (some _, _) => none

/-- The loop of `memory_object_data_write`. -/
def dataWrite (s : Swap pageShift) (id fPage : Nat) : List (PageData pageShift) → Swap pageShift
  | [] => s
  | data :: rest =>
      dataWrite ((isPageWrite fs s id (fPage * 2 ^ pageShift) data).expect id fPage
        (some data.page)) id (fPage + 1) rest

/-- The loop of `memory_object_data_initialize`. -/
def dataInitialize (s : Swap pageShift) (id fPage : Nat) : List (PageData pageShift) → Swap pageShift
  | [] => s
  | data :: rest =>
      dataInitialize ((isPageInitialize fs s id (fPage * 2 ^ pageShift) data).expect id
        fPage (noteInitial (s.expected id fPage) data.page)) id (fPage + 1) rest

end Routines

/-- The calls; sizes of files and objects are words. -/
inductive SwapLabel (pageShift : Nat) where
  | fileInit (busy setattrError statfsError : Bool) (size diskSize : Word)
      (memory : Nat → BitVec 8)
  | pagerCreate (file : Nat) (size : Word) (zallocOk kallocOk : Bool)
  | dealloc (id : Nat)
  | dataWrite (id fPage : Nat) (pages : List (PageData pageShift))
  | dataInitialize (id fPage : Nat) (pages : List (PageData pageShift))

def swapStep (fs : FileSystem) {pageShift : Nat} (s : Swap pageShift) (label : SwapLabel pageShift) :
    Option (Swap pageShift) :=
  if s.halted then none
  else
    match label with
    | .fileInit busy setattrError statfsError size diskSize memory =>
        (PagerSpace.step (2 ^ pageShift) s.space (.pfFileInit busy setattrError statfsError
          size.toNat diskSize.toNat memory)).map (fun space => { s with space := space })
    | .pagerCreate file size zallocOk kallocOk =>
        (PagerSpace.step (2 ^ pageShift) s.space (.pfPagerCreate file size.toNat zallocOk
          kallocOk)).map (fun space => { s with space := space })
    | .dealloc id =>
        (PagerSpace.step (2 ^ pageShift) s.space (.pfDealloc id)).map
          (fun space => { s with space := space })
    | .dataWrite id fPage pages =>
        if (s.space.get id).isSome then some (dataWrite fs s id fPage pages) else none
    | .dataInitialize id fPage pages =>
        if (s.space.get id).isSome then some (dataInitialize fs s id fPage pages)
        else none

/-- No file and no object exists yet; nothing is known of the disks. -/
def swapMachine (fs : FileSystem) (pageShift : Nat) : 
    Machine (Swap pageShift) (SwapLabel pageShift) where
  init := fun s => s.space = PagerSpace.initial ∧ (∀ file, (s.inodes file).volume.Distinct) ∧
    (s.expected = fun _ _ => none) ∧ s.halted = false
  step := swapStep fs

/-- Every page of a live object reads as expected; a page of which nothing is expected is
not there. -/
def SwapHeld (fs : FileSystem) {pageShift : Nat} (s : Swap pageShift) : Prop :=
  s.halted = false ∧ ∀ id is pf, s.space.get id = some (is, pf) → ∀ fPage < is.size,
    ∀ buffer, match s.expected id fPage with
      | none => isPageRead fs s id (fPage * 2 ^ pageShift) buffer = none
      | some page => ∃ result, isPageRead fs s id (fPage * 2 ^ pageShift) buffer =
          some result ∧ ∀ i < 2 ^ pageShift, result i = bytes page i

/-- A write finds the page inside the object and a place for it in the file. -/
def HasPlace {pageShift : Nat} (s : Swap pageShift) (id fPage : Nat) (data : PageData pageShift) : Prop :=
  ∀ is pf, s.space.get id = some (is, pf) → fPage < is.size ∧ Room pf is fPage data.kallocOk

/-- Initial data for a page does no harm: the page was written before, and its page number in
the file, taken for a page number of the object, is behind the object or names a page that
holds the data already. -/
def Harmless {pageShift : Nat} (s : Swap pageShift) (id fPage : Nat) (data : PageData pageShift) : Prop :=
  ∀ is pf, s.space.get id = some (is, pf) → (s.expected id fPage).isSome ∧
    ∀ page, is.pmap.slots[fPage]? = some (some page) →
      is.size < page ∨ (page < is.size ∧ s.expected id page = some data.page)

def AllHavePlace (fs : FileSystem) {pageShift : Nat} (s : Swap pageShift) (id fPage : Nat) :
    List (PageData pageShift) → Prop
  | [] => True
  | data :: rest => HasPlace s id fPage data ∧
      AllHavePlace fs
        ((isPageWrite fs s id (fPage * 2 ^ pageShift) data).expect id fPage
          (some data.page)) id (fPage + 1) rest

def AllHarmless (fs : FileSystem) {pageShift : Nat} (s : Swap pageShift) (id fPage : Nat) :
    List (PageData pageShift) → Prop
  | [] => True
  | data :: rest => Harmless s id fPage data ∧
      AllHarmless fs
        ((isPageInitialize fs s id (fPage * 2 ^ pageShift) data).expect id fPage
          (noteInitial (s.expected id fPage) data.page)) id (fPage + 1) rest

/-- Writes find place, and initial data does no harm. -/
def SwapCareful (fs : FileSystem) {pageShift : Nat} (s : Swap pageShift) : SwapLabel pageShift → Prop
  | .dataWrite id fPage pages => AllHavePlace fs s id fPage pages
  | .dataInitialize id fPage pages => AllHarmless fs s id fPage pages
  | _ => True

/-! ## What the paging files hold -/

/-- Page `n` of a file holds the bytes of a page. -/
structure InFile (fs : FileSystem) (pageShift : Nat) (ip : Inode) (n : Nat) (page : Nat → UInt8) :
    Prop where
  below : n * 2 ^ pageShift + 2 ^ pageShift ≤ ip.iSize.toNat
  bytes : ∀ i < 2 ^ pageShift, ip.byteAt fs (n * 2 ^ pageShift + i) = some (page i)

structure SwapInv (fs : FileSystem) {pageShift : Nat} (s : Swap pageShift) : Prop where
  running : s.halted = false
  space : PagerSpace.Inv s.space
  small : ∀ (file : Nat) (pf : PagerFile), s.space.files[file]? = some pf →
    pf.npgs * 2 ^ pageShift < 2 ^ 32
  distinct : ∀ file, (s.inodes file).volume.Distinct
  held : ∀ (id : Nat) (is : PagerSpace.Istruct), s.space.objects[id]? = some (some is) →
    ∀ (fPage : Nat) (page : Page pageShift), s.expected id fPage = some page →
      fPage < is.size ∧ ∃ n, is.pmap.slots[fPage]? = some (some n) ∧
        InFile fs pageShift (s.inodes is.pfInfo) n (bytes page)
  absent : ∀ (id : Nat) (is : PagerSpace.Istruct), s.space.objects[id]? = some (some is) →
    ∀ fPage : Nat, s.expected id fPage = none → ∀ n, is.pmap.slots[fPage]? ≠ some (some n)
  unborn : ∀ (id fPage : Nat), s.space.objects.length ≤ id → s.expected id fPage = none

section Files

variable {fs : FileSystem} {pageShift : Nat} {ip ip' : Inode} {n n' : Nat} {page : Nat → UInt8}

theorem pages_apart (pageShift : Nat) (hne : n' ≠ n) : n' * 2 ^ pageShift + 2 ^ pageShift ≤ n * 2 ^ pageShift ∨
    n * 2 ^ pageShift + 2 ^ pageShift ≤ n' * 2 ^ pageShift := by
  rw [← Nat.succ_mul, ← Nat.succ_mul]
  rcases Nat.lt_or_gt_of_ne hne with hlt | hgt
  · exact Or.inl (Nat.mul_le_mul_right _ hlt)
  · exact Or.inr (Nat.mul_le_mul_right _ hgt)

theorem Stored.inFile (stored : Stored fs ip (n * 2 ^ pageShift) (2 ^ pageShift) page ip') :
    InFile fs pageShift ip' n page :=
  ⟨by rw [stored.size]; exact le_max_right _ _, stored.inside⟩

theorem InFile.other (inFile : InFile fs pageShift ip n' page) {data : Nat → UInt8} (hne : n' ≠ n)
    (stored : Stored fs ip (n * 2 ^ pageShift) (2 ^ pageShift) data ip') :
    InFile fs pageShift ip' n' page := by
  have hapart := pages_apart pageShift hne
  refine ⟨by rw [stored.size]; exact le_trans inFile.below (le_max_left _ _), fun i hi => ?_⟩
  exact stored.outside _ _ (by omega) (inFile.bytes i hi)

theorem InFile.hasPage (faithful : Faithful fs) (inFile : InFile fs pageShift ip n page)
    (hsmall : n * 2 ^ pageShift < 2 ^ 32) :
    hasPage fs (2 ^ pageShift) ip (BitVec.ofNat 32 (n * 2 ^ pageShift)) = true := by
  have hpos := Nat.two_pow_pos pageShift
  have hvalue : (BitVec.ofNat 32 (n * 2 ^ pageShift)).toNat = n * 2 ^ pageShift := by
    rw [BitVec.toNat_ofNat, Nat.mod_eq_of_lt hsmall]
  have hinside : ¬ip.iSize ≤ BitVec.ofNat 32 (n * 2 ^ pageShift) := fun hle => by
    have hle' := BitVec.le_def.mp hle
    have hbelow := inFile.below
    omega
  have hfirst := inFile.bytes 0 hpos
  rw [Nat.add_zero, Inode.byteAt] at hfirst
  obtain ⟨bn, hbn, -⟩ := Option.map_eq_some_iff.mp hfirst
  simp [ InodeIO.hasPage, hinside, faithful.found, FileSystem.lblkno, hvalue, hbn]

/-- `inode_read` of a page that is in the file. -/
theorem InFile.inodeRead (faithful : Faithful fs) (inFile : InFile fs pageShift ip n page)
    (hsmall : n * 2 ^ pageShift < 2 ^ 32) (buffer : Nat → UInt8) :
    ∃ result, inodeRead fs (2 ^ pageShift) ip buffer (BitVec.ofNat 32 (n * 2 ^ pageShift)) =
      (none, result) ∧ ∀ i < 2 ^ pageShift, result i = page i := by
  have hpos := Nat.two_pow_pos pageShift
  have hbelow := inFile.below
  have hvalue : (BitVec.ofNat 32 (n * 2 ^ pageShift)).toNat = n * 2 ^ pageShift := by
    rw [BitVec.toNat_ofNat, Nat.mod_eq_of_lt hsmall]
  have hinside : (BitVec.ofNat 32 (n * 2 ^ pageShift)).toNat < ip.iSize.toNat := by omega
  obtain ⟨hok, hread⟩ := inodeRead_copies faithful hpos hinside
    (fun i hi _ => by rw [hvalue, inFile.bytes i hi]; rfl) buffer
  refine ⟨_, Prod.ext hok rfl, fun i hi => ?_⟩
  have hcopied := (hread i hi).1 (by omega)
  rw [hvalue, inFile.bytes i hi, Option.some.injEq] at hcopied
  exact hcopied.symm

end Files

section Steps

variable {fs : FileSystem} {pageShift : Nat} {s s' : Swap pageShift} {id fPage : Nat}
  {is : PagerSpace.Istruct} {pf : PagerFile}

theorem expect_self {held : Option (Page pageShift)} (hheld : s.expected id fPage = held) :
    s.expect id fPage held = s := by
  rw [Swap.expect, ← hheld, Function.update_eq_self, Function.update_eq_self]

theorem put_self {space : PagerSpace.State} (hget : space.get id = some (is, pf)) :
    space.put id (some is) is.pfInfo pf = space := by
  obtain ⟨hobject, hfile⟩ := get_eq_some hget
  obtain ⟨hlt, hobject⟩ := List.getElem?_eq_some_iff.mp hobject
  obtain ⟨hflt, hfile⟩ := List.getElem?_eq_some_iff.mp hfile
  rw [State.put, ← hobject, ← hfile, List.set_getElem_self, List.set_getElem_self]

theorem isPageWrite_expected (data : PageData pageShift) (offset : Nat) :
    (isPageWrite fs s id offset data).expected = s.expected := by
  unfold isPageWrite
  split
  · rfl
  · split <;> rfl

/-- A page that an object has is a page of its file, so its offset is a word. -/
theorem page_small {space : PagerSpace.State} (hspace : PagerSpace.Inv space)
    (small : ∀ (file : Nat) (pf : PagerFile), space.files[file]? = some pf →
      pf.npgs * 2 ^ pageShift < 2 ^ 32)
    (hget : space.get id = some (is, pf)) {n : Nat}
    (hslot : is.pmap.slots[fPage]? = some (some n)) :
    n * 2 ^ pageShift + 2 ^ pageShift < 2 ^ 32 := by
  obtain ⟨hobject, hfile⟩ := get_eq_some hget
  have howned : n ∈ space.owned is.pfInfo := by
    refine List.mem_flatMap.mpr ⟨some is, List.mem_of_getElem? hobject, ?_⟩
    rw [pagesIn_self, mapped_eq_items_slots]
    exact mem_items.mpr (List.mem_of_getElem? hslot)
  have hlt := ((hspace.owns is.pfInfo pf hfile).mem_iff n).mp howned
  have hle : (n + 1) * 2 ^ pageShift ≤ pf.npgs * 2 ^ pageShift := Nat.mul_le_mul_right _ hlt.1
  have hsmall := small is.pfInfo pf hfile
  rw [Nat.succ_mul] at hle
  omega

theorem small_put {space : PagerSpace.State}
    (small : ∀ (file : Nat) (pf : PagerFile), space.files[file]? = some pf →
      pf.npgs * 2 ^ pageShift < 2 ^ 32)
    (hget : space.get id = some (is, pf)) {pf' : PagerFile} (hnpgs : pf'.npgs = pf.npgs)
    (object : Option PagerSpace.Istruct) (file : Nat) (pf₁ : PagerFile)
    (hpf₁ : (space.put id object is.pfInfo pf').files[file]? = some pf₁) :
    pf₁.npgs * 2 ^ pageShift < 2 ^ 32 := by
  have hfile := (get_eq_some hget).2
  simp only [State.put] at hpf₁
  by_cases hsame : is.pfInfo = file
  · subst hsame
    rw [List.getElem?_set_self (List.getElem?_eq_some_iff.mp hfile).1, Option.some.injEq] at hpf₁
    rw [← hpf₁, hnpgs]
    exact small is.pfInfo pf hfile
  · rw [List.getElem?_set_ne hsame] at hpf₁
    exact small file pf₁ hpf₁

/-- Storing a page that one page of one object maps leaves alone what the other pages hold. -/
theorem SwapInv.store (inv : SwapInv fs s) (hget : s.space.get id = some (is, pf))
    {is' : PagerSpace.Istruct} {pf' : PagerFile} {n : Nat} {ip' : Inode} {page : Page pageShift}
    (hspace : PagerSpace.Inv (s.space.put id (some is') is.pfInfo pf'))
    (hslot : is'.pmap.slots[fPage]? = some (some n))
    (hother : ∀ g, g ≠ fPage → is'.pmap.slots[g]? = is.pmap.slots[g]?)
    (hinfo : is'.pfInfo = is.pfInfo) (hsize : is'.size = is.size) (hnpgs : pf'.npgs = pf.npgs)
    (hinside : fPage < is.size)
    (stored : Stored fs (s.inodes is.pfInfo) (n * 2 ^ pageShift) (2 ^ pageShift) (bytes page) ip') :
    SwapInv fs (Swap.expect { s with
      space := s.space.put id (some is') is.pfInfo pf'
      inodes := Function.update s.inodes is.pfInfo ip' } id fPage (some page)) := by
  obtain ⟨hobject, hfile⟩ := get_eq_some hget
  have hself : (s.space.put id (some is') is.pfInfo pf').objects[id]? = some (some is') :=
    List.getElem?_set_self (List.getElem?_eq_some_iff.mp hobject).1
  refine ⟨inv.running, hspace, small_put inv.small hget hnpgs (some is'), fun file => ?_,
    fun id₁ is₁ hobject₁ g page hexp => ?_, fun id₁ is₁ hobject₁ g hexp => ?_,
    fun id₁ g hle => ?_⟩
  · simp only [Swap.expect]
    by_cases hsame : file = is.pfInfo
    · rw [hsame, Function.update_self]
      exact stored.distinct
    · rw [Function.update_of_ne hsame]
      exact inv.distinct file
  · simp only [Swap.expect] at hobject₁ hexp ⊢
    by_cases hid : id₁ = id
    · subst hid
      obtain rfl : is' = is₁ := Option.some.inj (Option.some.inj (hself.symm.trans hobject₁))
      rw [Function.update_self] at hexp
      rw [hinfo, Function.update_self, hsize]
      by_cases hg : g = fPage
      · subst hg
        rw [Function.update_self, Option.some.injEq] at hexp
        exact ⟨hinside, n, hslot, hexp ▸ Stored.inFile stored⟩
      · rw [Function.update_of_ne hg] at hexp
        obtain ⟨hginside, n₁, hslot₁, hin⟩ := inv.held id₁ is hobject g page hexp
        have hslot₁' := (hother g hg).trans hslot₁
        have hne : n₁ ≠ n := by
          rintro rfl
          exact hg (hspace.slot_inj hself hself rfl hslot hslot₁').2.symm
        exact ⟨hginside, n₁, hslot₁', hin.other hne stored⟩
    · simp only [State.put] at hobject₁
      rw [List.getElem?_set_ne (Ne.symm hid)] at hobject₁
      rw [Function.update_of_ne hid] at hexp
      obtain ⟨hginside, n₁, hslot₁, hin⟩ := inv.held id₁ is₁ hobject₁ g page hexp
      refine ⟨hginside, n₁, hslot₁, ?_⟩
      by_cases hsame : is₁.pfInfo = is.pfInfo
      · have hne : n₁ ≠ n := by
          rintro rfl
          have hobject₁' : (s.space.put id (some is') is.pfInfo pf').objects[id₁]? =
              some (some is₁) := (List.getElem?_set_ne (Ne.symm hid)).trans hobject₁
          exact hid (hspace.slot_inj hself hobject₁' (hsame.trans hinfo.symm) hslot hslot₁).1.symm
        rw [hsame, Function.update_self]
        exact InFile.other (hsame ▸ hin) hne stored
      · rw [Function.update_of_ne hsame]
        exact hin
  · simp only [Swap.expect] at hobject₁ hexp
    by_cases hid : id₁ = id
    · subst hid
      obtain rfl : is' = is₁ := Option.some.inj (Option.some.inj (hself.symm.trans hobject₁))
      rw [Function.update_self] at hexp
      by_cases hg : g = fPage
      · rw [hg, Function.update_self] at hexp
        cases hexp
      · rw [Function.update_of_ne hg] at hexp
        intro n₁
        rw [hother g hg]
        exact inv.absent id₁ is hobject g hexp n₁
    · simp only [State.put] at hobject₁
      rw [List.getElem?_set_ne (Ne.symm hid)] at hobject₁
      rw [Function.update_of_ne hid] at hexp
      exact inv.absent id₁ is₁ hobject₁ g hexp
  · simp only [Swap.expect, State.put, List.length_set] at hle ⊢
    have hlt := (List.getElem?_eq_some_iff.mp hobject).1
    rw [Function.update_of_ne (by omega)]
    exact inv.unborn id₁ g hle

/-- A write for which there is place. -/
theorem SwapInv.pageWrite (faithful : Faithful fs) (hshift : pageShift ≤ 30)
    (inv : SwapInv fs s) (hget : s.space.get id = some (is, pf)) {data : PageData pageShift}
    (hinside : fPage < is.size) (hroom : Room pf is fPage data.kallocOk) :
    SwapInv fs
        ((isPageWrite fs s id (fPage * 2 ^ pageShift) data).expect id fPage
          (some data.page)) ∧
      ((isPageWrite fs s id (fPage * 2 ^ pageShift) data).space.get id).isSome := by
  have hpage : 2 ^ pageShift < 2 ^ 32 := Nat.pow_lt_pow_right (by decide) (by omega)
  obtain ⟨n, is', pf', hbmap, hslot, hother, hinfo, hsize, -, hnpgs, hspace⟩ :=
    inv.space.bmap_room (Nat.two_pow_pos pageShift) hget hinside hroom
  have hget' := get_put pf' hget hinfo
  have hnsmall := page_small hspace (small_put inv.small hget hnpgs (some is')) hget' hslot
  have hvalue : (BitVec.ofNat 32 (n * 2 ^ pageShift)).toNat = n * 2 ^ pageShift := by
    rw [BitVec.toNat_ofNat, Nat.mod_eq_of_lt (lt_of_le_of_lt (Nat.le_add_right _ _) hnsmall)]
  obtain ⟨ip', hwritten, stored⟩ := writeLoop_stored faithful (bytes data.page) (s.inodes is.pfInfo) 0 _
    hvalue (inv.distinct is.pfInfo) hnsmall
  simp only [Nat.zero_add] at stored
  have hwrite : isPageWrite fs s id (fPage * 2 ^ pageShift) data =
      { s with
        space := s.space.put id (some is') is.pfInfo pf'
        inodes := Function.update s.inodes is.pfInfo ip' } := by
    unfold isPageWrite
    rw [hget]
    dsimp only
    rw [hbmap]
    dsimp only
    rw [inodeWrite, BitVec.toNat_ofNat, Nat.mod_eq_of_lt hpage, hwritten]
    rfl
  rw [hwrite]
  refine ⟨inv.store hget hspace hslot hother hinfo hsize hnpgs hinside stored, ?_⟩
  dsimp only
  rw [hget']
  rfl

/-- Initial data that does no harm leaves the pages as they are. -/
theorem SwapInv.pageInitialize (faithful : Faithful fs) (hshift : pageShift ≤ 30)
    (inv : SwapInv fs s) (hget : s.space.get id = some (is, pf)) {data : PageData pageShift}
    (hharmless : Harmless s id fPage data) :
    SwapInv fs
        ((isPageInitialize fs s id (fPage * 2 ^ pageShift) data).expect id fPage
          (noteInitial (s.expected id fPage) data.page)) ∧
      ((isPageInitialize fs s id (fPage * 2 ^ pageShift) data).space.get id).isSome := by
  have hpos := Nat.two_pow_pos pageShift
  have hobject := (get_eq_some hget).1
  obtain ⟨hwritten, htarget⟩ := hharmless is pf hget
  obtain ⟨old, hold⟩ := Option.isSome_iff_exists.mp hwritten
  obtain ⟨hinside, n, hslot, hin⟩ := inv.held id is hobject fPage old hold
  have hsmall := page_small inv.space inv.small hget hslot
  have hpage : ∀ f, f * 2 ^ pageShift / 2 ^ pageShift = f := fun f => Nat.mul_div_cancel f hpos
  have hread := pfBmap_found (2 ^ pageShift) (fPage * 2 ^ pageShift) pf
    (by rw [hpage]; exact hinside) (by rw [hpage]; exact hslot) .read true
  rw [Nat.mul_mod_left, Nat.zero_add] at hread
  have hown : isPageInitialize fs s id (fPage * 2 ^ pageShift) data =
      isPageWrite fs s id (n * 2 ^ pageShift) data := by
    unfold isPageInitialize
    rw [hget]
    dsimp only
    rw [hread]
    dsimp only
    rw [hin.hasPage faithful (by omega), if_pos rfl]
  have hnote : noteInitial (s.expected id fPage) data.page = s.expected id fPage := by
    rw [hold]
    rfl
  rw [hown, hnote, expect_self (by rw [isPageWrite_expected])]
  rcases htarget n hslot with hbehind | ⟨htinside, hsame⟩
  · have hdropped : isPageWrite fs s id (n * 2 ^ pageShift) data = s := by
      unfold isPageWrite
      rw [hget]
      dsimp only
      rw [pfBmap, if_pos (by rw [hpage]; exact hbehind)]
      dsimp only
      rw [put_self hget]
    rw [hdropped, hget]
    exact ⟨inv, rfl⟩
  · -- the page holds the data already, and the write stores it again
    obtain ⟨-, m, hslot', -⟩ := inv.held id is hobject n data.page hsame
    have hroom : Room pf is n data.kallocOk := by
      unfold Room
      cases htable : is.pmap.read n with
      | wild => exact absurd htable (read_ne_wild is.fits htinside)
      | noTable =>
          rw [slots_of_noTable is.fits htable] at hslot'
          cases hslot'
      | entry entry =>
          rw [slots_of_read is.fits htable] at hslot'
          cases hslot'
          trivial
    have hwrite := inv.pageWrite faithful hshift hget htinside hroom
    rwa [expect_self (by rw [isPageWrite_expected, hsame])] at hwrite

theorem SwapInv.dataWrite (faithful : Faithful fs) (hshift : pageShift ≤ 30)
    (inv : SwapInv fs s) {pages : List (PageData pageShift)} (hget : (s.space.get id).isSome)
    (hplace : AllHavePlace fs s id fPage pages) :
    SwapInv fs (dataWrite fs s id fPage pages) := by
  induction pages generalizing s fPage with
  | nil => exact inv
  | cons data rest ih =>
      obtain ⟨⟨is, pf⟩, hpair⟩ := Option.isSome_iff_exists.mp hget
      obtain ⟨hinside, hroom⟩ := hplace.1 is pf hpair
      obtain ⟨inv', hget'⟩ := inv.pageWrite faithful hshift hpair hinside hroom
      exact ih inv' hget' hplace.2

theorem SwapInv.dataInitialize (faithful : Faithful fs) (hshift : pageShift ≤ 30)
    (inv : SwapInv fs s) {pages : List (PageData pageShift)} (hget : (s.space.get id).isSome)
    (hharmless : AllHarmless fs s id fPage pages) :
    SwapInv fs (dataInitialize fs s id fPage pages) := by
  induction pages generalizing s fPage with
  | nil => exact inv
  | cons data rest ih =>
      obtain ⟨⟨is, pf⟩, hpair⟩ := Option.isSome_iff_exists.mp hget
      obtain ⟨inv', hget'⟩ := inv.pageInitialize faithful hshift hpair hharmless.1
      exact ih inv' hget' hharmless.2

/-- The offsets of the pages of a file stay words. -/
theorem small_step {space space' : PagerSpace.State} {label : PagerSpace.Label}
    (small : ∀ (file : Nat) (pf : PagerFile), space.files[file]? = some pf →
      pf.npgs * 2 ^ pageShift < 2 ^ 32)
    (hlabel : ∀ id fOffset flag kallocOk, label ≠ .pfBmap id fOffset flag kallocOk)
    (hsizes : ∀ busy setattrError statfsError size diskSize memory,
      label = .pfFileInit busy setattrError statfsError size diskSize memory →
        size < 2 ^ 32 ∧ diskSize < 2 ^ 32)
    (hstep : PagerSpace.step (2 ^ pageShift) space label = some space') (file : Nat)
    (pf : PagerFile) (hfile : space'.files[file]? = some pf) :
    pf.npgs * 2 ^ pageShift < 2 ^ 32 := by
  cases label with
  | pfBmap id fOffset flag kallocOk => exact absurd rfl (hlabel id fOffset flag kallocOk)
  | pfFileInit busy setattrError statfsError size diskSize memory =>
      obtain ⟨hsize, hdisk⟩ := hsizes _ _ _ _ _ _ rfl
      simp only [PagerSpace.step] at hstep
      split at hstep
      · cases hstep
        exact small file pf hfile
      · next pf₁ hinit =>
          cases hstep
          rw [List.getElem?_append] at hfile
          split at hfile
          · exact small file pf hfile
          · obtain rfl : pf₁ = pf := by
              have hin := List.mem_of_getElem? hfile
              exact (List.mem_singleton.mp hin).symm
            unfold pfFileInit at hinit
            split at hinit
            · cases hinit
            · split at hinit
              · cases hinit
              · cases hinit
                refine lt_of_le_of_lt (Nat.div_mul_le_self _ _) ?_
                split <;> assumption
  | pfPagerCreate file' size zallocOk kallocOk =>
      simp only [PagerSpace.step] at hstep
      split at hstep
      · cases hstep
      · cases hstep
        exact small file pf hfile
      · next pf₁ is hfile' _ =>
          cases hstep
          dsimp only at hfile
          by_cases hsame : file' = file
          · subst hsame
            rw [List.getElem?_set_self (List.getElem?_eq_some_iff.mp hfile').1,
              Option.some.injEq] at hfile
            rw [← hfile]
            exact small file' pf₁ hfile'
          · rw [List.getElem?_set_ne hsame] at hfile
            exact small file pf hfile
  | pfDealloc id =>
      simp only [PagerSpace.step] at hstep
      split at hstep
      · cases hstep
      · next is pf₁ hget =>
          split at hstep
          · cases hstep
            exact small file pf hfile
          · next pf₂ hdealloc =>
              cases hstep
              refine small_put small hget ?_ none file pf hfile
              unfold pfDealloc at hdealloc
              split at hdealloc
              · cases hdealloc
              · next pf₃ hpages =>
                  cases hdealloc
                  have hsame := deallocatePages_npgs hpages
                  exact hsame

/-- New files and objects, and objects that go away. -/
theorem SwapInv.spaceStep (inv : SwapInv fs s) {label : PagerSpace.Label}
    {space : PagerSpace.State}
    (hlabel : ∀ id fOffset flag kallocOk, label ≠ .pfBmap id fOffset flag kallocOk)
    (hsizes : ∀ busy setattrError statfsError size diskSize memory,
      label = .pfFileInit busy setattrError statfsError size diskSize memory →
        size < 2 ^ 32 ∧ diskSize < 2 ^ 32)
    (hstep : PagerSpace.step (2 ^ pageShift) s.space label = some space) :
    SwapInv fs { s with space := space } := by
  obtain ⟨hgrows, hobjects⟩ := step_objects hlabel hstep
  have hinside : Inside (2 ^ pageShift) s.space label := by
    cases label with
    | pfBmap id fOffset flag kallocOk => exact absurd rfl (hlabel id fOffset flag kallocOk)
    | pfFileInit => trivial
    | pfPagerCreate => trivial
    | pfDealloc => trivial
  refine ⟨inv.running, inv.space.step hinside hstep, small_step inv.small hlabel hsizes hstep,
    inv.distinct, fun id is hobject g page hexp => ?_, fun id is hobject g hexp n => ?_,
    fun id g hle => inv.unborn id g (le_trans hgrows hle)⟩
  · rcases hobjects id is hobject with hold | hnew
    · exact inv.held id is hold g page hexp
    · rw [inv.unborn id g hnew] at hexp
      cases hexp
  · rcases hobjects id is hobject with hold | hnew
    · exact inv.absent id is hold g hexp n
    · intro hslot
      have hempty := step_new_object hlabel hstep hobject hnew
      rw [mapped_eq_items_slots] at hempty
      have hin : n ∈ items is.pmap.slots := mem_items.mpr (List.mem_of_getElem? hslot)
      rw [hempty] at hin
      cases hin

/-- Every careful step keeps what the pages hold. -/
theorem SwapInv.step (faithful : Faithful fs) (hshift : pageShift ≤ 30)
    (inv : SwapInv fs s) {label : SwapLabel pageShift} (hok : SwapCareful fs s label)
    (hstep : swapStep fs s label = some s') : SwapInv fs s' := by
  unfold swapStep at hstep
  rw [if_neg (by simp [inv.running])] at hstep
  cases label with
  | fileInit busy setattrError statfsError size diskSize memory =>
      obtain ⟨space, hspace, rfl⟩ := Option.map_eq_some_iff.mp hstep
      refine inv.spaceStep (fun _ _ _ _ heq => by cases heq) ?_ hspace
      rintro _ _ _ _ _ _ ⟨⟩
      exact ⟨size.isLt, diskSize.isLt⟩
  | pagerCreate file size zallocOk kallocOk =>
      obtain ⟨space, hspace, rfl⟩ := Option.map_eq_some_iff.mp hstep
      exact inv.spaceStep (fun _ _ _ _ heq => by cases heq)
        (fun _ _ _ _ _ _ heq => by cases heq) hspace
  | dealloc id =>
      obtain ⟨space, hspace, rfl⟩ := Option.map_eq_some_iff.mp hstep
      exact inv.spaceStep (fun _ _ _ _ heq => by cases heq)
        (fun _ _ _ _ _ _ heq => by cases heq) hspace
  | dataWrite id fPage pages =>
      dsimp only at hstep
      split at hstep
      · next hget =>
          cases hstep
          exact inv.dataWrite faithful hshift hget hok
      · cases hstep
  | dataInitialize id fPage pages =>
      dsimp only at hstep
      split at hstep
      · next hget =>
          cases hstep
          exact inv.dataInitialize faithful hshift hget hok
      · cases hstep

theorem SwapInv.start (hinit : (swapMachine fs pageShift).init s) : SwapInv fs s := by
  obtain ⟨hspace, hdistinct, hexpected, hrunning⟩ := hinit
  refine ⟨hrunning, hspace ▸ PagerSpace.Inv.initial, fun file pf hfile => ?_, hdistinct,
    fun id is hobject => ?_, fun id is hobject => ?_, fun id fPage _ => by rw [hexpected]⟩
  · simp [hspace, PagerSpace.initial] at hfile
  · simp [hspace, PagerSpace.initial] at hobject
  · simp [hspace, PagerSpace.initial] at hobject

theorem SwapInv.swapHeld (faithful : Faithful fs) (inv : SwapInv fs s) :
    SwapHeld fs s := by
  have hpos := Nat.two_pow_pos pageShift
  refine ⟨inv.running, fun id is pf hget fPage hinside buffer => ?_⟩
  have hpage : fPage * 2 ^ pageShift / 2 ^ pageShift = fPage := Nat.mul_div_cancel fPage hpos
  have hobject := (get_eq_some hget).1
  cases hexp : s.expected id fPage with
  | some page =>
      obtain ⟨-, n, hslot, hin⟩ := inv.held id is hobject fPage page hexp
      have hsmall := page_small inv.space inv.small hget hslot
      have hread := pfBmap_found (2 ^ pageShift) (fPage * 2 ^ pageShift) pf
        (by rw [hpage]; exact hinside) (by rw [hpage]; exact hslot) .read true
      rw [Nat.mul_mod_left, Nat.zero_add] at hread
      obtain ⟨result, hresult, hbytes⟩ := hin.inodeRead faithful (by omega) buffer
      refine ⟨result, ?_, hbytes⟩
      unfold isPageRead
      rw [hget]
      dsimp only
      rw [hread]
      dsimp only
      rw [hresult]
  | none =>
      have habsent := inv.absent id is hobject fPage hexp
      obtain ⟨result, is', pf', hbmap, hresult, -⟩ := pfBmap_spec (2 ^ pageShift)
        (fPage * 2 ^ pageShift) (inv.space.owns is.pfInfo pf (get_eq_some hget).2)
        (by rw [hpage]; exact hinside) .read true
      have hsame := (pfBmap_read hbmap).1
      dsimp only
      unfold isPageRead
      rw [hget]
      dsimp only
      rw [hbmap]
      cases hresult with
      | found hslot =>
          rw [hpage] at hslot
          exact absurd hslot (habsent _)
      | failed => rfl
      | @mapped n is'' pf'' hslot hslots =>
          rw [hpage] at hslots
          rw [hsame] at hslots
          have hlt := (List.getElem?_eq_some_iff.mp (hpage ▸ hslot)).1
          refine absurd ?_ (habsent n)
          rw [hslots, List.getElem?_set_self hlt]

end Steps

/-! ## Objects on an inode of their own -/

/-- The offset of the following page. -/
def nextPage {pageShift : Nat} (o : PageOffset pageShift) : PageOffset pageShift :=
  ⟨o.val + BitVec.ofNat 32 (2 ^ pageShift), by
    rw [BitVec.toNat_add, BitVec.toNat_ofNat]
    rcases Nat.le_total pageShift 32 with hle | hge
    · have hdvd : 2 ^ pageShift ∣ 2 ^ 32 := Nat.pow_dvd_pow 2 hle
      rw [Nat.add_mod_mod, Nat.dvd_mod_iff hdvd]
      exact Nat.dvd_add o.property (Nat.dvd_refl _)
    · have hzero : 2 ^ pageShift % 2 ^ 32 = 0 := Nat.mod_eq_zero_of_dvd (Nat.pow_dvd_pow 2 hge)
      rw [hzero, Nat.add_zero, Nat.mod_eq_of_lt o.val.isLt]
      exact o.property⟩

section OwnRoutines

variable (fs : FileSystem) {pageShift : Nat}

/-- One page of `memory_object_data_write`. -/
def ownPageWrite (s : Scatter pageShift) (o : PageOffset pageShift) (page : Page pageShift) :
    Scatter pageShift where
  is := afterPageWrite s.is ( InodeIO.isPageWrite fs (2 ^ pageShift) s.is o.val (bytes page))
  last := Function.update s.last o (some (bytes page))

/-- One page of `memory_object_data_initialize`. -/
def ownPageInitialize (s : Scatter pageShift) (o : PageOffset pageShift)
    (page : Page pageShift) : Scatter pageShift where
  is := if hasPage fs (2 ^ pageShift) s.is.inode (o.val <<< s.is.pagingShift) then
      afterPageWrite s.is ( InodeIO.isPageWrite fs (2 ^ pageShift) s.is o.val (bytes page))
    else s.is
  last := Function.update s.last o (noteInitial (s.last o) (bytes page))

def ownDataWrite (s : Scatter pageShift) (o : PageOffset pageShift) :
    List (Page pageShift) → Scatter pageShift
  | [] => s
  | page :: rest => ownDataWrite (ownPageWrite fs s o page) (nextPage o) rest

def ownDataInitialize (s : Scatter pageShift) (o : PageOffset pageShift) :
    List (Page pageShift) → Scatter pageShift
  | [] => s
  | page :: rest => ownDataInitialize (ownPageInitialize fs s o page) (nextPage o) rest

end OwnRoutines

inductive OwnLabel (pageShift : Nat) where
  | dataWrite (o : PageOffset pageShift) (pages : List (Page pageShift))
  | dataInitialize (o : PageOffset pageShift) (pages : List (Page pageShift))

def ownMachine (fs : FileSystem) (pageShift : Nat) :
    Machine (Scatter pageShift) (OwnLabel pageShift) where
  init := (scatterMachine fs pageShift).init
  step := fun s label =>
    match label with
    | .dataWrite o pages => some (ownDataWrite fs s o pages)
    | .dataInitialize o pages => some (ownDataInitialize fs s o pages)

/-- Every page whose shifted offset does not wrap reads as expected; a page of which nothing
is expected is not there. -/
def OwnHeld (fs : FileSystem) {pageShift : Nat} (s : Scatter pageShift) : Prop :=
  ∀ o : PageOffset pageShift, ShiftFits fs o → ∀ buffer, match s.last o with
    | none => ( InodeIO.isPageRead fs (2 ^ pageShift) s.is o.val buffer).1 = some .einval
    | some page => ( InodeIO.isPageRead fs (2 ^ pageShift) s.is o.val buffer).1 = none ∧
        ∀ i < 2 ^ pageShift, ( InodeIO.isPageRead fs (2 ^ pageShift) s.is o.val buffer).2 i = page i

def AllFit (fs : FileSystem) {pageShift : Nat} (o : PageOffset pageShift) :
    List (Page pageShift) → Prop
  | [] => True
  | _ :: rest => ShiftFits fs o ∧ AllFit fs (nextPage o) rest

/-- The pages hold the initial data already. -/
def AllHeld (fs : FileSystem) {pageShift : Nat} (s : Scatter pageShift)
    (o : PageOffset pageShift) : List (Page pageShift) → Prop
  | [] => True
  | page :: rest => (ShiftFits fs o ∧ s.last o = some (bytes page)) ∧
      AllHeld fs (ownPageInitialize fs s o page) (nextPage o) rest

def OwnCareful (fs : FileSystem) {pageShift : Nat} (s : Scatter pageShift) :
    OwnLabel pageShift → Prop
  | .dataWrite o pages => AllFit fs o pages
  | .dataInitialize o pages => AllHeld fs s o pages

section Own

variable {fs : FileSystem} {pageShift : Nat} {s s' : Scatter pageShift} {o : PageOffset pageShift}

theorem ownDataWrite_inv (faithful : Faithful fs) (hshift : pageShift ≤ 30)
    (inv : ScatterInv fs s) {pages : List (Page pageShift)} (hfit : AllFit fs o pages) :
    ScatterInv fs (ownDataWrite fs s o pages) := by
  induction pages generalizing s o with
  | nil => exact inv
  | cons page rest ih =>
      have hstep : scatterStep fs s (o, bytes page) = some (ownPageWrite fs s o page) := rfl
      exact ih (inv.step faithful hshift hfit.1 hstep) hfit.2

theorem ownPageInitialize_inv (faithful : Faithful fs) (hshift : pageShift ≤ 30)
    (inv : ScatterInv fs s) (hfits : ShiftFits fs o) {page : Page pageShift}
    (hlast : s.last o = some (bytes page)) : ScatterInv fs (ownPageInitialize fs s o page) := by
  have hthere := ((inv.scattered faithful).present o hfits).mpr (by rw [hlast]; rfl)
  have hstep : scatterStep fs s (o, bytes page) = some (ownPageWrite fs s o page) := rfl
  have hwrite := inv.step faithful hshift hfits hstep
  rw [ownPageInitialize, hthere, if_pos rfl, hlast]
  exact hwrite

theorem ownDataInitialize_inv (faithful : Faithful fs) (hshift : pageShift ≤ 30)
    (inv : ScatterInv fs s) {pages : List (Page pageShift)} (hheld : AllHeld fs s o pages) :
    ScatterInv fs (ownDataInitialize fs s o pages) := by
  induction pages generalizing s o with
  | nil => exact inv
  | cons page rest ih =>
      exact ih (ownPageInitialize_inv faithful hshift inv hheld.1.1 hheld.1.2) hheld.2

theorem own_step_inv (faithful : Faithful fs) (hshift : pageShift ≤ 30) (inv : ScatterInv fs s)
    {label : OwnLabel pageShift} (hok : OwnCareful fs s label)
    (hstep : (ownMachine fs pageShift).step s label = some s') : ScatterInv fs s' := by
  cases label with
  | dataWrite o pages =>
      cases hstep
      exact ownDataWrite_inv faithful hshift inv hok
  | dataInitialize o pages =>
      cases hstep
      exact ownDataInitialize_inv faithful hshift inv hok

theorem ownHeld_of_inv (faithful : Faithful fs) (inv : ScatterInv fs s) : OwnHeld fs s := by
  intro o hfits buffer
  cases hlast : s.last o with
  | some page => exact (inv.scattered faithful).reads o page hfits hlast buffer
  | none =>
      have hbase := toNat_shifted hfits
      have hmissing := inv.unwritten hlast
      have hturn : ∀ buffer, readBlock fs s.is.inode buffer (2 ^ pageShift) 0
          (o.val <<< (fs.bshift - pageShift)) = .failed .einval := by
        intro buffer
        simp only [readBlock, FileSystem.lblkno, hbase, hmissing, faithful.found,
          Bool.false_eq_true, if_false, if_true, ite_self]
      dsimp only
      rw [ InodeIO.isPageRead, if_neg hfits.ne_last, inv.shift, InodeIO.inodeRead, readLoop, hturn]

end Own

/-! ## When initial data is safe -/

/-- Objects of both kinds hold what is expected, in every run whose writes find place and
whose initial data does no harm. -/
theorem held_of_careful {fs : FileSystem} (faithful : Faithful fs) {pageShift : Nat}
    (hshift : pageShift ≤ 30) :
    (∀ s, (swapMachine fs pageShift).Reachable (SwapCareful fs) s → SwapHeld fs s) ∧
      ∀ s, (ownMachine fs pageShift).Reachable (OwnCareful fs) s → OwnHeld fs s := by
  refine ⟨fun s hreach => ?_, fun s hreach => ?_⟩
  · have inv : SwapInv fs s := hreach.invariant (fun _ hinit => SwapInv.start hinit)
      (fun _ _ _ inv hok hstep => inv.step faithful hshift hok hstep)
    exact inv.swapHeld faithful
  · refine ownHeld_of_inv faithful (Machine.Reachable.invariant (fun s hinit => ?_)
      (fun s label s' inv hok hstep => ?_) hreach)
    · exact ScatterInv.start hinit
    · exact own_step_inv faithful hshift inv hok hstep

/-- The second page of an object is written, and initialized with the same data. -/
def writeThenInitialize : List (OwnLabel 12) :=
  [.dataWrite ⟨4096, aligned_4096⟩ [fun _ => 1],
    .dataInitialize ⟨4096, aligned_4096⟩ [fun _ => 1]]

/-- The first page of an object on a paging file is written, and initialized with the same
data. -/
def writeThenInitializeSwap : List (SwapLabel 12) :=
  [.fileInit false false false 36864 0 (fun _ => 0#8), .pagerCreate 0 32768 true true,
    .dataWrite 0 0 [⟨fun _ => 1, true⟩], .dataInitialize 0 0 [⟨fun _ => 1, true⟩]]

def freshSwap : Swap 12 :=
  ⟨PagerSpace.initial, fun _ => emptyInode (fun _ _ => 7), fun _ _ => none, false⟩

theorem freshSwap_init : (swapMachine (plainFs 13 (by decide)) 12).init freshSwap :=
  ⟨rfl, fun _ => emptyInode_distinct _, rfl, rfl⟩

/-- In that run the initial data does no harm. -/
theorem meets_writeThenInitializeSwap :
    (swapMachine (plainFs 13 (by decide)) 12).Meets (SwapCareful (plainFs 13 (by decide)))
      freshSwap writeThenInitializeSwap := by
  refine ⟨trivial, trivial, ⟨fun is pf got => ?_, trivial⟩, ⟨fun is pf got => ⟨rfl, ?_⟩, trivial⟩, ?_⟩
  · cases got
    exact ⟨by decide, show (9 : Int) ≠ 0 by decide⟩
  · have known : ∀ found : Option (PagerSpace.Istruct × PagerSpace.PagerFile),
        (found.map fun x => (x.1.size, x.1.pmap.slots[0]?)) = some (8, some (some 0)) →
        found = some (is, pf) → is.size = 8 ∧ is.pmap.slots[0]? = some (some 0) := by
      rintro found looks rfl
      exact Prod.mk.inj (Option.some.inj looks)
    obtain ⟨size, first⟩ := known _ (by decide +kernel) got
    intro page slot
    rw [first] at slot
    cases slot
    rw [size]
    exact .inr ⟨by decide, rfl⟩
  · split
    · trivial
    · trivial

theorem held_of_careful_writeThenInitialize :
    (∃ s, (swapMachine (plainFs 13 (by decide)) 12).run freshSwap writeThenInitializeSwap =
        some s ∧ SwapHeld (plainFs 13 (by decide)) s) ∧
      ∃ s, (ownMachine (plainFs 13 (by decide)) 12).run freshScatter writeThenInitialize = some s ∧
        OwnHeld (plainFs 13 (by decide)) s := by
  have hshift : 12 ≤ 30 := by decide
  have both := held_of_careful (plainFs_faithful 13 (by decide)) hshift
  have ran : ((swapMachine (plainFs 13 (by decide)) 12).run freshSwap
      writeThenInitializeSwap).isSome = true := by decide +kernel
  obtain ⟨s, reached⟩ := Option.isSome_iff_exists.mp ran
  refine ⟨⟨s, reached, both.1 s (.of_run _ (.init freshSwap_init) reached
    meets_writeThenInitializeSwap)⟩, _, rfl, both.2 _ (Machine.Reachable.of_run writeThenInitialize
    (.init freshScatter_init) rfl ⟨⟨?_, trivial⟩, ⟨⟨?_, ?_⟩, trivial⟩, trivial⟩)⟩
  · unfold ShiftFits
    decide
  · unfold ShiftFits
    decide
  · simp [ownDataWrite, ownPageWrite]

/-- Initial data for a page that was never written is thrown away. -/
theorem initial_data_lost :
    ∃ s, (swapMachine (plainFs 12 (by decide)) 12).run freshSwap
        [.fileInit false false false 36864 0 (fun _ => 0#8), .pagerCreate 0 32768 true true,
          .dataInitialize 0 0 [⟨fun _ => 1, true⟩]] = some s ∧
      ¬SwapHeld (plainFs 12 (by decide)) s := by
  refine ⟨_, rfl, fun held => ?_⟩
  obtain ⟨result, hread, -⟩ := held.2 0 _ _ rfl 0 (by decide) (fun _ => 0)
  cases hread

end MachFormal.InodePager.Initialize
