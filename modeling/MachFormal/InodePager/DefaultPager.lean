import MachFormal.InodePager.PagerSpace

/-!
# The default pager on its paging files

`memory_object_data_write` sends every page of a temporary object to the paging
file of the object, and `memory_object_data_request` queues a pagein that
`inode_pager_timeout` answers later.  The contents of a page is a value of an
arbitrary type.  A failing `VOP_PAGE_WRITE` may leave anything in the page of
the file; what `VOP_PAGE_READ` returns, when it succeeds, is what the page of
the file holds.  Beside the state of the pager the model keeps the data of the
last write of every page, which no routine looks at.
-/

namespace MachFormal.InodePager.DefaultPager

open MachFormal.Library MachFormal.InodePager.PagerSpace

variable {δ : Type}

/-- The call of `VOP_PAGE_WRITE` succeeds, or fails and leaves something in the page. -/
inductive WriteOutcome (δ : Type) where
  | ok
  | error (left : δ)

/-- The return values of `VOP_PAGE_READ`. -/
inductive ReadOutcome where
  | ok
  | einval
  | eio
  | other
  deriving DecidableEq, Repr

/-- The messages that answer a data request. -/
inductive Reply (δ : Type) where
  | provided (data : δ)
  | unavailable
  | error
  deriving DecidableEq, Repr

/-- An answered request with the data of the last write of the page at that time. -/
structure Answer (δ : Type) where
  id : Nat
  fPage : Nat
  reply : Reply δ
  lastWritten : Option δ
  deriving DecidableEq, Repr

structure Pager (δ : Type) where
  space : PagerSpace.State
  storage : Nat → Nat → δ
  requests : List (Nat × Nat)
  answers : List (Answer δ)
  lastWritten : Nat → Nat → Option δ
  halted : Bool

/-- One page of a `memory_object_data_write` message, with the outcomes of the calls that
are made for it. -/
structure PageWrite (δ : Type) where
  data : δ
  kallocOk : Bool
  outcome : WriteOutcome δ

def pageSize (pageShift : Nat) : Nat := 2 ^ pageShift

/-- `is->errors++`. -/
def countError (is : Istruct) : Istruct :=
  { is with errors := is.errors + 1 }

/-- `VOP_PAGE_WRITE` and the error count of the object. -/
def vopPageWrite (p : Pager δ) (id : Nat) (is : Istruct) (pf : PagerFile) (offset : Nat)
    (write : PageWrite δ) : Pager δ :=
  match write.outcome with
  | .ok =>
      { p with
        space := p.space.put id (some is) is.pfInfo pf
        storage := Function.update p.storage is.pfInfo
          (Function.update (p.storage is.pfInfo) offset write.data) }
  | .error left =>
      { p with
        space := p.space.put id (some (countError is)) is.pfInfo pf
        storage := Function.update p.storage is.pfInfo
          (Function.update (p.storage is.pfInfo) offset left) }

/-- `is_page_write` of a swapfile object; it returns silently when `pf_bmap` fails. -/
def isPageWrite (pageShift : Nat) (p : Pager δ) (id fPage : Nat) (write : PageWrite δ) : Pager δ :=
  match p.space.get id with
  | none => { p with halted := true }
  | some (is, pf) =>
      match pfBmap (pageSize pageShift) pf is (fPage * pageSize pageShift) .write
        write.kallocOk with
      | .error _ => { p with halted := true }
      | .ok (none, is', pf') => { p with space := p.space.put id (some is') is.pfInfo pf' }
      | .ok (some offset, is', pf') => vopPageWrite p id is' pf' offset write

/-- Note what the page was last written with. -/
def noteWrite (p : Pager δ) (id fPage : Nat) (data : δ) : Pager δ :=
  { p with
    lastWritten := Function.update p.lastWritten id
      (Function.update (p.lastWritten id) fPage (some data)) }

/-- The loop of `memory_object_data_write` over the pages of the message. -/
def writePages (pageShift : Nat) (p : Pager δ) (id fPage : Nat) : List (PageWrite δ) → Pager δ
  | [] => p
  | write :: rest =>
      writePages pageShift (noteWrite (isPageWrite pageShift p id fPage write) id fPage write.data)
        id (fPage + 1) rest

def answer (p : Pager δ) (id fPage : Nat) (reply : Reply δ) : Pager δ :=
  { p with answers := ⟨id, fPage, reply, p.lastWritten id fPage⟩ :: p.answers }

/-- `is_page_read` of a swapfile object and the reply for its result. -/
def answerRead (pageShift : Nat) (p : Pager δ) (id fPage : Nat) (is : Istruct) (pf : PagerFile)
    (outcome : ReadOutcome) : Pager δ :=
  match pfBmap (pageSize pageShift) pf is (fPage * pageSize pageShift) .read true with
  | .error _ => { p with halted := true }
  | .ok (none, _, _) => answer p id fPage .unavailable
  | .ok (some offset, _, _) =>
      match outcome with
      | .ok => answer p id fPage (.provided (p.storage is.pfInfo offset))
      | .einval => answer p id fPage .unavailable
      | .eio => answer p id fPage .error
      | .other => { p with halted := true }

def inodePagerTimeout (pageShift : Nat) (p : Pager δ) (outcome : ReadOutcome) : Pager δ :=
  match p.requests with
  | [] => p
  | (id, fPage) :: rest =>
      let p' := { p with requests := rest }
      match p.space.get id with
      | none => p'
      | some (is, pf) =>
          if is.errors ≠ 0 then answer p' id fPage .error
          else answerRead pageShift p' id fPage is pf outcome

def inodePagerInOutRatio : Nat := 4

inductive Label (δ : Type) where
  | space (label : PagerSpace.Label)
  | memoryObjectDataWrite (id fPage : Nat) (writes : List (PageWrite δ))
      (outcomes : List ReadOutcome)
  | memoryObjectDataRequest (id fPage : Nat)
  | inodePagerTimeout (outcome : ReadOutcome)

/-- One call of the pager; a halted system takes none. -/
def step (pageShift : Nat) (p : Pager δ) (label : Label δ) : Option (Pager δ) :=
  if p.halted then none
  else
    match label with
    | .space (.pfBmap _ _ _ _) => none
    | .space label =>
        (PagerSpace.step (pageSize pageShift) p.space label).map (fun s => { p with space := s })
    | .memoryObjectDataWrite id fPage writes outcomes =>
        if (p.space.get id).isSome && decide (outcomes.length = inodePagerInOutRatio) then
          some (outcomes.foldl (DefaultPager.inodePagerTimeout pageShift)
            (writePages pageShift p id fPage writes))
        else none
    | .memoryObjectDataRequest id fPage =>
        if id < p.space.objects.length then
          some { p with requests := p.requests ++ [(id, fPage)] }
        else none
    | .inodePagerTimeout outcome => some (DefaultPager.inodePagerTimeout pageShift p outcome)

/-- No paging file and no object exists, and nothing was written. -/
def Initial (p : Pager δ) : Prop :=
  p.space = PagerSpace.initial ∧ p.requests = [] ∧ p.answers = [] ∧
    (∀ id fPage, p.lastWritten id fPage = none) ∧ p.halted = false

def machine (δ : Type) (pageShift : Nat) : Machine (Pager δ) (Label δ) where
  init := Initial
  step := step pageShift

/-- A request for a page that was written is answered by the data of the last write, or
by an error. -/
def Remembers (p : Pager δ) : Prop :=
  ∀ a ∈ p.answers, ∀ data, a.lastWritten = some data →
    a.reply = .provided data ∨ a.reply = .error

/-- The page is inside the object, and the paging file has a place for it. -/
def HasRoom (p : Pager δ) (id fPage : Nat) (kallocOk : Bool) : Prop :=
  ∀ is pf, p.space.get id = some (is, pf) → fPage < is.size ∧ Room pf is fPage kallocOk

/-- Every page of the message finds room when its turn comes. -/
def AllHaveRoom (pageShift : Nat) (p : Pager δ) (id fPage : Nat) : List (PageWrite δ) → Prop
  | [] => True
  | write :: rest =>
      HasRoom p id fPage write.kallocOk ∧
        AllHaveRoom pageShift
          (noteWrite (isPageWrite pageShift p id fPage write) id fPage write.data)
          id (fPage + 1) rest

/-- Writes find room, requests are inside their objects, and `VOP_PAGE_READ` never says
that a page of the paging file is absent. -/
def Roomy (pageShift : Nat) (p : Pager δ) : Label δ → Prop
  | .space _ => True
  | .memoryObjectDataWrite id fPage writes outcomes =>
      AllHaveRoom pageShift p id fPage writes ∧ .einval ∉ outcomes
  | .memoryObjectDataRequest id fPage =>
      ∀ is pf, p.space.get id = some (is, pf) → fPage < is.size
  | .inodePagerTimeout outcome => outcome ≠ .einval

/-! ## What the pager remembers -/

/-- Written pages of an object without errors are in its paging file. -/
structure Inv (pageShift : Nat) (p : Pager δ) : Prop where
  space : PagerSpace.Inv p.space
  stored : ∀ id is, p.space.objects[id]? = some (some is) → is.errors = 0 →
    ∀ fPage data, p.lastWritten id fPage = some data →
      ∃ page, is.pmap.slots[fPage]? = some (some page) ∧
        p.storage is.pfInfo (page * pageSize pageShift) = data
  unborn : ∀ id fPage, p.space.objects.length ≤ id → p.lastWritten id fPage = none
  known : ∀ request ∈ p.requests, request.1 < p.space.objects.length
  inside : ∀ id fPage is, (id, fPage) ∈ p.requests →
    p.space.objects[id]? = some (some is) → fPage < is.size
  answers : Remembers p

theorem Inv.initial {pageShift : Nat} {p : Pager δ} (hinit : Initial p) : Inv pageShift p := by
  obtain ⟨hspace, hrequests, hanswers, hwritten, -⟩ := hinit
  refine ⟨hspace ▸ PagerSpace.Inv.initial, fun id is hobject => ?_,
    fun id fPage _ => hwritten id fPage, fun request hin => ?_, fun id fPage is hin => ?_,
    fun a ha => ?_⟩
  · simp [hspace, PagerSpace.initial] at hobject
  · simp [hrequests] at hin
  · simp [hrequests] at hin
  · simp [hanswers] at ha

section Preservation

variable {pageShift id fPage : Nat} {p p' : Pager δ} {is : Istruct} {pf : PagerFile}

theorem pageSize_pos : 0 < pageSize pageShift := Nat.two_pow_pos pageShift

theorem page_of_offset (pageShift fPage : Nat) : fPage * pageSize pageShift / pageSize pageShift = fPage :=
  Nat.mul_div_cancel fPage pageSize_pos

theorem offset_inj {page page' : Nat} (hne : page' ≠ page) :
    page' * pageSize pageShift ≠ page * pageSize pageShift :=
  fun heq => hne (Nat.eq_of_mul_eq_mul_right pageSize_pos heq)

theorem get_put {s : PagerSpace.State} {is' : Istruct} (pf' : PagerFile)
    (hget : s.get id = some (is, pf)) (hinfo : is'.pfInfo = is.pfInfo) :
    (s.put id (some is') is.pfInfo pf').get id = some (is', pf') := by
  obtain ⟨hobject, hfile⟩ := get_eq_some hget
  have hlt := (List.getElem?_eq_some_iff.mp hobject).1
  have hflt := (List.getElem?_eq_some_iff.mp hfile).1
  simp [State.get, State.put, List.getElem?_set_self hlt, hinfo, List.getElem?_set_self hflt]

theorem pfBmap_room (hspace : PagerSpace.Inv p.space) (hget : p.space.get id = some (is, pf))
    {kallocOk : Bool} (hroom : HasRoom p id fPage kallocOk) :
    ∃ page is' pf',
      pfBmap (pageSize pageShift) pf is (fPage * pageSize pageShift) .write kallocOk =
        .ok (some (page * pageSize pageShift), is', pf') ∧
      is'.pmap.slots[fPage]? = some (some page) ∧
      (∀ g, g ≠ fPage → is'.pmap.slots[g]? = is.pmap.slots[g]?) ∧
      is'.pfInfo = is.pfInfo ∧ is'.size = is.size ∧ is'.errors = is.errors ∧
      PagerSpace.Inv (p.space.put id (some is') is.pfInfo pf') := by
  obtain ⟨hinside, hfree⟩ := hroom is pf hget
  obtain ⟨page, is', pf', hbmap, hslot, hother, hinfo, hsize, herrors, -, hinv⟩ :=
    hspace.bmap_room pageSize_pos hget hinside hfree
  exact ⟨page, is', pf', hbmap, hslot, hother, hinfo, hsize, herrors, hinv⟩

/-- Writing a file page that one page of one object maps leaves the pages that the others
remember alone. -/
theorem stored_of_write (h : Inv pageShift p) {is' : Istruct} {pf' : PagerFile} {page : Nat}
    (data content : δ) (hget : p.space.get id = some (is, pf))
    (hinv : PagerSpace.Inv (p.space.put id (some is') is.pfInfo pf'))
    (hslot : is'.pmap.slots[fPage]? = some (some page))
    (hother : ∀ g, g ≠ fPage → is'.pmap.slots[g]? = is.pmap.slots[g]?)
    (hinfo : is'.pfInfo = is.pfInfo) (hsize : is'.size = is.size)
    (hgood : is'.errors = 0 → is.errors = 0 ∧ content = data) :
    Inv pageShift (noteWrite { p with
      space := p.space.put id (some is') is.pfInfo pf'
      storage := Function.update p.storage is.pfInfo
        (Function.update (p.storage is.pfInfo) (page * pageSize pageShift) content) }
      id fPage data) := by
  obtain ⟨hobject, hfile⟩ := get_eq_some hget
  have hlt := (List.getElem?_eq_some_iff.mp hobject).1
  have hself : (p.space.objects.set id (some is'))[id]? = some (some is') :=
    List.getElem?_set_self hlt
  refine ⟨hinv, fun id₁ is₁ hobject₁ herrors g d hwritten => ?_, fun id₁ g hle => ?_,
    fun request hin => ?_, fun id₁ g is₁ hin hobject₁ => ?_, h.answers⟩
  · simp only [noteWrite, State.put] at hobject₁ hwritten ⊢
    by_cases hid : id₁ = id
    · subst hid
      obtain rfl : is' = is₁ := Option.some.inj (Option.some.inj (hself.symm.trans hobject₁))
      rw [Function.update_self] at hwritten
      obtain ⟨hclean, hcontent⟩ := hgood herrors
      rw [hinfo]
      by_cases hg : g = fPage
      · subst hg
        rw [Function.update_self, Option.some.injEq] at hwritten
        exact ⟨page, hslot, by rw [Function.update_self, Function.update_self, hcontent, hwritten]⟩
      · rw [Function.update_of_ne hg] at hwritten
        obtain ⟨page₁, hslot₁, hstored⟩ := h.stored id₁ is hobject hclean g d hwritten
        have hslot₁' := (hother g hg).trans hslot₁
        have hne : page₁ ≠ page := by
          rintro rfl
          exact hg (hinv.slot_inj hself hself rfl hslot hslot₁').2.symm
        refine ⟨page₁, hslot₁', ?_⟩
        rw [Function.update_self, Function.update_of_ne (offset_inj hne)]
        exact hstored
    · rw [List.getElem?_set_ne (Ne.symm hid)] at hobject₁
      rw [Function.update_of_ne hid] at hwritten
      obtain ⟨page₁, hslot₁, hstored⟩ := h.stored id₁ is₁ hobject₁ herrors g d hwritten
      refine ⟨page₁, hslot₁, ?_⟩
      by_cases hsame : is₁.pfInfo = is.pfInfo
      · have hne : page₁ ≠ page := by
          rintro rfl
          have hobject₁' : (p.space.put id (some is') is.pfInfo pf').objects[id₁]? =
              some (some is₁) := (List.getElem?_set_ne (Ne.symm hid)).trans hobject₁
          exact hid (hinv.slot_inj hself hobject₁' (hsame.trans hinfo.symm) hslot hslot₁).1.symm
        rw [hsame, Function.update_self, Function.update_of_ne (offset_inj hne), ← hsame]
        exact hstored
      · rw [Function.update_of_ne hsame]
        exact hstored
  · simp only [noteWrite, State.put, List.length_set] at hle ⊢
    have hid : id₁ ≠ id := by omega
    rw [Function.update_of_ne hid]
    exact h.unborn id₁ g hle
  · simp only [noteWrite, State.put, List.length_set] at hin ⊢
    exact h.known request hin
  · simp only [noteWrite, State.put] at hin hobject₁
    by_cases hid : id₁ = id
    · subst hid
      obtain rfl : is' = is₁ := Option.some.inj (Option.some.inj (hself.symm.trans hobject₁))
      rw [hsize]
      exact h.inside id₁ g is hin hobject
    · rw [List.getElem?_set_ne (Ne.symm hid)] at hobject₁
      exact h.inside id₁ g is₁ hin hobject₁

/-- One page of `memory_object_data_write`: the page is remembered, or the object has an
error. -/
theorem Inv.pageWrite (h : Inv pageShift p) {write : PageWrite δ}
    (hget : p.space.get id = some (is, pf)) (hroom : HasRoom p id fPage write.kallocOk) :
    Inv pageShift (noteWrite (isPageWrite pageShift p id fPage write) id fPage write.data) ∧
      ((isPageWrite pageShift p id fPage write).space.get id).isSome = true ∧
      (isPageWrite pageShift p id fPage write).halted = p.halted := by
  obtain ⟨page, is', pf', hbmap, hslot, hother, hinfo, hsize, herrors, hinv⟩ :=
    pfBmap_room h.space hget hroom
  have hvop : isPageWrite pageShift p id fPage write =
      vopPageWrite p id is' pf' (page * pageSize pageShift) write := by
    unfold isPageWrite
    rw [hget]
    dsimp only
    rw [hbmap]
  rw [hvop]
  unfold vopPageWrite
  cases houtcome : write.outcome with
  | ok =>
      dsimp only
      rw [hinfo]
      refine ⟨stored_of_write h _ _ hget hinv hslot hother hinfo hsize (fun hzero => ?_), ?_, rfl⟩
      · exact ⟨herrors ▸ hzero, rfl⟩
      · rw [get_put pf' hget hinfo]
        rfl
  | error left =>
      have hput := get_put pf' hget hinfo
      have hinv' := hinv.replace (countError is') hput rfl rfl rfl
      simp only [State.put, List.set_set] at hinv'
      dsimp only
      have hfile : (p.space.files.set is.pfInfo pf').set is'.pfInfo pf' =
          p.space.files.set is.pfInfo pf' := by
        rw [hinfo, List.set_set]
      rw [hfile] at hinv'
      have hwrite := stored_of_write h write.data left hget hinv' hslot
        hother hinfo hsize (fun hzero => absurd hzero (Nat.succ_ne_zero _))
      rw [← hinfo] at hwrite
      refine ⟨hwrite, ?_, rfl⟩
      rw [hinfo, get_put pf' hget (show (countError is').pfInfo = is.pfInfo from hinfo)]
      rfl

theorem Inv.writePages (h : Inv pageShift p) {writes : List (PageWrite δ)}
    (hget : (p.space.get id).isSome = true) (hroom : AllHaveRoom pageShift p id fPage writes) :
    Inv pageShift (writePages pageShift p id fPage writes) := by
  induction writes generalizing p fPage with
  | nil => exact h
  | cons write rest ih =>
      obtain ⟨⟨is, pf⟩, hpair⟩ := Option.isSome_iff_exists.mp hget
      obtain ⟨hinv, hsome, -⟩ := h.pageWrite hpair hroom.1
      exact ih hinv hsome hroom.2

theorem Inv.dropRequest (h : Inv pageShift p) {request : Nat × Nat} {rest : List (Nat × Nat)}
    (hrequests : p.requests = request :: rest) : Inv pageShift { p with requests := rest } :=
  ⟨h.space, h.stored, h.unborn,
    fun other hin => h.known other (by rw [hrequests]; exact List.mem_cons_of_mem _ hin),
    fun id fPage is hin => h.inside id fPage is (by rw [hrequests]; exact List.mem_cons_of_mem _ hin),
    h.answers⟩

theorem Inv.answer (h : Inv pageShift p) {reply : Reply δ}
    (hreply : ∀ data, p.lastWritten id fPage = some data →
      reply = .provided data ∨ reply = .error) :
    Inv pageShift (answer p id fPage reply) := by
  refine ⟨h.space, h.stored, h.unborn, h.known, h.inside, fun a ha data hdata => ?_⟩
  rcases List.mem_cons.mp ha with rfl | hold
  · exact hreply data hdata
  · exact h.answers a hold data hdata

theorem Inv.halt (h : Inv pageShift p) : Inv pageShift { p with halted := true } :=
  ⟨h.space, h.stored, h.unborn, h.known, h.inside, h.answers⟩

theorem Inv.answerRead_unwritten (h : Inv pageShift p) {outcome : ReadOutcome}
    (hwritten : p.lastWritten id fPage = none) :
    Inv pageShift (answerRead pageShift p id fPage is pf outcome) := by
  have hany : ∀ reply, Inv pageShift (DefaultPager.answer p id fPage reply) := fun reply =>
    h.answer (fun data hdata => by rw [hwritten] at hdata; cases hdata)
  unfold answerRead
  split
  · exact h.halt
  · exact hany _
  · cases outcome with
    | ok => exact hany _
    | einval => exact hany _
    | eio => exact hany _
    | other => exact h.halt

theorem Inv.timeout (h : Inv pageShift p) {outcome : ReadOutcome} (hread : outcome ≠ .einval) :
    Inv pageShift (inodePagerTimeout pageShift p outcome) := by
  unfold inodePagerTimeout
  cases hrequests : p.requests with
  | nil => exact h
  | cons request rest =>
      obtain ⟨id, fPage⟩ := request
      have hdrop := h.dropRequest hrequests
      dsimp only
      cases hget : p.space.get id with
      | none => exact hdrop
      | some pair =>
          obtain ⟨is, pf⟩ := pair
          obtain ⟨hobject, hfile⟩ := get_eq_some hget
          dsimp only
          split
          · exact hdrop.answer (fun _ _ => Or.inr rfl)
          · next herrors =>
              have hclean : is.errors = 0 := by simpa using herrors
              have hinside := h.inside id fPage is (by rw [hrequests]; exact List.mem_cons_self) hobject
              cases hwritten : p.lastWritten id fPage with
              | none => exact hdrop.answerRead_unwritten hwritten
              | some data =>
                  obtain ⟨page, hslot, hstored⟩ :=
                    h.stored id is hobject hclean fPage data hwritten
                  have hpage := page_of_offset pageShift fPage
                  have hbmap := pfBmap_found (pageSize pageShift)
                    (fPage * pageSize pageShift) pf (by rw [hpage]; exact hinside)
                    (by rw [hpage]; exact hslot) .read true
                  rw [Nat.mul_mod_left, Nat.zero_add] at hbmap
                  unfold answerRead
                  rw [hbmap]
                  cases outcome with
                  | ok =>
                      refine hdrop.answer (fun data' hdata' => Or.inl ?_)
                      rw [show data' = data from Option.some.inj (hdata'.symm.trans hwritten)]
                      exact congrArg Reply.provided hstored
                  | einval => exact absurd rfl hread
                  | eio => exact hdrop.answer (fun _ _ => Or.inr rfl)
                  | other => exact hdrop.halt

theorem Inv.timeouts (h : Inv pageShift p) {outcomes : List ReadOutcome}
    (hread : .einval ∉ outcomes) :
    Inv pageShift (outcomes.foldl (inodePagerTimeout pageShift) p) := by
  induction outcomes generalizing p with
  | nil => exact h
  | cons outcome rest ih =>
      have hne : outcome ≠ .einval := fun heq => hread (heq ▸ List.mem_cons_self)
      exact ih (h.timeout hne) (fun hin => hread (List.mem_cons_of_mem _ hin))

/-- New files and objects, and objects that go away, take nothing from the other objects. -/
theorem Inv.spaceStep (h : Inv pageShift p) {label : PagerSpace.Label} {s : PagerSpace.State}
    (hinside : Inside (pageSize pageShift) p.space label)
    (hlabel : ∀ id' fOffset flag kallocOk, label ≠ .pfBmap id' fOffset flag kallocOk)
    (hstep : PagerSpace.step (pageSize pageShift) p.space label = some s) :
    Inv pageShift { p with space := s } := by
  obtain ⟨hlength, hold⟩ := step_objects hlabel hstep
  refine ⟨h.space.step hinside hstep, fun id is hobject herrors g data hwritten => ?_,
    fun id g hle => h.unborn id g (Nat.le_trans hlength hle),
    fun request hin => Nat.lt_of_lt_of_le (h.known request hin) hlength,
    fun id g is hin hobject => ?_, h.answers⟩
  · rcases hold id is hobject with hobject | hnew
    · exact h.stored id is hobject herrors g data hwritten
    · rw [h.unborn id g hnew] at hwritten
      cases hwritten
  · rcases hold id is hobject with hobject | hnew
    · exact h.inside id g is hin hobject
    · exact absurd (h.known (id, g) hin) (Nat.not_lt.mpr hnew)

theorem Inv.step (h : Inv pageShift p) {label : Label δ} (hok : Roomy pageShift p label)
    (hstep : step pageShift p label = some p') : Inv pageShift p' := by
  unfold DefaultPager.step at hstep
  split at hstep
  · cases hstep
  · cases label with
    | space label =>
        cases label with
        | pfBmap id fOffset flag kallocOk => cases hstep
        | pfFileInit busy setattrError statfsError size diskSize memory =>
            obtain ⟨s, hspace, rfl⟩ := Option.map_eq_some_iff.mp hstep
            refine h.spaceStep ?_ (fun _ _ _ _ heq => by cases heq) hspace
            trivial
        | pfPagerCreate file size zallocOk kallocOk =>
            obtain ⟨s, hspace, rfl⟩ := Option.map_eq_some_iff.mp hstep
            refine h.spaceStep ?_ (fun _ _ _ _ heq => by cases heq) hspace
            trivial
        | pfDealloc id =>
            obtain ⟨s, hspace, rfl⟩ := Option.map_eq_some_iff.mp hstep
            refine h.spaceStep ?_ (fun _ _ _ _ heq => by cases heq) hspace
            trivial
    | memoryObjectDataWrite id fPage writes outcomes =>
        dsimp only at hstep
        split at hstep
        · next henabled =>
            cases hstep
            have hget : (p.space.get id).isSome = true := (Bool.and_eq_true _ _ ▸ henabled).1
            exact (h.writePages hget hok.1).timeouts hok.2
        · cases hstep
    | memoryObjectDataRequest id fPage =>
        dsimp only at hstep
        split at hstep
        · next hid =>
          cases hstep
          refine ⟨h.space, h.stored, h.unborn, fun request hin => ?_,
            fun id' g is hin hobject => ?_, h.answers⟩ <;>
            rcases List.mem_append.mp hin with hold | hnew
          · exact h.known request hold
          · rw [List.mem_singleton.mp hnew]
            exact hid
          · exact h.inside id' g is hold hobject
          · cases List.mem_singleton.mp hnew
            have hlt := h.space.backed is (List.mem_of_getElem? hobject)
            refine hok is p.space.files[is.pfInfo] ?_
            simp only [State.get, hobject, List.getElem?_eq_getElem hlt, Option.map_some]
        · cases hstep
    | inodePagerTimeout outcome =>
        cases hstep
        exact h.timeout hok

end Preservation

/-- In every run in which the writes find room, the pager forgets no page. -/
theorem remembers_of_roomy (pageShift : Nat) {p : Pager δ}
    (hreach : (machine δ pageShift).Reachable (Roomy pageShift) p) : Remembers p := by
  have hinv : Inv pageShift p := hreach.invariant (fun _ hinit => Inv.initial hinit)
    (fun _ _ _ hinv hok hstep => hinv.step hok hstep)
  exact hinv.answers

/-- Nothing exists yet. -/
def blank : Pager Nat :=
  ⟨PagerSpace.initial, fun _ _ => 0, [], [], fun _ _ => none, false⟩

/-- A file of the given number of pages, an object of two pages that writes both of them,
and a request for the second. -/
def writeTwoPages (filePages : Nat) : List (Label Nat) :=
  [.space (.pfFileInit false false false (filePages * 4096) 0 (fun _ => 0xff#8)),
    .space (.pfPagerCreate 0 (2 * 4096) true true),
    .memoryObjectDataWrite 0 0 [⟨7, true, .ok⟩, ⟨8, true, .ok⟩] [.ok, .ok, .ok, .ok],
    .memoryObjectDataRequest 0 1, .inodePagerTimeout .ok]

theorem blank_initial : Initial blank :=
  ⟨rfl, rfl, rfl, fun _ _ => rfl, rfl⟩

theorem remembers_two_pages :
    ((machine Nat 12).run blank (writeTwoPages 2)).map Pager.answers =
      some [⟨0, 1, .provided 8, some 8⟩] ∧
    ∀ p, (machine Nat 12).run blank (writeTwoPages 2) = some p → Remembers p := by
  refine ⟨by decide +kernel, fun p hrun => remembers_of_roomy 12
    (Machine.Reachable.of_run (writeTwoPages 2) (.init blank_initial) hrun ?_)⟩
  refine ⟨trivial, trivial, ⟨⟨?_, ?_, trivial⟩, by decide⟩, ?_,
    show ReadOutcome.ok ≠ .einval by decide, trivial⟩
  · intro is pf hget
    cases hget
    exact ⟨by decide, show (2 : Int) ≠ 0 by decide⟩
  · intro is pf hget
    cases hget
    exact ⟨by decide, show (1 : Int) ≠ 0 by decide⟩
  · intro is pf hget
    cases hget
    decide

/-- With one page in the file the second write is dropped without a trace. -/
theorem forgets_when_file_full :
    ∃ p, (machine Nat 12).run blank (writeTwoPages 1) = some p ∧
      p.answers = [⟨0, 1, .unavailable, some 8⟩] ∧ ¬ Remembers p := by
  have hanswers : ((machine Nat 12).run blank (writeTwoPages 1)).map Pager.answers =
      some [⟨0, 1, .unavailable, some 8⟩] := by decide +kernel
  obtain ⟨p, hrun, hp⟩ := Option.map_eq_some_iff.mp hanswers
  refine ⟨p, hrun, hp, fun hremembers => ?_⟩
  have hanswer := hremembers ⟨0, 1, .unavailable, some 8⟩ (by rw [hp]; exact List.mem_singleton.mpr rfl)
    8 rfl
  simp at hanswer

end MachFormal.InodePager.DefaultPager
