import MachFormal.InodePager.PagerSpace

/-!
# The page map as a partial map

A call of `pf_bmap` looks at one entry of the map of an object.  Its first test
lets the page right behind the last one through: in one table that page has no
entry, and in a table of tables it has one only if the last table is not full.
What a call may do is stated for one call; which calls do it is settled in every
state that the routines of the paging files reach.
-/

namespace MachFormal.InodePager.PagerSpace

open MachFormal.Library MachFormal.Library.Bitmap

/-- One call of `pf_bmap` stays inside the tables and treats the map as a partial map from
the pages of the object to pages of the file. -/
def Orderly (pageSize : Nat) (pf : PagerFile) (is : Istruct) (fOffset : Nat) (flag : Flag)
    (kallocOk : Bool) : Prop :=
  ∃ result is' pf', pfBmap pageSize pf is fOffset flag kallocOk = .ok (result, is', pf') ∧
    (is.size ≤ fOffset / pageSize → result = none ∧ is' = is ∧ pf' = pf) ∧
    (flag = .read → is' = is ∧ pf' = pf) ∧
    (∀ g, g ≠ fOffset / pageSize → is'.pmap.slots[g]? = is.pmap.slots[g]?) ∧
    ∀ page, fOffset / pageSize < is.size →
      is.pmap.slots[fOffset / pageSize]? = some (some page) →
        result = some (fOffset % pageSize + page * pageSize) ∧ is' = is ∧ pf' = pf

/-- The page has an entry, it is `-1`, and the call does not come to fill it. -/
def Refuses (pf : PagerFile) (is : Istruct) (fPage : Nat) (flag : Flag) (kallocOk : Bool) :
    Prop :=
  match is.pmap.read fPage with
  | .wild => False
  | .noTable => flag = .read ∨ kallocOk = false
  | .entry none => flag = .read ∨ pf.pfree = 0
  | .entry (some _) => False

/-- No call of `pf_bmap` is for the page behind the last one, unless it is refused there. -/
def Apart (pageSize : Nat) (s : State) : Label → Prop
  | .pfBmap id fOffset flag kallocOk => ∀ is pf, s.get id = some (is, pf) →
      fOffset / pageSize = is.size → Refuses pf is is.size flag kallocOk
  | _ => True

/-- The pages an object has in the first state are found at the same place in the second. -/
def Steady (pageSize : Nat) (s s' : State) : Prop :=
  ∀ id is pf is' pf', s.get id = some (is, pf) → s'.get id = some (is', pf') →
    ∀ fOffset page, fOffset / pageSize < is.size →
      is.pmap.slots[fOffset / pageSize]? = some (some page) → ∀ flag kallocOk,
        pfBmap pageSize pf' is' fOffset flag kallocOk =
          .ok (some (fOffset % pageSize + page * pageSize), is', pf')

section Calls

variable {pageSize fOffset : Nat} {pf : PagerFile} {is : Istruct} {owned : List Nat}
  {flag : Flag} {kallocOk : Bool}

theorem pfBmap_read {result : Option Nat} {is' : Istruct} {pf' : PagerFile}
    (hbmap : pfBmap pageSize pf is fOffset .read kallocOk = .ok (result, is', pf')) :
    is' = is ∧ pf' = pf := by
  unfold pfBmap at hbmap
  split at hbmap
  · cases hbmap
    exact ⟨rfl, rfl⟩
  · split at hbmap
    · cases hbmap
    · rw [if_pos rfl] at hbmap
      cases hbmap
      exact ⟨rfl, rfl⟩
    · rw [if_pos rfl] at hbmap
      cases hbmap
      exact ⟨rfl, rfl⟩
    · cases hbmap
      exact ⟨rfl, rfl⟩

theorem pfBmap_refused (hend : fOffset / pageSize = is.size)
    (hrefuses : Refuses pf is is.size flag kallocOk) :
    pfBmap pageSize pf is fOffset flag kallocOk = .ok (none, is, pf) := by
  unfold pfBmap
  rw [if_neg (by omega), hend]
  unfold Refuses at hrefuses
  cases hread : is.pmap.read is.size with
  | wild =>
      simp only [hread] at hrefuses
  | noTable =>
      simp only [hread] at hrefuses
      rcases hrefuses with hflag | hmemory
      · rw [if_pos hflag]
      · simp [hmemory]
  | entry entry =>
      cases entry with
      | none =>
          simp only [hread] at hrefuses
          dsimp only
          rcases hrefuses with hflag | hfull
          · rw [if_pos hflag]
          · have hnone : pfAllocatePage pf = .ok none := by rw [pfAllocatePage, if_pos hfull]
            simp only [pfBmapNew, hnone, ite_self]
      | some page => simp [hread] at hrefuses

theorem Orderly.refuses (horderly : Orderly pageSize pf is fOffset flag kallocOk)
    (hpf : pf.Owns owned) (hend : fOffset / pageSize = is.size) :
    Refuses pf is is.size flag kallocOk := by
  obtain ⟨result, is', pf', hbmap, houtside, -, -, -⟩ := horderly
  obtain ⟨rfl, rfl, rfl⟩ := houtside (by omega)
  unfold pfBmap at hbmap
  rw [if_neg (by omega), hend] at hbmap
  unfold Refuses
  cases hread : is'.pmap.read is'.size with
  | wild => simp [hread] at hbmap
  | noTable =>
      simp only [hread] at hbmap ⊢
      cases flag with
      | read => exact Or.inl rfl
      | write =>
          cases kallocOk with
          | false => exact Or.inr rfl
          | true =>
              -- the new table stays even when the file is full
              exfalso
              have hchanged : is'.addTable is'.size ≠ is' := by
                intro heq
                have hnew := read_addTable hread
                rw [show is'.pmap.addTable is'.size = is'.pmap from congrArg Istruct.pmap heq,
                  hread] at hnew
                cases hnew
              rw [if_neg (by simp), if_pos rfl, pfBmapNew] at hbmap
              rcases hpf.allocate with ⟨-, halloc⟩ | ⟨page, pf', -, halloc, -⟩
              · simp only [halloc, Except.ok.injEq, Prod.mk.injEq] at hbmap
                exact hchanged hbmap.2.1
              · simp [halloc] at hbmap
  | entry entry =>
      cases entry with
      | none =>
          simp only [hread] at hbmap ⊢
          cases flag with
          | read => exact Or.inl rfl
          | write =>
              right
              rw [if_neg (by simp), pfBmapNew] at hbmap
              rcases hpf.allocate with ⟨hfull, -⟩ | ⟨page, pf', -, halloc, -⟩
              · exact hfull
              · simp [halloc] at hbmap
      | some page => simp [hread] at hbmap

theorem orderly_inside (hpf : pf.Owns owned) (hinside : fOffset / pageSize < is.size)
    (flag : Flag) (kallocOk : Bool) : Orderly pageSize pf is fOffset flag kallocOk := by
  obtain ⟨result, is', pf', hbmap, hresult, -⟩ :=
    pfBmap_spec pageSize fOffset hpf hinside flag kallocOk
  refine ⟨result, is', pf', hbmap, fun hout => by omega, ?_, fun g hg => ?_, fun page _ hslot => ?_⟩
  · rintro rfl
    exact pfBmap_read hbmap
  · cases hresult with
    | found hslot => rfl
    | failed hsame hfile hsize => rw [hsame]
    | mapped hslot hslots hfile hsize herrors hfresh hnpgs howns =>
        rw [hslots, List.getElem?_set_ne (Ne.symm hg)]
  · rw [pfBmap_found pageSize fOffset pf hinside hslot flag kallocOk] at hbmap
    cases hbmap
    exact ⟨rfl, rfl, rfl⟩

theorem orderly_iff (hpf : pf.Owns owned) (fOffset : Nat) (flag : Flag) (kallocOk : Bool) :
    Orderly pageSize pf is fOffset flag kallocOk ↔
      (fOffset / pageSize = is.size → Refuses pf is is.size flag kallocOk) := by
  refine ⟨fun horderly hend => horderly.refuses hpf hend, fun hrefuses => ?_⟩
  have hsame : pfBmap pageSize pf is fOffset flag kallocOk = .ok (none, is, pf) →
      is.size ≤ fOffset / pageSize → Orderly pageSize pf is fOffset flag kallocOk :=
    fun hbmap hout => ⟨none, is, pf, hbmap, fun _ => ⟨rfl, rfl, rfl⟩, fun _ => ⟨rfl, rfl⟩,
      fun _ _ => rfl, fun page hinside => by omega⟩
  rcases Nat.lt_trichotomy (fOffset / pageSize) is.size with hinside | hend | hbeyond
  · exact orderly_inside hpf hinside flag kallocOk
  · exact hsame (pfBmap_refused hend (hrefuses hend)) (by omega)
  · exact hsame (by rw [pfBmap, if_pos hbeyond]) (by omega)

end Calls

/-! ## Runs -/

section Runs

variable {pageSize : Nat} {s s' : State}

/-- What is left of the objects of an earlier state: they keep the pages they have. -/
structure Kept (s s' : State) : Prop where
  grows : s.objects.length ≤ s'.objects.length
  pages : ∀ id is', s'.objects[id]? = some (some is') → id < s.objects.length →
    ∃ is, s.objects[id]? = some (some is) ∧ is'.size = is.size ∧
      ∀ g page : Nat, is.pmap.slots[g]? = some (some page) →
        is'.pmap.slots[g]? = some (some page)

theorem Kept.refl (s : State) : Kept s s :=
  ⟨Nat.le_refl _, fun _ is' hobject _ => ⟨is', hobject, rfl, fun _ _ hslot => hslot⟩⟩

theorem Kept.trans {s'' : State} (first : Kept s s') (second : Kept s' s'') : Kept s s'' := by
  refine ⟨first.grows.trans second.grows, fun id is'' hobject hlt => ?_⟩
  obtain ⟨is', hobject', hsize', hpages'⟩ :=
    second.pages id is'' hobject (lt_of_lt_of_le hlt first.grows)
  obtain ⟨is, hobject, hsize, hpages⟩ := first.pages id is' hobject' hlt
  exact ⟨is, hobject, hsize'.trans hsize, fun g page hslot => hpages' g page (hpages g page hslot)⟩

theorem bmap_cases (hinv : Inv s) {id fOffset : Nat} {flag : Flag} {kallocOk : Bool}
    {is : Istruct} {pf : PagerFile} (hget : s.get id = some (is, pf))
    (hok : fOffset / pageSize = is.size → Refuses pf is is.size flag kallocOk) :
    ∃ result is' pf', pfBmap pageSize pf is fOffset flag kallocOk = .ok (result, is', pf') ∧
      BmapResult pageSize fOffset pf is (s.owned is.pfInfo) result is' pf' := by
  have hpf := hinv.owns is.pfInfo pf (get_eq_some hget).2
  rcases Nat.lt_trichotomy (fOffset / pageSize) is.size with hinside | hend | hbeyond
  · obtain ⟨result, is', pf', hbmap, hresult, -⟩ :=
      pfBmap_spec pageSize fOffset hpf hinside flag kallocOk
    exact ⟨result, is', pf', hbmap, hresult⟩
  · exact ⟨none, is, pf, pfBmap_refused hend (hok hend), .failed rfl rfl rfl⟩
  · exact ⟨none, is, pf, by rw [pfBmap, if_pos hbeyond], .failed rfl rfl rfl⟩

theorem BmapResult.keeps {fOffset : Nat} {pf pf' : PagerFile} {is is' : Istruct}
    {owned : List Nat} {result : Option Nat}
    (hresult : BmapResult pageSize fOffset pf is owned result is' pf') :
    is'.size = is.size ∧ ∀ g page : Nat, is.pmap.slots[g]? = some (some page) →
      is'.pmap.slots[g]? = some (some page) := by
  cases hresult with
  | found hslot => exact ⟨rfl, fun _ _ hslot => hslot⟩
  | failed hsame hfile hsize => exact ⟨hsize, fun g page hslot => hsame ▸ hslot⟩
  | mapped hnone hslots hfile hsize herrors hfresh hnpgs howns =>
      refine ⟨hsize, fun g page hslot => ?_⟩
      have hne : fOffset / pageSize ≠ g := by
        rintro rfl
        rw [hslot] at hnone
        cases hnone
      rw [hslots, List.getElem?_set_ne hne]
      exact hslot

/-- Every step that keeps apart keeps the accounts and the pages of the objects. -/
theorem Inv.apart_step (hinv : Inv s) {label : Label} (hok : Apart pageSize s label)
    (hstep : PagerSpace.step pageSize s label = some s') : Inv s' ∧ Kept s s' := by
  by_cases hlabel : ∃ id fOffset flag kallocOk, label = .pfBmap id fOffset flag kallocOk
  · obtain ⟨id, fOffset, flag, kallocOk, rfl⟩ := hlabel
    simp only [PagerSpace.step] at hstep
    cases hget : s.get id with
    | none => simp [hget] at hstep
    | some pair =>
        obtain ⟨is, pf⟩ := pair
        obtain ⟨result, is', pf', hbmap, hresult⟩ := bmap_cases hinv hget (hok is pf hget)
        simp only [hget, hbmap, Option.some.injEq] at hstep
        subst hstep
        refine ⟨hinv.pfBmap hget hresult, by simp [State.put], fun id₁ is₁ hobject hlt => ?_⟩
        simp only [State.put] at hobject
        by_cases hid : id₁ = id
        · subst hid
          rw [List.getElem?_set_self hlt] at hobject
          cases hobject
          exact ⟨is, (get_eq_some hget).1, hresult.keeps⟩
        · rw [List.getElem?_set_ne (Ne.symm hid)] at hobject
          exact ⟨is₁, hobject, rfl, fun _ _ hslot => hslot⟩
  · have hother : ∀ id fOffset flag kallocOk, label ≠ .pfBmap id fOffset flag kallocOk :=
      fun id fOffset flag kallocOk heq => hlabel ⟨id, fOffset, flag, kallocOk, heq⟩
    have hinside : Inside pageSize s label := by
      cases label with
      | pfBmap id fOffset flag kallocOk => exact absurd rfl (hother id fOffset flag kallocOk)
      | pfFileInit => trivial
      | pfPagerCreate => trivial
      | pfDealloc => trivial
    obtain ⟨hgrows, hobjects⟩ := step_objects hother hstep
    refine ⟨hinv.step hinside hstep, hgrows, fun id is' hobject hlt => ?_⟩
    rcases hobjects id is' hobject with hsame | hnew
    · exact ⟨is', hsame, rfl, fun _ _ hslot => hslot⟩
    · omega

theorem Inv.apart_run (hinv : Inv s) {labels : List Label}
    (hrun : (machine pageSize).run s labels = some s')
    (hmeets : (machine pageSize).Meets (Apart pageSize) s labels) : Kept s s' := by
  induction labels generalizing s with
  | nil =>
      cases hrun
      exact Kept.refl _
  | cons label rest ih =>
      obtain ⟨middle, hstep, hrest⟩ := Option.bind_eq_some_iff.mp hrun
      obtain ⟨hok, hmeets⟩ := hmeets
      rw [hstep] at hmeets
      obtain ⟨hinv', hkept⟩ := hinv.apart_step hok hstep
      exact hkept.trans (ih hinv' hrest hmeets)

theorem Kept.steady (hkept : Kept s s') : Steady pageSize s s' := by
  intro id is pf is' pf' hget hget' fOffset page hinside hslot flag kallocOk
  obtain ⟨hobject, -⟩ := get_eq_some hget
  obtain ⟨is₁, hobject₁, hsize, hpages⟩ := hkept.pages id is' (get_eq_some hget').1
    (List.getElem?_eq_some_iff.mp hobject).1
  obtain rfl : is = is₁ := Option.some.inj (Option.some.inj (hobject.symm.trans hobject₁))
  exact pfBmap_found pageSize fOffset pf' (by rw [hsize]; exact hinside)
    (hpages _ page hslot) flag kallocOk

/-- In every state reached without going astray behind the last page nothing has faulted,
exactly the calls that are not refused there go astray, and a page once mapped stays where
it is. -/
theorem pageMap_orderly (pageSize : Nat) {s : State}
    (hreach : (machine pageSize).Reachable (Apart pageSize) s) :
    s.faulted = false ∧
      (∀ id is pf, s.get id = some (is, pf) → ∀ fOffset flag kallocOk,
        (Orderly pageSize pf is fOffset flag kallocOk ↔
          (fOffset / pageSize = is.size → Refuses pf is is.size flag kallocOk))) ∧
      ∀ labels s', (machine pageSize).run s labels = some s' →
        (machine pageSize).Meets (Apart pageSize) s labels → Steady pageSize s s' := by
  have hinv : Inv s := hreach.invariant
    (fun s hinit => by
      cases (show s = initial from hinit)
      exact Inv.initial)
    (fun _ _ _ hinv hok hstep => (hinv.apart_step hok hstep).1)
  refine ⟨hinv.faulted, fun id is pf hget fOffset flag kallocOk => ?_,
    fun labels s' hrun hmeets => (hinv.apart_run hrun hmeets).steady⟩
  exact orderly_iff (hinv.owns is.pfInfo pf (get_eq_some hget).2) fOffset flag kallocOk

end Runs

/-- A large object of 300 pages is asked for the page behind its last one. -/
def askBehind : List Label :=
  [.pfFileInit false false false (9 * 4096) 0 (fun _ => 0xaa#8),
    .pfPagerCreate 0 (300 * 4096) true true, .pfBmap 0 (299 * 4096 + 5) .write true,
    .pfBmap 0 (300 * 4096) .read true, .pfBmap 0 (301 * 4096) .write true]

theorem pageMap_orderly_askBehind :
    ∃ s, (machine 4096).run initial askBehind = some s ∧ s.owned 0 = [0] ∧
      s.faulted = false ∧
      (∀ id is pf, s.get id = some (is, pf) → ∀ fOffset flag kallocOk,
        (Orderly 4096 pf is fOffset flag kallocOk ↔
          (fOffset / 4096 = is.size → Refuses pf is is.size flag kallocOk))) ∧
      ∀ labels s', (machine 4096).run s labels = some s' →
        (machine 4096).Meets (Apart 4096) s labels → Steady 4096 s s' := by
  refine ⟨_, rfl, rfl, pageMap_orderly 4096 (Machine.Reachable.of_run askBehind (.init rfl) rfl ?_)⟩
  refine ⟨trivial, trivial, ?_, ?_, ?_, trivial⟩
  · intro is pf hget hend
    cases hget
    exact absurd hend (by decide)
  · intro is pf hget hend
    cases hget
    exact Or.inl rfl
  · intro is pf hget hend
    cases hget
    exact absurd hend (by decide)

/-- In a single table the page behind the last one has no entry. -/
theorem behind_single_table :
    ¬∀ s, (machine 4096).Reachable Machine.always s → ∀ id is pf, s.get id = some (is, pf) →
      ∀ fOffset flag kallocOk, Orderly 4096 pf is fOffset flag kallocOk := by
  intro horderly
  have hreach : (machine 4096).Reachable Machine.always _ := Machine.Reachable.of_run
    [.pfFileInit false false false (9 * 4096) 0 (fun _ => 0#8),
      .pfPagerCreate 0 (8 * 4096) true true] (.init rfl) rfl
    (Machine.meets_of_forall (fun _ _ _ => trivial))
  obtain ⟨result, is', pf', hbmap, -⟩ := horderly _ hreach 0 _ _ rfl (8 * 4096) .read true
  cases hbmap

end MachFormal.InodePager.PagerSpace
