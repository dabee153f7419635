import MachFormal.NetMemory.Scheduler

/-!
# The scheduler for kernels of one page size: units

When all kernels have pages of `u` minimal pages, the minimal pages fall into
units of `u`, and everything the scheduler does for one page stays inside of
one unit.  The minimal pages of a unit look alike, except that only the first
one has a head.  This part follows a page while it is given to a kernel.
-/

namespace MachFormal.NetMemory.OneSize

/-! ## Loops -/

section Loops

variable {σ : Type}

/-- What the turns of `SET_FORALL` establish one after the other holds at its end. -/
theorem setForall_induct {set : σ → BitVec 32} {body : Nat → σ → σ} {P : Nat → σ → Prop}
    {state : σ} (start : P 0 state)
    (turn : ∀ n < 32, ∀ s, P n s → P (n + 1) (if setMember (set s) n then body n s else s)) :
    P 32 (setForall set body state) := by
  have general : ∀ n ≤ 32, P n ((List.range n).foldl
      (fun s elt => if setMember (set s) elt then body elt s else s) state) := by
    intro n
    induction n with
    | zero => exact fun _ => start
    | succ n ih =>
        intro hn
        rw [List.range_succ, List.foldl_append]
        exact turn n (by omega) _ (ih (by omega))
  exact general 32 (le_refl 32)

/-- What the turns over the pages of a unit establish holds at the end of the loop. -/
theorem forPages_induct {body : Nat → σ → σ} {P : Nat → σ → Prop} {first n : Nat} {state : σ}
    (hn : 0 < n) (start : P 0 state)
    (turn : ∀ i < n, ∀ s, P i s → P (i + 1) (body (first + i) s)) :
    P n (forPages first (first + n - 1) body state) := by
  have general : ∀ m ≤ n,
      P m ((List.range' first m).foldl (fun s page => body page s) state) := by
    intro m
    induction m with
    | zero => exact fun _ => start
    | succ m ih =>
        intro hm
        rw [List.range'_1_concat, List.foldl_append]
        exact turn m (by omega) _ (ih (by omega))
  have hlength : first + n - 1 + 1 - first = n := by omega
  rw [forPages, hlength]
  exact general n (le_refl n)

end Loops

/-! ## Units -/

variable {u : Nat}

/-- Change every minimal page of unit `j`. -/
def setUnit (u : Nat) (object : Object) (j : Nat) (change : MinPage → MinPage) : Object :=
  { object with
    minPages := fun page =>
      if page / u = j then change (object.minPages page) else object.minPages page }

theorem unit_div {j i : Nat} (hi : i < u) : (u * j + i) / u = j := by
  rw [Nat.mul_add_div (by omega), Nat.div_eq_of_lt hi, Nat.add_zero]

theorem unit_of_div {j page : Nat} (hu : 0 < u) (hpage : page / u = j) :
    ∃ i < u, page = u * j + i := by
  refine ⟨page % u, Nat.mod_lt page hu, ?_⟩
  rw [← hpage]
  exact (Nat.div_add_mod page u).symm

/-- The loops that change every page of a unit. -/
theorem fold_setPage (hu : 0 < u) (object : Object) (j : Nat) (change : MinPage → MinPage) :
    (List.range' (u * j) u).foldl (fun object page => object.setPage page change) object =
      setUnit u object j change := by
  have general : ∀ m ≤ u,
      (List.range' (u * j) m).foldl (fun object page => object.setPage page change) object =
        { object with
          minPages := fun page =>
            if u * j ≤ page ∧ page < u * j + m then change (object.minPages page)
            else object.minPages page } := by
    intro m
    induction m with
    | zero =>
        intro _
        have hnone : (fun page => if u * j ≤ page ∧ page < u * j + 0 then
            change (object.minPages page) else object.minPages page) = object.minPages := by
          funext page
          rw [if_neg (by omega)]
        rw [hnone]
        rfl
    | succ m ih =>
        intro hm
        rw [List.range'_1_concat, List.foldl_append, ih (by omega)]
        dsimp only [List.foldl_cons, List.foldl_nil, Object.setPage]
        congr 1
        funext page
        by_cases heq : page = u * j + m
        · subst heq
          rw [Function.update_self, if_neg (by omega), if_pos (by omega)]
        · rw [Function.update_of_ne heq]
          by_cases hin : u * j ≤ page ∧ page < u * j + m
          · rw [if_pos hin, if_pos (by omega)]
          · rw [if_neg hin, if_neg (by omega)]
  rw [general u (le_refl u), setUnit]
  congr 1
  funext page
  have hiff : (u * j ≤ page ∧ page < u * j + u) ↔ page / u = j := by
    rw [Nat.div_eq_iff hu]
    rw [Nat.mul_comm]
    omega
  by_cases hin : page / u = j
  · rw [if_pos hin, if_pos (hiff.mpr hin)]
  · rw [if_neg hin, if_neg (fun h => hin (hiff.mp h))]

theorem forPages_setPage (hu : 0 < u) (object : Object) (j : Nat) (change : MinPage → MinPage) :
    forPages (u * j) (u * j + u - 1) (fun page object => object.setPage page change) object =
      setUnit u object j change := by
  have hlength : u * j + u - 1 + 1 - u * j = u := by omega
  rw [forPages, hlength]
  exact fold_setPage hu object j change

/-- How the minimal pages of unit `j` look. -/
structure Looks (u : Nat) (object : Object) (j : Nat) (use : Use) (user : BitVec 32)
    (head tail : Option Nat) : Prop where
  use : ∀ i < u, (object.minPages (u * j + i)).use = use
  user : ∀ i < u, (object.minPages (u * j + i)).user = user
  tail : ∀ i < u, (object.minPages (u * j + i)).tail = tail
  head : (object.minPages (u * j)).head = head
  heads : ∀ i, 0 < i → i < u → (object.minPages (u * j + i)).head = none
  completes : ∀ i < u, (object.minPages (u * j + i)).pendingCompletes = 0

/-- Outside of unit `j` no page changes, no request changes and no acknowledgement is asked
for. -/
structure Grants (u j : Nat) (object object' : Object) : Prop where
  pages : ∀ page, page / u ≠ j → object'.minPages page = object.minPages page
  kerninfo : object'.kerninfo = object.kerninfo
  objectSize : object'.objectSize = object.objectSize
  mark : object'.mark = object.mark
  requests : object'.requests = object.requests
  allocated : object'.allocated = object.allocated
  freeRequests : object'.freeRequests = object.freeRequests
  outstanding : object'.outstanding = object.outstanding
  sent : ∃ new, object'.sent = new ++ object.sent ∧ ∀ message ∈ new, message.kind ≠ .lockWriter

section Granting

variable {j : Nat} {object object' object'' : Object} {use : Use} {user : BitVec 32}
  {head tail : Option Nat}

theorem Grants.refl (u j : Nat) (object : Object) : Grants u j object object where
  pages := fun _ _ => rfl
  kerninfo := rfl
  objectSize := rfl
  mark := rfl
  requests := rfl
  allocated := rfl
  freeRequests := rfl
  outstanding := rfl
  sent := ⟨[], rfl, by simp⟩

theorem Grants.trans (first : Grants u j object object') (second : Grants u j object' object'') :
    Grants u j object object'' where
  pages := fun page hpage => (second.pages page hpage).trans (first.pages page hpage)
  kerninfo := second.kerninfo.trans first.kerninfo
  objectSize := second.objectSize.trans first.objectSize
  mark := second.mark.trans first.mark
  requests := second.requests.trans first.requests
  allocated := second.allocated.trans first.allocated
  freeRequests := second.freeRequests.trans first.freeRequests
  outstanding := second.outstanding.trans first.outstanding
  sent := by
    obtain ⟨new, hnew, hkind⟩ := first.sent
    obtain ⟨newer, hnewer, hkind'⟩ := second.sent
    refine ⟨newer ++ new, by rw [hnewer, hnew, List.append_assoc], fun message hin => ?_⟩
    rcases List.mem_append.mp hin with hin | hin
    · exact hkind' message hin
    · exact hkind message hin

theorem Grants.setUnit (change : MinPage → MinPage) :
    Grants u j object (setUnit u object j change) :=
  { Grants.refl u j object with pages := fun _ hpage => if_neg hpage }

theorem Grants.setPage {page : Nat} (hpage : page / u = j) (change : MinPage → MinPage) :
    Grants u j object (object.setPage page change) :=
  { Grants.refl u j object with
    pages := fun other hother => Function.update_of_ne
      (fun heq : other = page => hother (by rw [heq]; exact hpage)) _ _ }

theorem Grants.send (kernel offset length : Nat) {kind : Kind} (hkind : kind ≠ .lockWriter) :
    Grants u j object (object.send kernel kind offset length) :=
  { Grants.refl u j object with
    sent := ⟨[_], rfl, fun message hin => by rw [List.mem_singleton.mp hin]; exact hkind⟩ }

theorem Grants.dataProvided (kernel offset : Nat) {prot : Kind} (hprot : prot ≠ .lockWriter) :
    Grants u j object (object.dataProvided kernel offset prot) := by
  have pieces : ∀ (list : List Nat) (size : Nat) (object : Object), Grants u j object
      (list.foldl (fun object piece => object.send kernel prot (offset + piece * size) size)
        object) := by
    intro list size
    induction list with
    | nil => exact fun object => Grants.refl u j object
    | cons piece rest ih =>
        intro object
        exact (Grants.send kernel _ _ hprot).trans (ih _)
  unfold Object.dataProvided
  dsimp only
  split
  · exact pieces _ _ object
  · exact Grants.send kernel _ _ hprot

/-- What counts for the looks of a unit; the sets of waiters do not. -/
def view (page : MinPage) : Use × BitVec 32 × Option Nat × Option Nat × BitVec 32 :=
  (page.use, page.user, page.head, page.tail, page.pendingCompletes)

theorem Looks.of_view (looks : Looks u object j use user head tail) (hu : 0 < u)
    (hview : ∀ i < u, view (object'.minPages (u * j + i)) = view (object.minPages (u * j + i))) :
    Looks u object' j use user head tail := by
  simp only [view, Prod.mk.injEq] at hview
  refine ⟨fun i hi => ?_, fun i hi => ?_, fun i hi => ?_, ?_, fun i hpos hi => ?_, fun i hi => ?_⟩
  · rw [(hview i hi).1]; exact looks.use i hi
  · rw [(hview i hi).2.1]; exact looks.user i hi
  · rw [(hview i hi).2.2.2.1]; exact looks.tail i hi
  · have h0 := (hview 0 hu).2.2.1
    rw [Nat.add_zero] at h0
    rw [h0]
    exact looks.head
  · rw [(hview i hi).2.2.1]; exact looks.heads i hpos hi
  · rw [(hview i hi).2.2.2.2]; exact looks.completes i hi

theorem dataProvided_minPages (object : Object) (kernel offset : Nat) (prot : Kind) :
    (object.dataProvided kernel offset prot).minPages = object.minPages := by
  have pieces : ∀ (list : List Nat) (size : Nat) (object : Object),
      (list.foldl (fun object piece => object.send kernel prot (offset + piece * size) size)
        object).minPages = object.minPages := by
    intro list size
    induction list with
    | nil => exact fun object => rfl
    | cons piece rest ih => exact fun object => ih _
  unfold Object.dataProvided
  dsimp only
  split
  · exact pieces _ _ object
  · rfl

theorem Looks.dataProvided (looks : Looks u object j use user head tail) (hu : 0 < u)
    (kernel offset : Nat) (prot : Kind) :
    Looks u (object.dataProvided kernel offset prot) j use user head tail :=
  looks.of_view hu (fun i _ => by rw [dataProvided_minPages])

theorem Looks.send (looks : Looks u object j use user head tail) (hu : 0 < u)
    (kernel : Nat) (kind : Kind) (offset length : Nat) :
    Looks u (object.send kernel kind offset length) j use user head tail :=
  looks.of_view hu (fun _ _ => rfl)

/-- A change of `use` and `user` alone. -/
theorem Looks.setUnit (looks : Looks u object j use user head tail) (hu : 0 < u)
    {change : MinPage → MinPage} {use' : Use} {user' : BitVec 32}
    (huse : ∀ page : MinPage, page.use = use → (change page).use = use')
    (huser : ∀ page : MinPage, page.use = use → page.user = user → (change page).user = user')
    (hrest : ∀ page : MinPage, (change page).head = page.head ∧ (change page).tail = page.tail ∧
      (change page).pendingCompletes = page.pendingCompletes) :
    Looks u (OneSize.setUnit u object j change) j use' user' head tail := by
  have hpage : ∀ i < u, (OneSize.setUnit u object j change).minPages (u * j + i) =
      change (object.minPages (u * j + i)) := fun i hi => if_pos (unit_div hi)
  refine ⟨fun i hi => ?_, fun i hi => ?_, fun i hi => ?_, ?_, fun i hpos hi => ?_, fun i hi => ?_⟩
  · rw [hpage i hi]
    exact huse _ (looks.use i hi)
  · rw [hpage i hi]
    exact huser _ (looks.use i hi) (looks.user i hi)
  · rw [hpage i hi, (hrest _).2.1]
    exact looks.tail i hi
  · have h0 := hpage 0 hu
    rw [Nat.add_zero] at h0
    rw [h0, (hrest _).1]
    exact looks.head
  · rw [hpage i hi, (hrest _).1]
    exact looks.heads i hpos hi
  · rw [hpage i hi, (hrest _).2.2]
    exact looks.completes i hi

/-- A change of the sets of waiters alone. -/
theorem view_setPage (object : Object) (page : Nat) {change : MinPage → MinPage}
    (hview : ∀ page : MinPage, view (change page) = view page) (other : Nat) :
    view ((object.setPage page change).minPages other) = view (object.minPages other) := by
  dsimp only [Object.setPage]
  by_cases heq : other = page
  · subst heq
    rw [Function.update_self]
    exact hview _
  · rw [Function.update_of_ne heq]

theorem Looks.setPage (looks : Looks u object j use user head tail) (hu : 0 < u) (page : Nat)
    {change : MinPage → MinPage} (hview : ∀ page : MinPage, view (change page) = view page) :
    Looks u (object.setPage page change) j use user head tail :=
  looks.of_view hu (fun _ _ => view_setPage object page hview _)

theorem Looks.setHead (looks : Looks u object j use user head tail) (head' : Option Nat) :
    Looks u (object.setPage (u * j) (fun page => { page with head := head' })) j use user head'
      tail := by
  have hfirst :
      (object.setPage (u * j) (fun page => { page with head := head' })).minPages (u * j) =
        { object.minPages (u * j) with head := head' } := Function.update_self _ _ _
  have hother : ∀ i, 0 < i →
      (object.setPage (u * j) (fun page => { page with head := head' })).minPages (u * j + i) =
        object.minPages (u * j + i) := fun i hi => Function.update_of_ne (by omega) _ _
  have hview : ∀ i < u, ∃ head'',
      (object.setPage (u * j) (fun page => { page with head := head' })).minPages (u * j + i) =
        { object.minPages (u * j + i) with head := head'' } := by
    intro i hi
    rcases Nat.eq_zero_or_pos i with rfl | hpos
    · exact ⟨head', hfirst⟩
    · exact ⟨_, hother i hpos⟩
  refine ⟨fun i hi => ?_, fun i hi => ?_, fun i hi => ?_, by rw [hfirst], fun i hpos hi => ?_,
    fun i hi => ?_⟩
  · obtain ⟨_, heq⟩ := hview i hi
    rw [heq]
    exact looks.use i hi
  · obtain ⟨_, heq⟩ := hview i hi
    rw [heq]
    exact looks.user i hi
  · obtain ⟨_, heq⟩ := hview i hi
    rw [heq]
    exact looks.tail i hi
  · rw [hother i hpos]
    exact looks.heads i hpos hi
  · obtain ⟨_, heq⟩ := hview i hi
    rw [heq]
    exact looks.completes i hi

/-- The looks of the other units. -/
theorem Grants.looks (grants : Grants u j object object') (hu : 0 < u) {j' : Nat} (hne : j' ≠ j)
    (looks : Looks u object j' use user head tail) : Looks u object' j' use user head tail :=
  looks.of_view hu (fun i hi => by rw [grants.pages _ (by rw [unit_div hi]; exact hne)])

end Granting

/-! ## Granting a page -/

theorem setMember_setAdd (set : BitVec 32) {elt kernel : Nat} (hkernel : kernel < 32) :
    setMember (setAdd set elt) kernel = (setMember set kernel || decide (elt = kernel)) := by
  unfold setMember setAdd
  rw [BitVec.getLsbD_or, BitVec.getLsbD_twoPow]
  by_cases heq : elt = kernel
  · simp [heq, hkernel]
  · simp [heq]

theorem setMember_setDelete (set : BitVec 32) {elt kernel : Nat} (hkernel : kernel < 32) :
    setMember (setDelete set elt) kernel = (setMember set kernel && decide (elt ≠ kernel)) := by
  unfold setMember setDelete
  rw [BitVec.getLsbD_and, BitVec.getLsbD_not, BitVec.getLsbD_twoPow]
  by_cases heq : elt = kernel
  · simp [heq, hkernel]
  · simp [heq, hkernel]

/-- `user.writer` of a page. -/
def writerOf (user : BitVec 32) : Nat := (user.setWidth 16).toNat

/-- The kernel uses the object. -/
def Attached (object : Object) (kernel : Nat) : Prop :=
  kernel < maxNumKernels ∧ (object.kerninfo kernel).requestPort ≠ 0

/-- All kernels have pages of `u` minimal pages. -/
def Sized (u : Nat) (object : Object) : Prop :=
  ∀ kernel, Attached object kernel → (object.kerninfo kernel).pageSize = u * minPageSize

/-- The readers of a page are attached. -/
def Readers (object : Object) (use : Use) (user : BitVec 32) : Prop :=
  use = .read → ∀ kernel < 32, setMember user kernel = true → Attached object kernel

section Grant

variable {j kernel : Nat} {object : Object} {use : Use} {user : BitVec 32}
  {head tail : Option Nat}

theorem addReader_grants (hu : 0 < u) (looks : Looks u object j use user head tail)
    (huse : use ≠ .write) (readers : Readers object use user) (hkernel : Attached object kernel) :
    Grants u j object (object.addReader (u * j) (u * j + u - 1) kernel) ∧
      ∃ user', Looks u (object.addReader (u * j) (u * j + u - 1) kernel) j .read user' head tail ∧
        Readers object .read user' := by
  unfold Object.addReader
  rw [forPages_setPage hu]
  refine ⟨(Grants.setUnit _).trans (Grants.dataProvided _ _ (by decide)),
    setAdd (if use = .none then 0 else user) kernel, ?_, fun _ k hk hmember => ?_⟩
  · refine Looks.dataProvided ?_ hu _ _ _
    refine looks.setUnit hu (fun page h => ?_) (fun page h h' => ?_)
      (fun page => ⟨rfl, rfl, rfl⟩)
    · dsimp only
      rw [h]
      cases use with
      | none => rfl
      | read => rfl
      | write => exact absurd rfl huse
    · dsimp only
      rw [h, h']
  · rw [setMember_setAdd _ hk, Bool.or_eq_true, decide_eq_true_eq] at hmember
    rcases hmember with hmember | rfl
    · cases use with
      | none => simp [setMember] at hmember
      | read => exact readers rfl k hk hmember
      | write => exact absurd rfl huse
    · exact hkernel

/-- No reader has larger pages. -/
theorem bootBiggerReaders_eq (hu : 0 < u) (sized : Sized u object)
    (looks : Looks u object j use user head tail) (readers : Readers object use user)
    (hkernel : Attached object kernel) :
    object.bootBiggerReaders (u * j) kernel = object := by
  unfold Object.bootBiggerReaders
  dsimp only
  have huse := looks.use 0 hu
  have huser := looks.user 0 hu
  rw [Nat.add_zero] at huse huser
  split
  · next hread =>
      refine setForall_induct (P := fun _ s => s = object) rfl (fun n hn s hs => ?_)
      subst hs
      split
      · next hmember =>
          dsimp only [MinPage.readers] at hmember
          rw [huser] at hmember
          have hattached := readers (huse.symm.trans hread) n hn hmember
          rw [sized n hattached, sized kernel hkernel, if_neg (Nat.lt_irrefl _)]
      · rfl
  · rfl

/-- The eviction of a reader takes it out of the set of every page of its unit. -/
theorem bootReader_eq (hu : 0 < u) (object : Object) (reader : Nat) :
    object.bootReader reader (pageToOffset (u * j)) (u * minPageSize) =
      (setUnit u object j (fun page => { page with user := setDelete page.readers reader })).send
        reader .lockReader (pageToOffset (u * j)) (u * minPageSize) := by
  have hpos : 0 < minPageSize := by decide
  have hstart : pageToOffset (u * j) / minPageSize = u * j := Nat.mul_div_cancel _ hpos
  have hstop : (pageToOffset (u * j) + u * minPageSize) / minPageSize = u * j + u := by
    rw [pageToOffset, ← Nat.add_mul, Nat.mul_div_cancel _ hpos]
  unfold Object.bootReader
  dsimp only
  rw [hstart, hstop, Nat.add_sub_cancel_left, fold_setPage hu]

/-- What the second loop of `add_writer` keeps. -/
structure Booting (u : Nat) (object : Object) (j kernel : Nat) (use : Use)
    (head tail : Option Nat) (gone : Nat → Prop) (state : Object × Bool) : Prop where
  grants : Grants u j object state.1
  looks : ∃ user, Looks u state.1 j use user head tail ∧ Readers object use user ∧
    ∀ reader < 32, gone reader → reader ≠ kernel → use = .read → setMember user reader = false

theorem bootReaders_grants (hu : 0 < u) (sized : Sized u object)
    (looks : Looks u object j use user head tail) (readers : Readers object use user) :
    Booting u object j kernel use head tail (fun _ => True)
      (object.bootReaders (u * j) (u * j + u - 1) kernel) := by
  have whole : Booting u object j kernel use head tail (fun _ => 0 < u)
      (object.bootReaders (u * j) (u * j + u - 1) kernel) := by
    refine forPages_induct (P := fun i state =>
      Booting u object j kernel use head tail (fun _ => 0 < i) state) hu
      ⟨Grants.refl u j object, user, looks, readers, fun _ _ h => absurd h (by omega)⟩
      (fun i hi state booting => ?_)
    obtain ⟨user₁, looks₁, readers₁, gone₁⟩ := booting.looks
    by_cases hread : use = .read
    · rw [if_pos ((looks₁.use i hi).trans hread)]
      have inner : Booting u object j kernel use head tail (fun reader => 0 < i ∨ reader < 32)
          (setForall (fun state : Object × Bool => (state.1.minPages (u * j + i)).readers)
            (fun reader state =>
              if reader = kernel then (state.1, true)
              else (state.1.bootReader reader (pageToOffset (u * j + i))
                (state.1.kerninfo reader).pageSize, state.2)) state) := by
        refine setForall_induct (P := fun n state =>
          Booting u object j kernel use head tail (fun reader => 0 < i ∨ reader < n) state)
          ⟨booting.grants, user₁, looks₁, readers₁, fun r hr h => gone₁ r hr (by omega)⟩ ?_
        intro n hn st step
        obtain ⟨user₂, looks₂, readers₂, gone₂⟩ := step.looks
        have hset : (st.1.minPages (u * j + i)).readers = user₂ := looks₂.user i hi
        rw [hset]
        split
        · next hmember =>
            split
            · next hself =>
                refine ⟨step.grants, user₂, looks₂, readers₂, fun r hr h hne => ?_⟩
                exact gone₂ r hr (by omega) hne
            · next hother =>
                -- only at the first page of the unit a reader is left
                have hfirst : i = 0 := by
                  by_contra hi0
                  have := gone₂ n hn (Or.inl (by omega)) hother hread
                  rw [hmember] at this
                  cases this
                subst hfirst
                have hattached := readers₂ hread n hn hmember
                have hsize : (st.1.kerninfo n).pageSize = u * minPageSize := by
                  rw [step.grants.kerninfo]
                  exact sized n hattached
                have hpage : u * j + 0 = u * j := Nat.add_zero _
                rw [hpage, hsize, bootReader_eq hu]
                refine ⟨step.grants.trans ((Grants.setUnit _).trans
                  (Grants.send _ _ _ (by decide))), setDelete user₂ n, ?_, ?_, ?_⟩
                · refine Looks.send ?_ hu _ _ _ _
                  refine looks₂.setUnit hu (fun page h => h) (fun page _ h => ?_)
                    (fun page => ⟨rfl, rfl, rfl⟩)
                  dsimp only [MinPage.readers]
                  rw [h]
                · intro hr k hk hmem
                  rw [setMember_setDelete _ hk, Bool.and_eq_true] at hmem
                  exact readers₂ hr k hk hmem.1
                · intro r hr hgone hne huse
                  rw [setMember_setDelete _ hr]
                  by_cases heq : n = r
                  · simp [heq]
                  · rw [gone₂ r hr (by omega) hne huse]
                    rfl
        · next hmember =>
            refine ⟨step.grants, user₂, looks₂, readers₂, fun r hr h hne huse => ?_⟩
            by_cases heq : r = n
            · subst heq
              simpa using hmember
            · exact gone₂ r hr (by omega) hne huse
      exact ⟨inner.grants, inner.looks.imp (fun user₂ h =>
        ⟨h.1, h.2.1, fun r hr _ => h.2.2 r hr (Or.inr hr)⟩)⟩
    · rw [if_neg (fun h => hread ((looks₁.use i hi).symm.trans h))]
      exact ⟨booting.grants, user₁, looks₁, readers₁, fun _ _ _ _ huse => absurd huse hread⟩
  exact ⟨whole.grants, whole.looks.imp (fun user₂ h =>
    ⟨h.1, h.2.1, fun r hr _ => h.2.2 r hr hu⟩)⟩

theorem writerOf_setWriter (user : BitVec 32) {kernel : Nat} (hkernel : kernel < maxNumKernels) :
    writerOf (user.extractLsb' 16 16 ++ BitVec.ofNat 16 kernel) = kernel := by
  unfold writerOf
  unfold maxNumKernels at hkernel
  have hlow : (user.extractLsb' 16 16 ++ BitVec.ofNat 16 kernel).setWidth 16 =
      BitVec.ofNat 16 kernel := BitVec.setWidth_append_eq_right
  rw [hlow, BitVec.toNat_ofNat, Nat.mod_eq_of_lt (by omega)]

theorem addWriter_grants (hu : 0 < u) (sized : Sized u object)
    (looks : Looks u object j use user head tail) (readers : Readers object use user)
    (hkernel : Attached object kernel) (needsData : Bool) :
    Grants u j object (object.addWriter (u * j) (u * j + u - 1) kernel needsData) ∧
      ∃ user', Looks u (object.addWriter (u * j) (u * j + u - 1) kernel needsData) j .write user'
          head tail ∧ writerOf user' = kernel := by
  unfold Object.addWriter
  rw [bootBiggerReaders_eq hu sized looks readers hkernel]
  have booting : Booting u object j kernel use head tail (fun _ => True)
      (object.bootReaders (u * j) (u * j + u - 1) kernel) :=
    bootReaders_grants hu sized looks readers
  obtain ⟨user₁, looks₁, -⟩ := booting.looks
  dsimp only
  rw [forPages_setPage hu]
  have written : Looks u (setUnit u (object.bootReaders (u * j) (u * j + u - 1) kernel).1 j
      (fun minPage => { minPage.setWriter kernel with use := .write })) j .write
      (user₁.extractLsb' 16 16 ++ BitVec.ofNat 16 kernel) head tail := by
    refine looks₁.setUnit hu (fun _ _ => rfl) (fun page _ h => ?_) (fun _ => ⟨rfl, rfl, rfl⟩)
    dsimp only [MinPage.setWriter]
    rw [h]
  split
  · refine ⟨booting.grants.trans ((Grants.setUnit _).trans (Grants.dataProvided _ _ (by decide))),
      _, written.dataProvided hu _ _ _, ?_⟩
    exact writerOf_setWriter user₁ hkernel.1
  · refine ⟨booting.grants.trans ((Grants.setUnit _).trans (Grants.send _ _ _ (by decide))),
      _, written.send hu _ _ _ _, ?_⟩
    exact writerOf_setWriter user₁ hkernel.1

/-- What one page given to a kernel looks like. -/
structure Given (u : Nat) (object object' : Object) (j kernel : Nat) (use : Use)
    (head tail : Option Nat) : Prop where
  grants : Grants u j object object'
  looks : ∃ user, Looks u object' j use user head tail ∧
    (use = .write → writerOf user = kernel) ∧ Readers object use user

/-- A kernel no longer waits for a page. -/
def served (kernel : Nat) (page : MinPage) : MinPage :=
  { page with
    writeWaiters := setDelete page.writeWaiters kernel
    dataWaiters := setDelete page.dataWaiters kernel }

theorem satisfyKernel_eq (object : Object) (kernel first last : Nat) :
    object.satisfyKernel kernel first last =
      if setMember (object.minPages first).writeWaiters kernel then
        ((object.setPage first (served kernel)).addWriter first last kernel
          (setMember (object.minPages first).dataWaiters kernel), .write)
      else ((object.setPage first (served kernel)).addReader first last kernel, .read) := by
  unfold Object.satisfyKernel
  dsimp only
  split
  · rfl
  · rfl

theorem satisfyKernel_given (hu : 0 < u) (sized : Sized u object)
    (looks : Looks u object j use user head tail) (huse : use ≠ .write)
    (readers : Readers object use user) (hkernel : Attached object kernel) :
    Given u object (object.satisfyKernel kernel (u * j) (u * j + u - 1)).1 j kernel
      (object.satisfyKernel kernel (u * j) (u * j + u - 1)).2 head tail := by
  have hdiv : u * j / u = j := Nat.mul_div_cancel_left j hu
  have grants : Grants u j object (object.setPage (u * j) (served kernel)) :=
    Grants.setPage hdiv _
  have looks₁ : Looks u (object.setPage (u * j) (served kernel)) j use user head tail :=
    looks.setPage hu (u * j) (fun _ => rfl)
  have sized₁ : Sized u (object.setPage (u * j) (served kernel)) := sized
  rw [satisfyKernel_eq]
  split
  · obtain ⟨granted, user', looks', hwriter⟩ := addWriter_grants hu sized₁ looks₁ readers hkernel
      (setMember (object.minPages (u * j)).dataWaiters kernel)
    exact ⟨grants.trans granted, user', looks', fun _ => hwriter, nofun⟩
  · obtain ⟨granted, user', looks', readers'⟩ := addReader_grants hu looks₁ huse readers hkernel
    exact ⟨grants.trans granted, user', looks', nofun, readers'⟩

/-- The tails of a request that leaves are cleared. -/
def clearTail (r : Nat) (page : MinPage) : MinPage :=
  { page with tail := if page.tail = some r then none else page.tail }

theorem Looks.clearTail (looks : Looks u object j use user head tail) (hu : 0 < u) (r : Nat) :
    Looks u (OneSize.setUnit u object j (OneSize.clearTail r)) j use user head
      (if tail = some r then none else tail) := by
  have hpage : ∀ i < u, (OneSize.setUnit u object j (OneSize.clearTail r)).minPages (u * j + i) =
      OneSize.clearTail r (object.minPages (u * j + i)) := fun i hi => if_pos (unit_div hi)
  refine ⟨fun i hi => ?_, fun i hi => ?_, fun i hi => ?_, ?_, fun i hpos hi => ?_, fun i hi => ?_⟩
  · rw [hpage i hi]
    exact looks.use i hi
  · rw [hpage i hi]
    exact looks.user i hi
  · rw [hpage i hi, OneSize.clearTail, looks.tail i hi]
  · have h0 := hpage 0 hu
    rw [Nat.add_zero] at h0
    rw [h0]
    exact looks.head
  · rw [hpage i hi]
    exact looks.heads i hpos hi
  · rw [hpage i hi]
    exact looks.completes i hi

theorem Given.clearTail {object' : Object} (given : Given u object object' j kernel use head tail)
    (hu : 0 < u) (r : Nat) :
    Given u object (OneSize.setUnit u object' j (OneSize.clearTail r)) j kernel use head
      (if tail = some r then none else tail) := by
  obtain ⟨user, looks, hwriter, readers⟩ := given.looks
  exact ⟨given.grants.trans (Grants.setUnit _), user, looks.clearTail hu r, hwriter, readers⟩

end Grant

end MachFormal.NetMemory.OneSize
