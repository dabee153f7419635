import MachFormal.EnvMgr.Contexts

/-!
# Sharing a table cannot be observed

The abstract content of the manager is what every context sees, the ports of
the port table, and the references to a port that no table accounts for.
Copying a table does not change it.  The manager that shares tables and the
reference manager that copies them at once therefore stay related as long as
no call changes a shared table.
-/

namespace MachFormal.EnvMgr

/-- What a context sees: its table and its ports. -/
structure View where
  table : Table
  rwport : Nat
  roport : Nat
  deriving DecidableEq, Repr

def viewOf (s : State) (context : Context) : View :=
  ⟨(headAt s context.head).table, context.rwport, context.roport⟩

def views (s : State) : List (Option View) :=
  s.contexts.map (Option.map (viewOf s))

/-- The ports of the contexts. -/
def ears (s : State) : List (Option (Nat × Nat)) :=
  s.contexts.map (Option.map (fun c => (c.rwport, c.roport)))

def headUses (i : Nat) (head : Option HashHead) : Nat :=
  head.elim 0 (fun hashHead => uses hashHead.table i)

/-- The references to a port that the tables account for. -/
def total (s : State) (i : Nat) : Nat :=
  (s.heads.map (headUses i)).sum

/-- The references no table accounts for: the standard ports, and the variables of tables that
were freed. -/
def base (s : State) (i : Nat) : Int :=
  refAt s.ports i - total s i

def uses? (head : Nat) (context : Option Context) : Bool :=
  context.elim false (fun c => c.head == head)

/-- Every context has a table, every table counts the contexts that use it and is used, and
every variable is counted by its port. -/
structure Inv (s : State) : Prop where
  live : ∀ {cx : Nat} {c : Context}, s.contexts[cx]? = some (some c) → ∃ h, s.heads[c.head]? = some (some h)
  counted : ∀ {a : Nat} {h : HashHead}, s.heads[a]? = some (some h) →
    h.refcnt = s.contexts.countP (uses? a) ∧ 0 < s.contexts.countP (uses? a)
  tidy : ∀ {a : Nat} {h : HashHead}, s.heads[a]? = some (some h) → Tidy h.table
  base_nonneg : ∀ i < s.ports.length, 0 ≤ base s i

/-- No table is shared. -/
def Unshared (s : State) : Prop :=
  ∀ {a : Nat} {h : HashHead}, s.heads[a]? = some (some h) → h.refcnt = 1

/-- Equal abstract contents. -/
structure Equiv (s t : State) : Prop where
  views : views s = views t
  pts : s.ports.map PortEnt.pt = t.ports.map PortEnt.pt
  base : ∀ i < s.ports.length, base s i = base t i

section Basics

variable {s t : State} {cx a : Nat} {c : Context} {h : HashHead}

theorem contextAt_eq (hc : s.contexts[cx]? = some (some c)) : contextAt s cx = c := by
  simp [contextAt, hc]

theorem headAt_eq (hh : s.heads[a]? = some (some h)) : headAt s a = h := by
  simp [headAt, hh]

theorem views_getElem? (s : State) (cx : Nat) :
    (views s)[cx]? = (s.contexts[cx]?).map (Option.map (viewOf s)) := by
  simp [views]

theorem Equiv.refl (s : State) : Equiv s s :=
  ⟨rfl, rfl, fun _ _ => rfl⟩

theorem Equiv.symm (hst : Equiv s t) : Equiv t s := by
  have hlength : s.ports.length = t.ports.length := by
    simpa using congrArg List.length hst.pts
  exact ⟨hst.views.symm, hst.pts.symm, fun i hi => (hst.base i (hlength ▸ hi)).symm⟩

theorem Equiv.trans {u : State} (hst : Equiv s t) (htu : Equiv t u) : Equiv s u := by
  have hlength : s.ports.length = t.ports.length := by
    simpa using congrArg List.length hst.pts
  exact ⟨hst.views.trans htu.views, hst.pts.trans htu.pts,
    fun i hi => (hst.base i hi).trans (htu.base i (hlength ▸ hi))⟩

theorem Equiv.length_eq (hst : Equiv s t) : s.ports.length = t.ports.length := by
  simpa using congrArg List.length hst.pts

/-- A context in use in one of two equivalent states is in use in the other and sees the
same. -/
theorem Equiv.context (hst : Equiv s t) (hc : s.contexts[cx]? = some (some c)) :
    ∃ c', t.contexts[cx]? = some (some c') ∧ viewOf s c = viewOf t c' := by
  have hview := congrArg (fun vs : List (Option View) => vs[cx]?) hst.views
  simp only [views_getElem?, hc, Option.map_some] at hview
  cases hc' : t.contexts[cx]? with
  | none => simp [hc'] at hview
  | some o =>
      cases o with
      | none => simp [hc'] at hview
      | some c' =>
          simp only [hc', Option.map_some, Option.some.injEq] at hview
          exact ⟨c', rfl, hview⟩

end Basics

/-! ## Copying a table -/

theorem addUses_spec (entries : List HashEntry) (ports : Ports) :
    (addUses entries ports).map PortEnt.pt = ports.map PortEnt.pt ∧
      ∀ k < ports.length, refAt (addUses entries ports) k = refAt ports k + chainUses entries k := by
  induction entries generalizing ports with
  | nil => exact ⟨rfl, fun k _ => by simp [addUses, chainUses]⟩
  | cons entry entries ih =>
      cases hval : entry.envval with
      | str value =>
          have hstep : addUses (entry :: entries) ports = addUses entries ports := by
            simp [addUses, hval]
          obtain ⟨hpts, hcount⟩ := ih ports
          rw [hstep]
          refine ⟨hpts, fun k hk => ?_⟩
          rw [hcount k hk]
          simp [hval]
      | port pi =>
          have hstep : addUses (entry :: entries) ports = addUses entries
              (ports.modify pi (fun e => { e with refcnt := e.refcnt + 1 })) := by
            simp [addUses, hval]
          obtain ⟨hpts, hcount⟩ := ih (ports.modify pi (fun e => { e with refcnt := e.refcnt + 1 }))
          rw [hstep]
          refine ⟨?_, fun k hk => ?_⟩
          · rw [hpts, map_pt_modify _ _ _ id (fun _ => rfl), List.modify_id]
          · rw [hcount k (by simpa using hk)]
            by_cases hpi : pi < ports.length
            · rw [refAt_modify _ hpi]
              by_cases hki : k = pi
              · subst hki
                simp [hval, refAt_eq hpi]
                omega
              · simp [hki, hval, refers, Ne.symm hki]
            · have hne : pi ≠ k := by omega
              rw [refAt_modify_of_length_le _ (by omega)]
              simp [hval, refers, hne]

section Copy

variable {s : State} {cx : Nat} {c : Context} {h : HashHead}

theorem Inv.head_lt (hs : Inv s) (hc : s.contexts[cx]? = some (some c)) :
    c.head < s.heads.length := by
  obtain ⟨h, hh⟩ := hs.live hc
  exact (List.getElem?_eq_some_iff.mp hh).1

/-- A fresh address is used by no context. -/
theorem Inv.countP_fresh (hs : Inv s) : s.contexts.countP (uses? s.heads.length) = 0 := by
  rw [List.countP_eq_zero]
  intro o ho
  cases o with
  | none => simp [uses?]
  | some c =>
      obtain ⟨cx, hcx⟩ := List.mem_iff_getElem?.mp ho
      have hlt := hs.head_lt hcx
      simp [uses?]
      omega

theorem copyHashTable_heads (hc : s.contexts[cx]? = some (some c))
    (hh : s.heads[c.head]? = some (some h)) (a : Nat) :
    (copyHashTable s cx).heads[a]? =
      if a = s.heads.length then some (some ⟨1, h.table⟩)
      else if a = c.head then some (some { h with refcnt := h.refcnt - 1 })
      else s.heads[a]? := by
  have hlt := (List.getElem?_eq_some_iff.mp hh).1
  simp only [copyHashTable, contextAt_eq hc, headAt_eq hh]
  rw [List.getElem?_append]
  simp only [List.length_set]
  split
  · next hlow =>
      rw [List.getElem?_set, if_neg (show ¬ a = s.heads.length by omega)]
      by_cases ha : a = c.head
      · subst ha
        simp [hlt]
      · simp [ha, Ne.symm ha]
  · by_cases ha : a = s.heads.length
    · subst ha
      simp
    · have hge : ¬ a < s.heads.length + 1 := by omega
      have hne : a ≠ c.head := by omega
      simp only [ha, hne, if_false]
      rw [List.getElem?_eq_none (by simp; omega), List.getElem?_eq_none (by omega)]

theorem copyHashTable_contexts (hc : s.contexts[cx]? = some (some c)) (d : Nat) :
    (copyHashTable s cx).contexts[d]? =
      if d = cx then some (some { c with head := s.heads.length }) else s.contexts[d]? := by
  have hlt := (List.getElem?_eq_some_iff.mp hc).1
  simp only [copyHashTable, contextAt_eq hc, List.getElem?_set]
  by_cases hd : d = cx
  · subst hd
    simp [hlt]
  · simp [hd, Ne.symm hd]

theorem total_copyHashTable (hc : s.contexts[cx]? = some (some c))
    (hh : s.heads[c.head]? = some (some h)) (i : Nat) :
    total (copyHashTable s cx) i = total s i + uses h.table i := by
  have hset : ((s.heads.set c.head (some { h with refcnt := h.refcnt - 1 })).map (headUses i)).sum +
      headUses i (some h) = _ := Library.sum_map_set (headUses i) hh
  simp only [headUses, Option.elim_some] at hset
  simp only [total, copyHashTable, contextAt_eq hc, headAt_eq hh, List.map_append, List.sum_append,
    List.map_cons, List.map_nil, List.sum_cons, List.sum_nil]
  simp only [headUses, Option.elim_some]
  omega

theorem base_copyHashTable (hc : s.contexts[cx]? = some (some c))
    (hh : s.heads[c.head]? = some (some h)) {i : Nat} (hi : i < s.ports.length) :
    base (copyHashTable s cx) i = base s i := by
  have hrefs : refAt (copyHashTable s cx).ports i = refAt s.ports i + uses h.table i := by
    simp only [copyHashTable, contextAt_eq hc, headAt_eq hh]
    exact (addUses_spec h.table.flatten s.ports).2 i hi
  unfold base
  rw [hrefs, total_copyHashTable hc hh]
  push_cast
  ring

theorem views_copyHashTable (hs : Inv s) (hc : s.contexts[cx]? = some (some c))
    (hh : s.heads[c.head]? = some (some h)) : views (copyHashTable s cx) = views s := by
  refine List.ext_getElem? (fun d => ?_)
  rw [views_getElem?, views_getElem?, copyHashTable_contexts hc]
  by_cases hd : d = cx
  · subst hd
    rw [if_pos rfl, hc]
    simp only [Option.map_some, viewOf, Option.some.injEq, View.mk.injEq, and_true]
    rw [headAt_eq (h := ⟨1, h.table⟩) (by rw [copyHashTable_heads hc hh, if_pos rfl]), headAt_eq hh]
  · rw [if_neg hd]
    cases ho : s.contexts[d]? with
    | none => rfl
    | some o =>
        cases o with
        | none => rfl
        | some c' =>
            have hne : c'.head ≠ s.heads.length := (hs.head_lt ho).ne
            obtain ⟨h', hh'⟩ := hs.live ho
            simp only [Option.map_some, viewOf, Option.some.injEq, View.mk.injEq, and_true]
            unfold headAt
            rw [copyHashTable_heads hc hh, if_neg hne]
            split
            · next heq =>
                rw [heq, hh]
                rfl
            · rfl

/-- Copying a shared table is not visible, and the context owns its table afterwards. -/
theorem copyHashTable_spec (hs : Inv s) (hc : s.contexts[cx]? = some (some c))
    (hh : s.heads[c.head]? = some (some h)) (hshared : 1 < h.refcnt) :
    Inv (copyHashTable s cx) ∧ Equiv s (copyHashTable s cx) := by
  have hlt := hs.head_lt hc
  have hpts : (copyHashTable s cx).ports.map PortEnt.pt = s.ports.map PortEnt.pt :=
    (addUses_spec _ _).1
  have hlength : (copyHashTable s cx).ports.length = s.ports.length := by
    simpa using congrArg List.length hpts
  have hcountP : ∀ a, (copyHashTable s cx).contexts.countP (uses? a) +
      (if c.head = a then 1 else 0) =
      s.contexts.countP (uses? a) + (if s.heads.length = a then 1 else 0) := by
    intro a
    have hset := Library.countP_set_add (uses? a) (some { c with head := s.heads.length }) hc
    simpa [copyHashTable, contextAt_eq hc, uses?] using hset
  refine ⟨⟨?_, ?_, ?_, ?_⟩, ⟨(views_copyHashTable hs hc hh).symm, hpts.symm, ?_⟩⟩
  · intro d c' hd
    rw [copyHashTable_contexts hc] at hd
    rw [copyHashTable_heads hc hh]
    split at hd
    · cases hd
      exact ⟨_, if_pos rfl⟩
    · rw [if_neg (hs.head_lt hd).ne]
      split
      · exact ⟨_, rfl⟩
      · exact hs.live hd
  · intro a h' ha
    have hcount := hcountP a
    rw [copyHashTable_heads hc hh] at ha
    split at ha
    · next heq =>
        subst heq
        cases ha
        have hfresh := hs.countP_fresh
        have hone : (copyHashTable s cx).contexts.countP (uses? s.heads.length) = 1 := by
          rw [if_neg (by omega), if_pos rfl] at hcount
          omega
        rw [hone]
        exact ⟨rfl, by decide⟩
    · next hfresh =>
        have hold : ∀ {h'' : HashHead}, s.heads[a]? = some (some h'') →
            h''.refcnt = s.contexts.countP (uses? a) ∧ 0 < s.contexts.countP (uses? a) :=
          hs.counted
        split at ha
        · next heq =>
            subst heq
            cases ha
            have hcounted := hold hh
            simp only [if_true, Ne.symm hfresh, if_false] at hcount
            simp only
            omega
        · next hne =>
            have hcounted := hold ha
            simp only [Ne.symm hne, Ne.symm hfresh, if_false] at hcount
            omega
  · intro a h' ha
    rw [copyHashTable_heads hc hh] at ha
    have htidy := hs.tidy hh
    split at ha
    · cases ha
      exact htidy
    · split at ha
      · cases ha
        exact htidy
      · exact hs.tidy ha
  · intro i hi
    rw [hlength] at hi
    rw [base_copyHashTable hc hh hi]
    exact hs.base_nonneg i hi
  · intro i hi
    exact (base_copyHashTable hc hh hi).symm

end Copy

/-! ## A context with a table of its own -/

/-- The context is the only one that uses its table. -/
structure Owns (s : State) (cx : Nat) (c : Context) (h : HashHead) : Prop where
  context : s.contexts[cx]? = some (some c)
  head : s.heads[c.head]? = some (some h)
  alone : h.refcnt = 1

/-- Another context has a variable that refers to the port. -/
def Elsewhere (s : State) (cx i : Nat) : Prop :=
  ∃ d c, d ≠ cx ∧ s.contexts[d]? = some (some c) ∧ 0 < uses (headAt s c.head).table i

section Owner

variable {s t : State} {cx : Nat} {c c' : Context} {h h' : HashHead}

theorem Owns.tableOf_eq (ho : Owns s cx c h) : tableOf s cx = h.table := by
  rw [tableOf, contextAt_eq ho.context, headAt_eq ho.head]

theorem copyIfShared_spec (hs : Inv s) (hc : s.contexts[cx]? = some (some c)) :
    Inv (copyIfShared s cx) ∧ Equiv s (copyIfShared s cx) ∧
      ∃ c' h', Owns (copyIfShared s cx) cx c' h' := by
  obtain ⟨h, hh⟩ := hs.live hc
  have hrefcnt : refcntOf s cx = h.refcnt := by
    rw [refcntOf, contextAt_eq hc, headAt_eq hh]
  unfold copyIfShared
  rw [hrefcnt]
  split
  · next hshared =>
      obtain ⟨hinv, hequiv⟩ := copyHashTable_spec hs hc hh hshared
      refine ⟨hinv, hequiv, { c with head := s.heads.length }, ⟨1, h.table⟩, ?_, ?_, rfl⟩
      · rw [copyHashTable_contexts hc, if_pos rfl]
      · rw [copyHashTable_heads hc hh, if_pos rfl]
  · next hsingle =>
      have hcounted := hs.counted hh
      exact ⟨hs, Equiv.refl s, c, h, hc, hh, by omega⟩

/-- The other contexts have other tables. -/
theorem Owns.head_ne (hs : Inv s) (ho : Owns s cx c h) {d : Nat}
    (hd : s.contexts[d]? = some (some c')) (hne : d ≠ cx) : c'.head ≠ c.head := by
  intro heq
  have hone : s.contexts.countP (uses? c.head) = 1 := by
    have hcounted := hs.counted ho.head
    have halone := ho.alone
    omega
  -- taking the owner out leaves no context that uses the table
  have hset := Library.countP_set_add (uses? c.head) none ho.context
  have hother : some c' ∈ s.contexts.set cx none := by
    refine List.mem_of_getElem? (i := d) ?_
    rw [List.getElem?_set, if_neg (Ne.symm hne), hd]
  have hpos : 0 < (s.contexts.set cx none).countP (uses? c.head) :=
    List.countP_pos_iff.mpr ⟨_, hother, by simp [uses?, heq]⟩
  simp only [uses?, Option.elim_some, beq_self_eq_true, if_true, Option.elim_none,
    Bool.false_eq_true, if_false] at hset
  omega

theorem total_eq_iff (hs : Inv s) (ho : Owns s cx c h) (i : Nat) :
    uses h.table i ≤ total s i ∧ (total s i = uses h.table i ↔ ¬ Elsewhere s cx i) := by
  have hother : ((s.heads.set c.head none).map (headUses i)).sum + uses h.table i = total s i :=
    Library.sum_map_set (headUses i) ho.head
  refine ⟨by omega, fun htotal => ?_, fun helse => ?_⟩
  · rintro ⟨d, c', hne, hd, hpos⟩
    obtain ⟨h', hh'⟩ := hs.live hd
    rw [headAt_eq hh'] at hpos
    have hmem : some h' ∈ s.heads.set c.head none := by
      refine List.mem_of_getElem? (i := c'.head) ?_
      rw [List.getElem?_set, if_neg (Ne.symm (ho.head_ne hs hd hne)), hh']
    have hle := Library.le_sum_map (headUses i) hmem
    simp only [headUses, Option.elim_some] at hle
    omega
  · by_contra hne
    have hpos : 0 < ((s.heads.set c.head none).map (headUses i)).sum := by omega
    obtain ⟨o, hmem, huses⟩ := Library.exists_pos_of_sum_pos _ hpos
    cases o with
    | none => simp [headUses] at huses
    | some h' =>
        obtain ⟨a, ha⟩ := List.mem_iff_getElem?.mp hmem
        have hac : c.head ≠ a := by
          intro heq
          rw [heq, List.getElem?_set_self' ] at ha
          cases hget : s.heads[a]? <;> simp [hget] at ha
        rw [List.getElem?_set, if_neg hac] at ha
        -- a table in use belongs to a context
        obtain ⟨o', hmem', huse⟩ := List.countP_pos_iff.mp (hs.counted ha).2
        obtain ⟨d, hd⟩ := List.mem_iff_getElem?.mp hmem'
        cases o' with
        | none => simp [uses?] at huse
        | some c' =>
            have hhead : c'.head = a := by simpa [uses?] using huse
            refine helse ⟨d, c', ?_, hd, ?_⟩
            · rintro rfl
              rw [ho.context] at hd
              cases hd
              exact hac hhead
            · rw [hhead, headAt_eq ha]
              exact huses

theorem Equiv.elsewhere (hst : Equiv s t) {i : Nat} (he : Elsewhere s cx i) : Elsewhere t cx i := by
  obtain ⟨d, c, hne, hd, hpos⟩ := he
  obtain ⟨c', hd', hview⟩ := hst.context hd
  refine ⟨d, c', hne, hd', ?_⟩
  have htable := congrArg View.table hview
  simp only [viewOf] at htable
  rw [← htable]
  exact hpos

/-- Owners of the same context in equivalent states have the same table, and the port tables
agree on it. -/
theorem Owns.agree (hs : Inv s) (ht : Inv t) (hst : Equiv s t) (ho : Owns s cx c h)
    (ho' : Owns t cx c' h') :
    h.table = h'.table ∧ c.rwport = c'.rwport ∧ c.roport = c'.roport ∧
      Agree h.table s.ports t.ports := by
  obtain ⟨c'', hc'', hview⟩ := hst.context ho.context
  rw [ho'.context] at hc''
  cases hc''
  simp only [viewOf, headAt_eq ho.head, headAt_eq ho'.head, View.mk.injEq] at hview
  obtain ⟨htable, hrw, hro⟩ := hview
  have hlength := hst.length_eq
  refine ⟨htable, hrw, hro, hst.pts, fun i hi => ?_, fun i hi => ?_⟩
  all_goals
    obtain ⟨hle, hiff⟩ := total_eq_iff hs ho i
    obtain ⟨hle', hiff'⟩ := total_eq_iff ht ho' i
    have helse : Elsewhere s cx i ↔ Elsewhere t cx i := ⟨hst.elsewhere, hst.symm.elsewhere⟩
    rw [← htable] at hle' hiff'
    have hbase := hst.base i hi
    have hnonneg := hs.base_nonneg i hi
    have hnonneg' := ht.base_nonneg i (hlength ▸ hi)
    unfold base at hbase hnonneg hnonneg'
  · omega
  · have hsame : total s i = uses h.table i ↔ total t i = uses h.table i := by
      rw [hiff, hiff', helse]
    omega

/-- The entries of `heads` after `store`. -/
theorem store_heads (hc : s.contexts[cx]? = some (some c))
    (hh : s.heads[c.head]? = some (some h)) (o : Outcome) (a : Nat) :
    (store s cx o).heads[a]? =
      if a = c.head then some (some { h with table := o.table }) else s.heads[a]? := by
  have hlt := (List.getElem?_eq_some_iff.mp hh).1
  simp only [store, contextAt_eq hc, headAt_eq hh, List.getElem?_set]
  by_cases ha : a = c.head
  · subst ha
    simp [hlt]
  · simp [ha, Ne.symm ha]

theorem Owns.views_store (hs : Inv s) (ho : Owns s cx c h) (o : Outcome) :
    views (store s cx o) = (views s).set cx (some ⟨o.table, c.rwport, c.roport⟩) := by
  have hcx := (List.getElem?_eq_some_iff.mp ho.context).1
  refine List.ext_getElem? (fun d => ?_)
  rw [views_getElem?, List.getElem?_set, views_getElem?]
  have hcontexts : (store s cx o).contexts = s.contexts := rfl
  rw [hcontexts]
  by_cases hd : cx = d
  · subst hd
    have hhead : headAt (store s cx o) c.head = { h with table := o.table } :=
      headAt_eq (by rw [store_heads ho.context ho.head, if_pos rfl])
    rw [ho.context]
    simp [viewOf, hhead, views, hcx]
  · rw [if_neg hd]
    cases hget : s.contexts[d]? with
    | none => rfl
    | some o' =>
        cases o' with
        | none => rfl
        | some c' =>
            have hne := ho.head_ne hs hget (Ne.symm hd)
            simp only [Option.map_some, viewOf, Option.some.injEq, View.mk.injEq, and_true]
            unfold headAt
            rw [store_heads ho.context ho.head, if_neg hne]

theorem base_store (hc : s.contexts[cx]? = some (some c))
    (hh : s.heads[c.head]? = some (some h)) {o : Outcome} (hk : Keeps h.table s.ports o)
    {i : Nat} (hi : i < s.ports.length) : base (store s cx o) i = base s i := by
  have hset : ((s.heads.set c.head (some { h with table := o.table })).map (headUses i)).sum +
      uses h.table i = total s i + uses o.table i := Library.sum_map_set (headUses i) hh
  have htotal : total (store s cx o) i + uses h.table i = total s i + uses o.table i := by
    simpa only [total, store, contextAt_eq hc, headAt_eq hh] using hset
  have hrefs : (store s cx o).ports = o.ports := rfl
  have houtside := hk.outside i hi
  unfold base
  rw [hrefs]
  omega

/-- An operation on a table keeps the invariant, whether the table is shared or not. -/
theorem store_inv (hs : Inv s) (hc : s.contexts[cx]? = some (some c))
    (hh : s.heads[c.head]? = some (some h)) {o : Outcome} (hk : Keeps h.table s.ports o) :
    Inv (store s cx o) := by
  have hcontexts : (store s cx o).contexts = s.contexts := rfl
  refine ⟨?_, ?_, ?_, ?_⟩
  · intro d c' hd
    rw [store_heads hc hh]
    split
    · exact ⟨_, rfl⟩
    · exact hs.live hd
  · intro a h' ha
    rw [hcontexts]
    rw [store_heads hc hh] at ha
    split at ha
    · next heq =>
        subst heq
        cases ha
        have hcounted := hs.counted hh
        exact hcounted
    · exact hs.counted ha
  · intro a h' ha
    rw [store_heads hc hh] at ha
    split at ha
    · cases ha
      exact hk.tidy (hs.tidy hh)
    · exact hs.tidy ha
  · intro i hi
    have hi' : i < s.ports.length := hk.ports_length ▸ hi
    rw [base_store hc hh hk hi']
    exact hs.base_nonneg i hi'

theorem Owns.store_unshared (ho : Owns s cx c h) (hu : Unshared s) (o : Outcome) :
    Unshared (store s cx o) := by
  intro a h' ha
  rw [store_heads ho.context ho.head] at ha
  split at ha
  · cases ha
    exact ho.alone
  · exact hu ha

end Owner

/-! ## The two managers stay related -/

/-- The sharing manager and the reference manager. -/
structure Rel (s t : State) : Prop where
  inv : Inv s
  inv' : Inv t
  unshared : Unshared t
  equiv : Equiv s t

section Relation

variable {s t : State} {cx : Nat}

/-- An operation on one table that cannot tell port tables apart that agree. -/
structure Lawful (op : Table → Ports → Outcome) : Prop where
  keeps : ∀ {table : Table} (ports : Ports), table.length = hashTableSize →
    Keeps table ports (op table ports)
  same : ∀ {table : Table} {ports ports' : Ports}, table.length = hashTableSize →
    Agree table ports ports' → Same (op table ports) (op table ports')

/-- Both managers perform an operation on a table that its context owns. -/
theorem Rel.store {c c' : Context} {h h' : HashHead} {o o' : Outcome} (hr : Rel s t)
    (ho : Owns s cx c h) (ho' : Owns t cx c' h') (hk : Keeps h.table s.ports o)
    (hk' : Keeps h'.table t.ports o') (hsame : Same o o') :
    Rel (store s cx o) (store t cx o') := by
  obtain ⟨-, hrw, hro, -⟩ := ho.agree hr.inv hr.inv' hr.equiv ho'
  refine ⟨store_inv hr.inv ho.context ho.head hk,
    store_inv hr.inv' ho'.context ho'.head hk', ho'.store_unshared hr.unshared o', ?_⟩
  refine ⟨?_, hsame.pts, fun i hi => ?_⟩
  · rw [ho.views_store hr.inv, ho'.views_store hr.inv', hr.equiv.views, hsame.table, hrw, hro]
  · have hi' : i < s.ports.length := hk.ports_length ▸ hi
    rw [base_store ho.context ho.head hk hi',
      base_store ho'.context ho'.head hk' (hr.equiv.length_eq ▸ hi')]
    exact hr.equiv.base i hi'

theorem portToContext_some {servPort : Nat} {restrict : Bool}
    (hp : portToContext s servPort = some (cx, restrict)) :
    ∃ c, s.contexts[cx]? = some (some c) ∧ restrict = (c.rwport != servPort) ∧
      (c.rwport = servPort ∨ c.roport = servPort) := by
  unfold portToContext at hp
  split at hp
  · cases hp
  · next found hfound =>
      obtain ⟨hlt, hlisten, -⟩ := List.findIdx?_eq_some_iff_getElem.mp hfound
      cases hp
      cases hc : s.contexts[cx] with
      | none => simp [hc, listens] at hlisten
      | some c =>
          have hget : s.contexts[cx]? = some (some c) := by rw [List.getElem?_eq_getElem hlt, hc]
          refine ⟨c, hget, by rw [contextAt_eq hget], ?_⟩
          simpa [hc, listens] using hlisten

theorem copyIfShared_unshared (hu : Unshared t) {c : Context} (ht : Inv t)
    (hc : t.contexts[cx]? = some (some c)) : copyIfShared t cx = t := by
  obtain ⟨h, hh⟩ := ht.live hc
  have hone := hu hh
  have hrefcnt : refcntOf t cx = h.refcnt := by
    rw [refcntOf, contextAt_eq hc, headAt_eq hh]
  rw [copyIfShared, if_neg (by omega)]

/-- `PortToContext` looks at the ports of the contexts only. -/
theorem portToContext_congr (hears : ears s = ears t) (servPort : Nat) :
    portToContext s servPort = portToContext t servPort := by
  have hlistens : s.contexts.findIdx? (listens servPort) =
      t.contexts.findIdx? (listens servPort) := by
    refine findIdx?_congr ?_
    have hmap : ∀ u : State, u.contexts.map (listens servPort) = (ears u).map (fun ports =>
        ports.elim false (fun ports => ports.1 == servPort || ports.2 == servPort)) := by
      intro u
      rw [ears, List.map_map]
      refine List.map_congr_left (fun o _ => ?_)
      cases o <;> rfl
    rw [hmap, hmap, hears]
  unfold portToContext
  rw [← hlistens]
  cases hfound : s.contexts.findIdx? (listens servPort) with
  | none => rfl
  | some cx =>
      have hrw : ∀ u : State, (contextAt u cx).rwport = (((ears u)[cx]?.join).getD (0, 0)).1 := by
        intro u
        rw [contextAt, ears, List.getElem?_map]
        cases u.contexts[cx]? with
        | none => rfl
        | some o => cases o <;> rfl
      simp only [hrw, hears]

theorem Equiv.ears (hst : Equiv s t) : ears s = ears t := by
  have hmap : ∀ u : State, EnvMgr.ears u =
      (EnvMgr.views u).map (Option.map (fun v => (v.rwport, v.roport))) := by
    intro u
    rw [EnvMgr.ears, EnvMgr.views, List.map_map]
    refine List.map_congr_left (fun o _ => ?_)
    cases o <;> rfl
  rw [hmap, hmap, hst.views]

theorem Equiv.portToContext (hst : Equiv s t) (servPort : Nat) :
    portToContext s servPort = portToContext t servPort :=
  portToContext_congr hst.ears servPort

/-- Every context of the reference manager owns its table. -/
theorem Rel.owns (hr : Rel s t) {c : Context} (hc : s.contexts[cx]? = some (some c)) :
    ∃ c' h', Owns t cx c' h' ∧ viewOf s c = viewOf t c' := by
  obtain ⟨c', hc', hview⟩ := hr.equiv.context hc
  obtain ⟨h', hh'⟩ := hr.inv'.live hc'
  exact ⟨c', h', ⟨hc', hh', hr.unshared hh'⟩, hview⟩

/-- Calls that change a variable. -/
theorem Rel.change {op : Table → Ports → Outcome} (hr : Rel s t) (hop : Lawful op)
    (servPort : Nat) :
    Rel (change s servPort op).1 (change t servPort op).1 ∧
      (change s servPort op).2 = (change t servPort op).2 := by
  unfold EnvMgr.change
  rw [← hr.equiv.portToContext servPort]
  cases hp : EnvMgr.portToContext s servPort with
  | none => exact ⟨hr, rfl⟩
  | some found =>
      obtain ⟨cx, restrict⟩ := found
      cases restrict with
      | true => exact ⟨hr, rfl⟩
      | false =>
          obtain ⟨c, hc, -, -⟩ := portToContext_some hp
          obtain ⟨hinv, hequiv, c₁, h₁, ho⟩ := copyIfShared_spec hr.inv hc
          obtain ⟨c', h', ho', -⟩ := hr.owns hc
          have hr' : Rel (copyIfShared s cx) t :=
            ⟨hinv, hr.inv', hr.unshared, hequiv.symm.trans hr.equiv⟩
          have hsize := (hinv.tidy ho.head).length
          obtain ⟨htable, -, -, hagree⟩ := ho.agree hr'.inv hr'.inv' hr'.equiv ho'
          dsimp only
          rw [if_neg Bool.false_ne_true, if_neg Bool.false_ne_true,
            copyIfShared_unshared hr.unshared hr.inv' ho'.context, ho.tableOf_eq, ho'.tableOf_eq,
            ← htable]
          have hsame := hop.same hsize hagree
          refine ⟨hr'.store ho ho' (hop.keeps _ hsize) ?_ hsame, ?_⟩
          · rw [← htable]
            exact hop.keeps _ hsize
          · rw [hsame.code]

/-! ## Calls that read variables -/

/-- A reading operation; while it is `quiet` it changes nothing and depends on the ports only. -/
structure LawfulRead (op : Table → Ports → Outcome × Reply) (quiet : Table → Ports → Prop) :
    Prop where
  keeps : ∀ {table : Table} (ports : Ports), table.length = hashTableSize →
    Keeps table ports (op table ports).1
  same : ∀ {table : Table} {ports ports' : Ports}, table.length = hashTableSize →
    Agree table ports ports' →
      Same (op table ports).1 (op table ports').1 ∧ (op table ports).2 = (op table ports').2
  still : ∀ {table : Table} {ports : Ports}, quiet table ports →
    (op table ports).1.table = table ∧ (op table ports).1.ports = ports
  reads : ∀ {table : Table} {ports ports' : Ports}, quiet table ports →
    ports.map PortEnt.pt = ports'.map PortEnt.pt →
      quiet table ports' ∧ (op table ports).2 = (op table ports').2

/-- Storing what was there changes nothing. -/
theorem store_self {c : Context} {h : HashHead} {o : Outcome}
    (hc : s.contexts[cx]? = some (some c)) (hh : s.heads[c.head]? = some (some h))
    (htable : o.table = h.table) (hports : o.ports = s.ports) : EnvMgr.store s cx o = s := by
  have hset : s.heads.set c.head (some { h with table := o.table }) = s.heads := by
    obtain ⟨hlt, hget⟩ := List.getElem?_eq_some_iff.mp hh
    rw [htable, show some { h with table := h.table } = s.heads[c.head] from hget.symm]
    exact List.set_getElem_self hlt
  simp only [EnvMgr.store, contextAt_eq hc, headAt_eq hh, hset, hports]

theorem Rel.consult {op : Table → Ports → Outcome × Reply} {quiet : Table → Ports → Prop}
    (hr : Rel s t) (hop : LawfulRead op quiet) {servPort : Nat}
    (hquiet : ∀ cx restrict, EnvMgr.portToContext s servPort = some (cx, restrict) →
      1 < refcntOf s cx → quiet (tableOf s cx) s.ports) :
    Rel (consult s servPort op).1 (consult t servPort op).1 ∧
      (consult s servPort op).2 = (consult t servPort op).2 := by
  unfold EnvMgr.consult
  rw [← hr.equiv.portToContext servPort]
  cases hp : EnvMgr.portToContext s servPort with
  | none => exact ⟨hr, rfl⟩
  | some found =>
      obtain ⟨cx, restrict⟩ := found
      obtain ⟨c, hc, -, -⟩ := portToContext_some hp
      obtain ⟨h, hh⟩ := hr.inv.live hc
      obtain ⟨c', h', ho', hview⟩ := hr.owns hc
      have htable : h.table = h'.table := by
        have htables := congrArg View.table hview
        simpa only [viewOf, headAt_eq hh, headAt_eq ho'.head] using htables
      have hof : tableOf s cx = h.table := by rw [tableOf, contextAt_eq hc, headAt_eq hh]
      dsimp only
      rw [hof, ho'.tableOf_eq, ← htable]
      by_cases hshared : 1 < refcntOf s cx
      · have hnow := hquiet cx restrict hp hshared
        rw [hof] at hnow
        obtain ⟨hnow', hreply⟩ := hop.reads hnow hr.equiv.pts
        obtain ⟨hkeep, hkeep'⟩ := hop.still hnow
        obtain ⟨hstay, hstay'⟩ := hop.still hnow'
        rw [store_self hc hh hkeep hkeep',
          store_self ho'.context ho'.head (hstay.trans htable) hstay']
        exact ⟨hr, hreply⟩
      · have hcounted := hr.inv.counted hh
        have hrefcnt : refcntOf s cx = h.refcnt := by
          rw [refcntOf, contextAt_eq hc, headAt_eq hh]
        have ho : Owns s cx c h := ⟨hc, hh, by omega⟩
        have hsize := (hr.inv.tidy hh).length
        obtain ⟨-, -, -, hagree⟩ := ho.agree hr.inv hr.inv' hr.equiv ho'
        obtain ⟨hsame, hreply⟩ := hop.same hsize hagree
        refine ⟨hr.store ho ho' (hop.keeps _ hsize) ?_ hsame, hreply⟩
        rw [← htable]
        exact hop.keeps _ hsize

end Relation

end MachFormal.EnvMgr
