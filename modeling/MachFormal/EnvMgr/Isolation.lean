import MachFormal.EnvMgr.Refinement

/-!
# Isolation of contexts

A safe call through one context leaves what every other context sees as it
was, and so the reply to any call through the other context.  Three things the
contexts have in common remain: the places in the port table, the free
contexts, and a port itself, which dies for all variables that hold it.
-/

namespace MachFormal.EnvMgr

/-! ## Ports that other tables hold -/

/-- The ports that have references from outside the table stay as they were. -/
def Frames (table : Table) (ports : Ports) (o : Outcome) : Prop :=
  ∀ i < ports.length, (uses table i : Int) < refAt ports i → ptAt o.ports i = ptAt ports i

section Frames

variable {table : Table} {ports : Ports} {name : Name}

theorem ptAt_modify {i : Nat} (f : PortEnt → PortEnt) (hi : i < ports.length) (k : Nat) :
    ptAt (ports.modify i f) k = if k = i then (f ports[i]).pt else ptAt ports k := by
  unfold ptAt
  by_cases hki : k = i
  · subst hki
    simp [List.getD_eq_getElem?_getD, hi]
  · simp [List.getD_eq_getElem?_getD, Ne.symm hki, hki]

theorem ptAt_eq {i : Nat} (hi : i < ports.length) : ptAt ports i = ports[i].pt := by
  simp [ptAt, List.getD_eq_getElem?_getD, hi]

theorem ptAt_of_length_le {i : Nat} (hi : ports.length ≤ i) : ptAt ports i = 0 := by
  simp [ptAt, List.getD_eq_getElem?_getD, hi]

/-- `del_port` keeps a port that is referred to more than once. -/
theorem delPort_ptAt (deallocOk : Nat → Bool) {pi i : Nat} (hi : i < ports.length)
    (hmore : i = pi → 1 < refAt ports i) :
    ptAt (delPort deallocOk ports pi) i = ptAt ports i := by
  by_cases hpi : pi < ports.length
  · rw [delPort, ptAt_modify _ hpi]
    split
    · next heq =>
        subst heq
        have hrefs := hmore rfl
        rw [refAt_eq hi] at hrefs
        rw [if_neg (by omega), ptAt_eq hi]
    · rfl
  · rw [delPort, refAt_modify_of_length_le _ (by omega)]

/-- `add_port` keeps a port that is referred to. -/
theorem addPort_ptAt {newPort pi i : Nat} {ports' : Ports}
    (hadd : addPort ports newPort = some (pi, ports')) (hi : i < ports.length)
    (hused : 0 < refAt ports i) : ptAt ports' i = ptAt ports i := by
  unfold addPort at hadd
  split at hadd
  · next k hfound =>
      obtain ⟨hk, -⟩ := List.findIdx?_eq_some_iff_getElem.mp hfound
      cases hadd
      rw [ptAt_modify _ hk]
      split
      · next heq =>
          subst heq
          rw [ptAt_eq hi]
      · rfl
  · split at hadd
    · cases hadd
    · next k hfound =>
        obtain ⟨hk, hzero, -⟩ := List.findIdx?_eq_some_iff_getElem.mp hfound
        cases hadd
        have hne : i ≠ pi := by
          rintro rfl
          rw [refAt_eq hi] at hused
          have hrefs : ports[i].refcnt = 0 := by simpa using hzero
          omega
        rw [ptAt_modify _ hk, if_neg hne]

theorem deleteHashEntry_frames (htable : table.length = hashTableSize) (deallocOk : Nat → Bool)
    (ports : Ports) (name : Name) (vt : EnvType) :
    Frames table ports (deleteHashEntry deallocOk table ports name vt) := by
  intro i hi hmore
  unfold deleteHashEntry
  cases hfind : findHashEntry table name with
  | none => rfl
  | some entry =>
      dsimp only
      split
      · cases hval : entry.envval with
        | str value => rfl
        | port pi =>
            refine delPort_ptAt deallocOk hi (fun heq => ?_)
            have hremove := uses_remove htable hfind i
            rw [hval, heq, refers_port_self] at hremove
            rw [heq] at hmore ⊢
            omega
      · rfl

theorem getPort_frames (htable : table.length = hashTableSize) (deallocOk : Nat → Bool)
    (ports : Ports) (name : Name) : Frames table ports (getPort deallocOk table ports name).1 := by
  intro i hi hmore
  unfold getPort
  split
  · rfl
  · rfl
  · split
    · exact deleteHashEntry_frames htable deallocOk ports name .envport i hi hmore
    · rfl

theorem setPort_frames (htable : table.length = hashTableSize) (deallocOk : Nat → Bool)
    (ports : Ports) (name : Name) (value : Nat) :
    Frames table ports (setPort deallocOk table ports name value) := by
  intro i hi hmore
  unfold setPort
  split
  · rfl
  · next old hfind =>
      split
      · rfl
      · split
        · rfl
        · next pi ports' hadd =>
            obtain ⟨-, hlength, hcount⟩ := addPort_spec hadd
            dsimp only
            rw [delPort_ptAt deallocOk (hlength.symm ▸ hi) (fun heq => ?_),
              addPort_ptAt hadd hi (by omega)]
            have hset := uses_setHashEntry htable hfind (.str []) i
            simp only [heq, refers_port_self, refers_str] at hset
            rw [hcount i hi]
            rw [heq] at hmore ⊢
            omega
  · split
    · rfl
    · next pi ports' hadd => exact addPort_ptAt hadd hi (by omega)

/-- Removing a variable with a dead port changes no port. -/
theorem deleteHashEntry_dead (deallocOk : Nat → Bool) {vt : EnvType}
    (hdead : ∀ entry pi, findHashEntry table name = some entry → entry.envval = .port pi →
      ptAt ports pi = 0) :
    ptAt (deleteHashEntry deallocOk table ports name vt).ports = ptAt ports := by
  unfold deleteHashEntry
  cases hfind : findHashEntry table name with
  | none => rfl
  | some entry =>
      dsimp only
      split
      · cases hval : entry.envval with
        | str value => rfl
        | port pi =>
            have hzero := hdead entry pi hfind hval
            funext i
            by_cases hpi : pi < ports.length
            · dsimp only
              rw [delPort, ptAt_modify _ hpi]
              rw [ptAt_eq hpi] at hzero
              split
              · next heq =>
                  subst heq
                  rw [ptAt_eq hpi]
                  split
                  · exact hzero.symm
                  · rfl
              · rfl
            · dsimp only
              rw [delPort, refAt_modify_of_length_le _ (by omega)]
      · rfl

/-- The code and the table do not depend on the port table. -/
theorem deleteHashEntry_code (deallocOk : Nat → Bool) (table : Table) (ports ports' : Ports)
    (name : Name) (vt : EnvType) :
    (deleteHashEntry deallocOk table ports name vt).code =
        (deleteHashEntry deallocOk table ports' name vt).code ∧
      (deleteHashEntry deallocOk table ports name vt).table =
        (deleteHashEntry deallocOk table ports' name vt).table := by
  unfold deleteHashEntry
  cases findHashEntry table name with
  | none => exact ⟨rfl, rfl⟩
  | some entry =>
      dsimp only
      split
      · cases entry.envval <;> exact ⟨rfl, rfl⟩
      · exact ⟨rfl, rfl⟩

theorem deleteHashEntry_within (htable : table.length = hashTableSize) (deallocOk : Nat → Bool)
    (ports : Ports) (name : Name) (vt : EnvType) (hi : Nat) :
    (deleteHashEntry deallocOk table ports name vt).table.getD hi [] ⊆ table.getD hi [] := by
  have hremove : (table.set (hash (convUpper name))
      (removeFirst (convUpper name) (chainOf table name))).getD hi [] ⊆ table.getD hi [] := by
    rw [getD_set htable]
    split
    · next heq =>
        rw [heq]
        exact (removeFirst_sublist _ _).subset
    · exact List.Subset.refl _
  unfold deleteHashEntry
  cases findHashEntry table name with
  | none => exact List.Subset.refl _
  | some entry =>
      dsimp only
      split
      · cases entry.envval <;> exact hremove
      · exact List.Subset.refl _

theorem Frames.trans {o o' : Outcome} (hk : Keeps table ports o) (h : Frames table ports o)
    (h' : Frames o.table o.ports o') : Frames table ports o' := by
  intro i hi hmore
  have houtside := hk.outside i hi
  rw [h' i (hk.ports_length.symm ▸ hi) (by omega), h i hi hmore]

/-- Two entries of a tidy table with the same name are one. -/
theorem Tidy.unique (ht : Tidy table) {hi : Nat} {entry entry' : HashEntry}
    (hentry : entry ∈ table.getD hi []) (hentry' : entry' ∈ table.getD hi [])
    (hname : strEqCase (convUpper entry.name) entry'.name = true) : entry = entry' := by
  by_contra hne
  have hdistinct : (table.getD hi []).Pairwise
      (fun a b => strEqCase (convUpper a.name) b.name = false) :=
    List.pairwise_map.mp (ht.distinct hi)
  have hsymm : ∀ a b : Name, strEqCase (convUpper a) b = strEqCase (convUpper b) a := by
    intro a b
    simp only [strEqCase, convUpper, List.length_map]
    rw [Bool.eq_iff_iff]
    simp only [Bool.and_eq_true, beq_iff_eq]
    exact ⟨fun h => ⟨h.1.symm, h.2.symm⟩, fun h => ⟨h.1.symm, h.2.symm⟩⟩
  have : Std.Symm (fun a b : HashEntry => strEqCase (convUpper a.name) b.name = false) :=
    ⟨fun _ _ h => (hsymm _ _).trans h⟩
  have hboth := hdistinct.forall hentry hentry' hne
  rw [hname] at hboth
  cases hboth

end Frames

section Sweep

variable {deallocOk : Nat → Bool} {table : Table} {ports ports' : Ports}

theorem sweepEntry_frames {acc : Outcome × Nat} (htable : acc.1.table.length = hashTableSize)
    (entry : HashEntry) : Frames acc.1.table acc.1.ports (sweepEntry deallocOk acc entry).1 := by
  intro i hi hmore
  unfold sweepEntry
  split
  · rfl
  · split
    · exact deleteHashEntry_frames htable deallocOk _ _ _ i hi hmore
    · rfl

theorem sweepEntries_frames (entries : List HashEntry) {acc : Outcome × Nat}
    (htable : acc.1.table.length = hashTableSize) :
    Frames acc.1.table acc.1.ports (entries.foldl (sweepEntry deallocOk) acc).1 := by
  induction entries generalizing acc with
  | nil => exact fun _ _ _ => rfl
  | cons entry entries ih =>
      have hkeeps := @sweepEntry_keeps deallocOk acc htable entry
      exact Frames.trans hkeeps (sweepEntry_frames htable entry)
        (ih (hkeeps.table_length.trans htable))

theorem sweepChains_frames (his : List Nat) {acc : Outcome × Nat}
    (htable : acc.1.table.length = hashTableSize) :
    Frames acc.1.table acc.1.ports (his.foldl (sweepChain deallocOk) acc).1 := by
  induction his generalizing acc with
  | nil => exact fun _ _ _ => rfl
  | cons hi his ih =>
      have hkeeps := @sweepEntries_keeps deallocOk acc (acc.1.table.getD hi []) htable
      exact Frames.trans hkeeps (sweepEntries_frames _ htable)
        (ih (hkeeps.table_length.trans htable))

theorem sweep_frames (htable : table.length = hashTableSize) (deallocOk : Nat → Bool)
    (ports : Ports) : Frames table ports (sweep deallocOk table ports).1 :=
  @sweepChains_frames deallocOk (List.range hashTableSize) (⟨.success, table, ports⟩, 0) htable

theorem listPortsOp_frames (htable : table.length = hashTableSize) (deallocOk : Nat → Bool)
    (names : Option Nat) (ports : Ports) :
    Frames table ports (listPortsOp deallocOk names table ports).1 := by
  rw [listPortsOp_fst]
  exact sweep_frames htable deallocOk ports

/-- Two port tables that name the same ports for the variables of a table. -/
def SameFor (table : Table) (ports ports' : Ports) : Prop :=
  ∀ i, 0 < uses table i → ptAt ports i = ptAt ports' i

/-- A variable of a table counts as a use. -/
theorem uses_pos {entry : HashEntry} {hi pi : Nat} (hentry : entry ∈ table.getD hi [])
    (hval : entry.envval = .port pi) : 0 < uses table pi := by
  rw [uses, List.countP_pos_iff]
  refine ⟨entry, ?_, by simpa using hval⟩
  by_cases hlt : hi < table.length
  · rw [List.getD_eq_getElem _ _ hlt] at hentry
    exact List.mem_flatten.mpr ⟨_, List.getElem_mem hlt, hentry⟩
  · rw [List.getD_eq_default _ _ (by omega)] at hentry
    cases hentry

/-- Two counting loops over the same table, whose port tables may count differently. -/
structure Abreast (T : Table) (ports ports' : Ports) (acc acc' : Outcome × Nat) : Prop where
  code : acc.1.code = acc'.1.code
  table : acc.1.table = acc'.1.table
  counted : acc.2 = acc'.2
  pts : ptAt acc.1.ports = ptAt ports
  pts' : ptAt acc'.1.ports = ptAt ports'
  length : acc.1.table.length = hashTableSize
  within : ∀ hi, acc.1.table.getD hi [] ⊆ T.getD hi []

theorem sweepEntry_abreast {acc acc' : Outcome × Nat} {hi : Nat} {entry : HashEntry}
    (ht : Tidy table) (hsame : SameFor table ports ports')
    (h : Abreast table ports ports' acc acc') (hentry : entry ∈ table.getD hi []) :
    Abreast table ports ports' (sweepEntry deallocOk acc entry) (sweepEntry deallocOk acc' entry) := by
  cases hval : entry.envval with
  | str value =>
      simp only [sweepEntry, hval]
      exact h
  | port pi =>
      have hport := hsame pi (uses_pos hentry hval)
      simp only [sweepEntry, hval]
      rw [h.pts, h.pts', ← hport]
      by_cases hzero : ptAt ports pi = 0
      · -- the entry that is removed is the one whose port is dead
        have hfound : ∀ e qi, findHashEntry acc.1.table entry.name = some e →
            e.envval = .port qi → qi = pi := by
          intro e qi hfind hqi
          have hmem := List.mem_of_find?_eq_some hfind
          have hname := List.find?_some hfind
          have hmem' := h.within _ hmem
          rw [ht.placed hi entry hentry] at hmem'
          have heq := ht.unique hentry hmem' hname
          rw [← heq, hval] at hqi
          exact (EnvVal.port.inj hqi).symm
        simp only [hzero, if_true]
        rw [← h.table]
        have hpts : ptAt (deleteHashEntry deallocOk acc.1.table acc.1.ports entry.name .envport).ports =
            ptAt acc.1.ports := by
          refine deleteHashEntry_dead deallocOk (fun e qi hfind hqi => ?_)
          rw [hfound e qi hfind hqi, h.pts, hzero]
        have hpts' : ptAt (deleteHashEntry deallocOk acc.1.table acc'.1.ports entry.name .envport).ports =
            ptAt acc'.1.ports := by
          refine deleteHashEntry_dead deallocOk (fun e qi hfind hqi => ?_)
          rw [hfound e qi hfind hqi, h.pts', ← hport, hzero]
        have hkeeps := deleteHashEntry_keeps h.length deallocOk acc.1.ports entry.name .envport
        have hboth := deleteHashEntry_code deallocOk acc.1.table acc.1.ports acc'.1.ports
          entry.name .envport
        refine ⟨hboth.1, hboth.2, h.counted, hpts.trans h.pts, hpts'.trans h.pts',
          hkeeps.table_length.trans h.length, fun hj => ?_⟩
        exact fun e he => h.within hj (deleteHashEntry_within h.length deallocOk _ _ _ hj he)
      · simp only [hzero, if_false]
        exact ⟨h.code, h.table, congrArg (· + 1) h.counted, h.pts, h.pts', h.length, h.within⟩

theorem sweepEntries_abreast {acc acc' : Outcome × Nat} {hi : Nat} (entries : List HashEntry)
    (ht : Tidy table) (hsame : SameFor table ports ports')
    (h : Abreast table ports ports' acc acc') (hentries : entries ⊆ table.getD hi []) :
    Abreast table ports ports' (entries.foldl (sweepEntry deallocOk) acc)
      (entries.foldl (sweepEntry deallocOk) acc') := by
  induction entries generalizing acc acc' with
  | nil => exact h
  | cons entry entries ih =>
      rw [List.cons_subset] at hentries
      exact ih (sweepEntry_abreast ht hsame h hentries.1) hentries.2

theorem sweepChains_abreast {acc acc' : Outcome × Nat} (his : List Nat) (ht : Tidy table)
    (hsame : SameFor table ports ports') (h : Abreast table ports ports' acc acc') :
    Abreast table ports ports' (his.foldl (sweepChain deallocOk) acc)
      (his.foldl (sweepChain deallocOk) acc') := by
  induction his generalizing acc acc' with
  | nil => exact h
  | cons hi his ih =>
      refine ih ?_
      unfold sweepChain
      rw [← h.table]
      exact sweepEntries_abreast _ ht hsame h (h.within hi)

end Sweep

/-! ## What a call leaves to the other contexts -/

def viewListens (port : Nat) (view : Option View) : Bool :=
  view.elim false (fun v => v.rwport == port || v.roport == port)

/-- After the step the context `d` sees what it saw, and its port still leads to it. -/
structure Spared (s s' : State) (d pd : Nat) (v : View) : Prop where
  view : (views s)[d]? = some (some v)
  view' : (views s')[d]? = some (some v)
  ports : SameFor v.table s'.ports s.ports
  served : portToContext s' pd = portToContext s pd

section Spared

variable {s s' : State} {d pd cx : Nat} {v : View} {restrict : Bool}

theorem Spared.refl (hview : (views s)[d]? = some (some v)) : Spared s s d pd v :=
  ⟨hview, hview, fun _ _ => rfl, rfl⟩

theorem Spared.trans {s'' : State} (h : Spared s s' d pd v) (h' : Spared s' s'' d pd v) :
    Spared s s'' d pd v :=
  ⟨h.view, h'.view', fun i hi => (h'.ports i hi).trans (h.ports i hi), h'.served.trans h.served⟩

theorem view_context (hview : (views s)[d]? = some (some v)) :
    ∃ c, s.contexts[d]? = some (some c) ∧ viewOf s c = v := by
  rw [views_getElem?] at hview
  cases hc : s.contexts[d]? with
  | none => simp [hc] at hview
  | some o =>
      cases o with
      | none => simp [hc] at hview
      | some c =>
          simp only [hc, Option.map_some, Option.some.injEq] at hview
          exact ⟨c, rfl, hview⟩

theorem listens_view (s : State) (port : Nat) (o : Option Context) :
    listens port o = viewListens port (o.map (viewOf s)) := by
  cases o <;> rfl

/-- The context of a port in terms of what the contexts see. -/
theorem portToContext_iff (hview : (views s)[d]? = some (some v)) :
    portToContext s pd = some (d, restrict) ↔
      viewListens pd (some v) = true ∧ restrict = (v.rwport != pd) ∧
        ∀ j < d, ∀ o, (views s)[j]? = some o → viewListens pd o = false := by
  obtain ⟨c, hc, rfl⟩ := view_context hview
  obtain ⟨hlt, hget⟩ := List.getElem?_eq_some_iff.mp hc
  have hbefore : (∀ j < d, ∀ o, (views s)[j]? = some o → viewListens pd o = false) ↔
      ∀ j, ∀ hj : j < d, ¬ listens pd (s.contexts[j]) = true := by
    constructor
    · intro h j hj hlisten
      have hj' : s.contexts[j]? = some s.contexts[j] := List.getElem?_eq_getElem _
      have hnot := h j hj (s.contexts[j].map (viewOf s)) (by rw [views_getElem?, hj']; rfl)
      rw [listens_view s, hnot] at hlisten
      cases hlisten
    · intro h j hj o ho
      rw [views_getElem?, List.getElem?_eq_getElem (by omega)] at ho
      simp only [Option.map_some, Option.some.injEq] at ho
      subst ho
      rw [← listens_view s]
      simpa using h j hj
  rw [hbefore]
  constructor
  · intro hp
    have hp' := hp
    unfold portToContext at hp'
    split at hp'
    · cases hp'
    · next found hfound =>
        obtain ⟨hlt', hlisten, hfirst⟩ := List.findIdx?_eq_some_iff_getElem.mp hfound
        simp only [Option.some.injEq, Prod.mk.injEq] at hp'
        obtain ⟨rfl, hrestrict⟩ := hp'
        rw [contextAt_eq hc] at hrestrict
        rw [hget] at hlisten
        exact ⟨hlisten, hrestrict.symm, hfirst⟩
  · rintro ⟨hlisten, hrestrict, hfirst⟩
    have hfound : s.contexts.findIdx? (listens pd) = some d :=
      List.findIdx?_eq_some_iff_getElem.mpr ⟨hlt, by rw [hget]; exact hlisten, hfirst⟩
    unfold portToContext
    rw [hfound]
    simp only [contextAt_eq hc, hrestrict]
    rfl

/-- A step that changes the view of another context spares `d`. -/
theorem Spared.of_set {w : Option View} (hp : portToContext s pd = some (d, restrict))
    (hview : (views s)[d]? = some (some v)) (hne : cx ≠ d)
    (hviews : views s' = (views s).set cx w)
    (hlisten : viewListens pd w = true →
      ∃ old, (views s)[cx]? = some old ∧ viewListens pd old = true)
    (hports : SameFor v.table s'.ports s.ports) : Spared s s' d pd v := by
  have hview' : (views s')[d]? = some (some v) := by
    rw [hviews, List.getElem?_set, if_neg hne, hview]
  refine ⟨hview, hview', hports, ?_⟩
  obtain ⟨hd, hrestrict, hfirst⟩ := (portToContext_iff hview).mp hp
  rw [hp]
  refine (portToContext_iff hview').mpr ⟨hd, hrestrict, fun j hj o ho => ?_⟩
  rw [hviews, List.getElem?_set] at ho
  split at ho
  · next heq =>
      subst heq
      split at ho
      · cases ho
        by_contra hnot
        obtain ⟨old, hold, holdListens⟩ := hlisten (by simpa using hnot)
        have hquiet := hfirst cx hj old hold
        rw [holdListens] at hquiet
        cases hquiet
      · cases ho
  · exact hfirst j hj o ho

theorem Spared.of_equiv (hequiv : Equiv s s') (hview : (views s)[d]? = some (some v)) :
    Spared s s' d pd v :=
  ⟨hview, hequiv.views ▸ hview, fun i _ => congrFun (ptAt_congr hequiv.pts.symm) i,
    (hequiv.portToContext pd).symm⟩

/-- A port that another context holds has references from outside the table. -/
theorem Owns.outside {c : Context} {h : HashHead} (hs : Inv s) (ho : Owns s cx c h)
    (hne : cx ≠ d) (hview : (views s)[d]? = some (some v)) {i : Nat}
    (hi : i < s.ports.length) (hused : 0 < uses v.table i) :
    (uses h.table i : Int) < refAt s.ports i := by
  obtain ⟨c', hc', rfl⟩ := view_context hview
  obtain ⟨hle, hiff⟩ := total_eq_iff hs ho i
  have helse : Elsewhere s cx i := ⟨d, c', Ne.symm hne, hc', hused⟩
  have hbase := hs.base_nonneg i hi
  unfold base at hbase
  have htotal : total s i ≠ uses h.table i := fun heq => hiff.mp heq helse
  omega

/-- An operation on an owned table spares the other contexts. -/
theorem Owns.spares {c : Context} {h : HashHead} {o : Outcome} (hs : Inv s)
    (ho : Owns s cx c h) (hk : Keeps h.table s.ports o) (hf : Frames h.table s.ports o)
    (hne : cx ≠ d) (hview : (views s)[d]? = some (some v))
    (hp : portToContext s pd = some (d, restrict)) : Spared s (store s cx o) d pd v := by
  refine Spared.of_set hp hview hne (ho.views_store hs o) (fun hlisten => ?_) (fun i hused => ?_)
  · refine ⟨some (viewOf s c), ?_, hlisten⟩
    rw [views_getElem?, ho.context]
    rfl
  · have hports : (store s cx o).ports = o.ports := rfl
    rw [hports]
    by_cases hi : i < s.ports.length
    · exact hf i hi (ho.outside hs hne hview hi hused)
    · rw [ptAt_of_length_le (by rw [hk.ports_length]; omega), ptAt_of_length_le (by omega)]

theorem ears_copyIfShared (hc : ∃ c, s.contexts[cx]? = some (some c)) :
    ears (copyIfShared s cx) = ears s := by
  obtain ⟨c, hc⟩ := hc
  unfold copyIfShared
  split
  · obtain ⟨hlt, hget⟩ := List.getElem?_eq_some_iff.mp hc
    simp only [ears, copyHashTable, List.map_set, contextAt_eq hc, Option.map_some]
    refine List.ext_getElem (by simp) (fun j hj hj' => ?_)
    rw [List.getElem_set]
    split
    · next heq =>
        subst heq
        simp [hget]
    · rfl
  · rfl

/-- Calls that change a variable spare the other contexts. -/
theorem change_spares {op : Table → Ports → Outcome} (hs : Inv s) (hop : Lawful op)
    (hframes : ∀ {table : Table} (ports : Ports), table.length = hashTableSize →
      Frames table ports (op table ports))
    {servPort : Nat} (hother : ∀ r, portToContext s servPort ≠ some (d, r))
    (hview : (views s)[d]? = some (some v)) (hp : portToContext s pd = some (d, restrict)) :
    Inv (change s servPort op).1 ∧ ears (change s servPort op).1 = ears s ∧
      Spared s (change s servPort op).1 d pd v := by
  unfold change
  cases hfound : portToContext s servPort with
  | none => exact ⟨hs, rfl, Spared.refl hview⟩
  | some found =>
      obtain ⟨cx, r⟩ := found
      cases r with
      | true => exact ⟨hs, rfl, Spared.refl hview⟩
      | false =>
          have hne : cx ≠ d := by
            rintro rfl
            exact hother false hfound
          obtain ⟨c, hc, -, -⟩ := portToContext_some hfound
          obtain ⟨hinv, hequiv, c₁, h₁, ho⟩ := copyIfShared_spec hs hc
          have hsize := (hinv.tidy ho.head).length
          have hspared : Spared s (copyIfShared s cx) d pd v := Spared.of_equiv hequiv hview
          dsimp only
          rw [if_neg Bool.false_ne_true, ho.tableOf_eq]
          refine ⟨store_inv hinv ho.context ho.head (hop.keeps _ hsize), ears_copyIfShared ⟨c, hc⟩, ?_⟩
          exact hspared.trans (ho.spares hinv (hop.keeps _ hsize) (hframes _ hsize) hne
            hspared.view' (hspared.served.trans hp))

theorem consult_spares {op : Table → Ports → Outcome × Reply} {quiet : Table → Ports → Prop}
    (hs : Inv s) (hop : LawfulRead op quiet)
    (hframes : ∀ {table : Table} (ports : Ports), table.length = hashTableSize →
      Frames table ports (op table ports).1)
    {servPort : Nat} (hother : ∀ r, portToContext s servPort ≠ some (d, r))
    (hquiet : ∀ cx r, portToContext s servPort = some (cx, r) →
      1 < refcntOf s cx → quiet (tableOf s cx) s.ports)
    (hview : (views s)[d]? = some (some v)) (hp : portToContext s pd = some (d, restrict)) :
    Spared s (consult s servPort op).1 d pd v := by
  unfold consult
  cases hfound : portToContext s servPort with
  | none => exact Spared.refl hview
  | some found =>
      obtain ⟨cx, r⟩ := found
      have hne : cx ≠ d := by
        rintro rfl
        exact hother r hfound
      obtain ⟨c, hc, -, -⟩ := portToContext_some hfound
      obtain ⟨h, hh⟩ := hs.live hc
      have hof : tableOf s cx = h.table := by rw [tableOf, contextAt_eq hc, headAt_eq hh]
      dsimp only
      by_cases hshared : 1 < refcntOf s cx
      · obtain ⟨hkeep, hkeep'⟩ := hop.still (hquiet cx r hfound hshared)
        rw [store_self hc hh (hkeep.trans hof) hkeep']
        exact Spared.refl hview
      · have hcounted := hs.counted hh
        have hrefcnt : refcntOf s cx = h.refcnt := by
          rw [refcntOf, contextAt_eq hc, headAt_eq hh]
        have ho : Owns s cx c h := ⟨hc, hh, by omega⟩
        have hsize := (hs.tidy hh).length
        rw [hof]
        exact ho.spares hs (hop.keeps _ hsize) (hframes _ hsize) hne hview hp

theorem setString_frames (table : Table) (ports : Ports) (name value : Name) :
    Frames table ports (setString table ports name value) := by
  intro i _ _
  unfold setString
  split <;> rfl

theorem setPort_spares (hs : Inv s) (deallocOk : Nat → Bool) {servPort : Nat}
    (hother : ∀ r, portToContext s servPort ≠ some (d, r)) (name : Name) (value : Nat)
    (hview : (views s)[d]? = some (some v)) (hp : portToContext s pd = some (d, restrict)) :
    Inv (envSetPort deallocOk s servPort name value).1 ∧
      ears (envSetPort deallocOk s servPort name value).1 = ears s ∧
      Spared s (envSetPort deallocOk s servPort name value).1 d pd v := by
  unfold envSetPort
  split
  · exact ⟨hs, rfl, Spared.refl hview⟩
  · exact change_spares hs (setPort_lawful deallocOk name value)
      (fun ports htable => setPort_frames htable deallocOk ports name value) hother hview hp

theorem setStlist_spares (vars : List (Name × Name)) (retcode : Code) {servPort : Nat} (hs : Inv s)
    (hother : ∀ r, portToContext s servPort ≠ some (d, r))
    (hview : (views s)[d]? = some (some v)) (hp : portToContext s pd = some (d, restrict)) :
    Spared s (envSetStlist s servPort retcode vars).1 d pd v := by
  induction vars generalizing s retcode with
  | nil => exact Spared.refl hview
  | cons var vars ih =>
      obtain ⟨name, value⟩ := var
      obtain ⟨hinv, hears, hspared⟩ := change_spares hs (setString_lawful name value)
        (fun ports _ => setString_frames _ ports name value) hother hview hp
      simp only [envSetStlist]
      split
      · refine hspared.trans (ih .success hinv (fun r hr => ?_) hspared.view'
          (hspared.served.trans hp))
        exact hother r ((portToContext_congr hears servPort).symm.trans hr)
      · exact hspared

theorem setPtlist_spares (vars : List (Name × Nat)) (deallocOk : Nat → Bool) (retcode : Code)
    {servPort : Nat} (hs : Inv s) (hother : ∀ r, portToContext s servPort ≠ some (d, r))
    (hview : (views s)[d]? = some (some v)) (hp : portToContext s pd = some (d, restrict)) :
    Spared s (envSetPtlist deallocOk s servPort retcode vars).1 d pd v := by
  induction vars generalizing s retcode with
  | nil => exact Spared.refl hview
  | cons var vars ih =>
      obtain ⟨name, value⟩ := var
      obtain ⟨hinv, hears, hspared⟩ := setPort_spares hs deallocOk hother name value hview hp
      simp only [envSetPtlist]
      split
      · refine hspared.trans (ih .success hinv (fun r => ?_) hspared.view'
          (hspared.served.trans hp))
        rw [portToContext_congr hears]
        exact hother r
      · exact hspared

/-- A new context is not the context of a port in use. -/
theorem Spared.of_new {ncx newPort : Nat} {table : Table} (hn : s.contexts[ncx]? = some none)
    (hp : portToContext s pd = some (d, restrict)) (hview : (views s)[d]? = some (some v))
    (hviews : views s' = (views s).set ncx (some ⟨table, newPort, 0⟩))
    (hports : s'.ports = s.ports) (hpd : pd ≠ 0) (hfresh : newPort ≠ pd) :
    Spared s s' d pd v := by
  refine Spared.of_set hp hview ?_ hviews (fun hlisten => ?_) (fun i _ => by rw [hports])
  · rintro rfl
    obtain ⟨c, hc, -⟩ := view_context hview
    rw [hn] at hc
    cases hc
  · simp only [viewListens, Option.elim_some, Bool.or_eq_true, beq_iff_eq] at hlisten
    rcases hlisten with hnew | hzero
    · exact absurd hnew hfresh
    · exact absurd hzero.symm hpd

theorem setRoport_spares {c : Context} {roport : Nat} (hc : s.contexts[cx]? = some (some c))
    (hne : cx ≠ d) (hp : portToContext s pd = some (d, restrict))
    (hview : (views s)[d]? = some (some v)) (hro : roport ≠ pd) :
    Spared s (setRoport s cx roport) d pd v := by
  refine Spared.of_set hp hview hne (views_setRoport hc roport) (fun hlisten => ?_)
    (fun _ _ => rfl)
  refine ⟨some (viewOf s c), by rw [views_getElem?, hc]; rfl, ?_⟩
  simp only [viewListens, Option.elim_some, Bool.or_eq_true, beq_iff_eq] at hlisten ⊢
  rcases hlisten with hrw | hbad
  · exact Or.inl hrw
  · exact absurd hbad hro

/-- No variable of the table holds the port. -/
def NotHeld (table : Table) (ports : Ports) (port : Nat) : Prop :=
  port ≠ 0 → ∀ i, 0 < uses table i → ptAt ports i ≠ port

theorem removeDeadPort_ptAt {ports : Ports} {port i : Nat}
    (hnot : port ≠ 0 → ptAt ports i ≠ port) :
    ptAt (removeDeadPort ports port) i = ptAt ports i := by
  unfold removeDeadPort
  split
  · rfl
  · next k hfound =>
      obtain ⟨hk, hport, -⟩ := List.findIdx?_eq_some_iff_getElem.mp hfound
      have hpt : ports[k].pt = port := by simpa using hport
      rw [ptAt_modify _ hk]
      split
      · next heq =>
          subst heq
          rw [ptAt_eq hk, hpt] at hnot ⊢
          by_contra hne
          exact hnot (Ne.symm hne) rfl
      · rfl

theorem deadPort_spares {port : Nat} (hview : (views s)[d]? = some (some v))
    (hnot : NotHeld v.table s.ports port) : Spared s (deadPort s port) d pd v :=
  ⟨hview, hview, fun i hi => removeDeadPort_ptAt (fun hport => hnot hport i hi), rfl⟩

theorem Spared.notHeld (h : Spared s s' d pd v) {port : Nat}
    (hnot : NotHeld v.table s.ports port) : NotHeld v.table s'.ports port := by
  intro hport i hi
  rw [h.ports i hi]
  exact hnot hport i hi

/-- What the environment of a call leaves to the context `d` with the port `pd`: ports that
`port_allocate` returns are new, and ports that die are not held by its variables. -/
def Spares (s : State) (d pd : Nat) : Call → Prop
  | .copyConn _ (.ok newPort) => newPort ≠ pd
  | .newConn (.ok newPort) => newPort ≠ pd
  | .restrictConn _ (.ok newPort) => newPort ≠ pd
  | .disconnect p => ∀ cx restrict, portToContext s p = some (cx, restrict) →
      NotHeld (tableOf s d) s.ports (contextAt s cx).rwport ∧
        NotHeld (tableOf s d) s.ports (contextAt s cx).roport
  | .portDeath port => NotHeld (tableOf s d) s.ports port
  | _ => True

/-- The port a call is made through. -/
def Call.servPort : Call → Option Nat
  | .setString p _ _ => some p
  | .getString p _ => some p
  | .delString p _ => some p
  | .setPort p _ _ => some p
  | .getPort p _ => some p
  | .delPort p _ => some p
  | .listStrings p _ _ => some p
  | .listPorts p _ => some p
  | .setStlist p _ _ => some p
  | .setPtlist p _ _ => some p
  | .copyConn p _ => some p
  | .newConn _ => none
  | .restrictConn p _ => some p
  | .disconnect p => some p
  | .portDeath _ => none

theorem view_tableOf (hview : (views s)[d]? = some (some v)) : tableOf s d = v.table := by
  obtain ⟨c, hc, rfl⟩ := view_context hview
  rw [tableOf, contextAt_eq hc]
  rfl

theorem disconnect_spares {servPort : Nat} (hs : Inv s)
    (hother : ∀ r, portToContext s servPort ≠ some (d, r)) (hpd : pd ≠ 0)
    (hspares : Spares s d pd (.disconnect servPort))
    (hview : (views s)[d]? = some (some v)) (hp : portToContext s pd = some (d, restrict)) :
    Spared s (envDisconnect s servPort).1 d pd v := by
  unfold envDisconnect
  cases hfound : portToContext s servPort with
  | none => exact Spared.refl hview
  | some found =>
      obtain ⟨cx, r⟩ := found
      have hne : cx ≠ d := by
        rintro rfl
        exact hother r hfound
      obtain ⟨c, hc, -, -⟩ := portToContext_some hfound
      obtain ⟨h, hh⟩ := hs.live hc
      obtain ⟨hrw, hro⟩ := hspares cx r hfound
      rw [contextAt_eq hc, view_tableOf hview] at hrw hro
      dsimp only
      rw [contextAt_eq hc]
      cases r with
      | true =>
          rw [if_pos rfl]
          split
          · exact Spared.refl hview
          · have hdead : Spared s (deadPort s c.roport) d pd v := deadPort_spares hview hro
            exact hdead.trans (setRoport_spares (s := deadPort s c.roport) hc hne
              (hdead.served.trans hp) hdead.view' (Ne.symm hpd))
      | false =>
          have hdispose : Spared s (dispose s cx) d pd v :=
            Spared.of_set hp hview hne (views_dispose hs hc hh) (fun hlisten => by cases hlisten)
              (fun _ _ => rfl)
          have hdead := hdispose.trans
            (deadPort_spares hdispose.view' (hdispose.notHeld hrw))
          rw [if_neg Bool.false_ne_true]
          split
          · exact hdead.trans (deadPort_spares hdead.view' (hdead.notHeld hro))
          · exact hdead

/-- A safe call that is not made through `d` leaves to `d` what it sees. -/
theorem serve_spares (hs : Inv s) (deallocOk : Nat → Bool) (call : Call) (hsafe : Safe s call)
    (hother : ∀ p r, call.servPort = some p → portToContext s p ≠ some (d, r)) (hpd : pd ≠ 0)
    (hspares : Spares s d pd call) (hview : (views s)[d]? = some (some v))
    (hp : portToContext s pd = some (d, restrict)) :
    Spared s (serve false deallocOk s call).1 d pd v := by
  cases call with
  | setString p name value =>
      exact (change_spares hs (setString_lawful name value)
        (fun ports _ => setString_frames _ ports name value) (fun r => hother p r rfl) hview hp).2.2
  | getString p name =>
      exact consult_spares hs (getStringOp_lawful name) (fun _ _ _ _ _ => rfl)
        (fun r => hother p r rfl) (fun _ _ _ _ => trivial) hview hp
  | delString p name =>
      exact (change_spares hs (deleteHashEntry_lawful deallocOk name .envstr)
        (fun ports htable => deleteHashEntry_frames htable deallocOk ports name .envstr)
        (fun r => hother p r rfl) hview hp).2.2
  | setPort p name value =>
      exact (setPort_spares hs deallocOk (fun r => hother p r rfl) name value hview hp).2.2
  | getPort p name =>
      exact consult_spares hs (getPortOp_lawful deallocOk name)
        (fun ports htable => getPort_frames htable deallocOk ports name)
        (fun r => hother p r rfl) hsafe hview hp
  | delPort p name =>
      exact (change_spares hs (deleteHashEntry_lawful deallocOk name .envport)
        (fun ports htable => deleteHashEntry_frames htable deallocOk ports name .envport)
        (fun r => hother p r rfl) hview hp).2.2
  | listStrings p names values =>
      exact consult_spares hs (listStringsOp_lawful names values) (fun _ _ _ _ _ => rfl)
        (fun r => hother p r rfl) (fun _ _ _ _ => trivial) hview hp
  | listPorts p names =>
      exact consult_spares hs (listPortsOp_lawful deallocOk names)
        (fun ports htable => listPortsOp_frames htable deallocOk names ports)
        (fun r => hother p r rfl) hsafe hview hp
  | setStlist p retcode vars =>
      exact setStlist_spares vars retcode hs (fun r => hother p r rfl) hview hp
  | setPtlist p retcode vars =>
      exact setPtlist_spares vars deallocOk retcode hs (fun r => hother p r rfl) hview hp
  | copyConn p newEnvPort =>
      simp only [serve, envCopyConn]
      cases hfound : portToContext s p with
      | none => exact Spared.refl hview
      | some found =>
          obtain ⟨cx, r⟩ := found
          obtain ⟨c, hc, -, -⟩ := portToContext_some hfound
          obtain ⟨h, hh⟩ := hs.live hc
          cases hfree : s.contexts.findIdx? Option.isNone with
          | none => exact Spared.refl hview
          | some ncx =>
              cases newEnvPort with
              | error code => exact Spared.refl hview
              | ok newPort =>
                  have hn := findFree_some hfree
                  exact Spared.of_new hn hp hview (views_share hc hh hn newPort) rfl hpd hspares
  | newConn newEnvPort =>
      simp only [serve, envNewConn]
      cases hfree : s.contexts.findIdx? Option.isNone with
      | none => exact Spared.refl hview
      | some ncx =>
          cases newEnvPort with
          | error code => exact Spared.refl hview
          | ok newPort =>
              have hn := findFree_some hfree
              exact Spared.of_new hn hp hview (views_openContext hs hn newPort) rfl hpd hspares
  | restrictConn p newEnvPort =>
      simp only [serve, envRestrictConn]
      cases hfound : portToContext s p with
      | none => exact Spared.refl hview
      | some found =>
          obtain ⟨cx, r⟩ := found
          obtain ⟨c, hc, -, -⟩ := portToContext_some hfound
          have hne : cx ≠ d := by
            rintro rfl
            exact hother p r rfl hfound
          dsimp only
          split
          · exact Spared.refl hview
          · cases newEnvPort with
            | error code => exact Spared.refl hview
            | ok newPort => exact setRoport_spares hc hne hp hview hspares
  | disconnect p => exact disconnect_spares hs (fun r => hother p r rfl) hpd hspares hview hp
  | portDeath port =>
      refine deadPort_spares hview ?_
      rw [← view_tableOf hview]
      exact hspares

end Spared

/-! ## The replies to the other context

The code of a change depends on the names and types in the table only, apart
from the places left in the port table. -/

def keyOf (entry : HashEntry) : Name × EnvType :=
  (entry.name, entry.envval.vartype)

def shape (table : Table) : List (List (Name × EnvType)) :=
  table.map (List.map keyOf)

section Shape

variable {T T' : Table} {name : Name}

theorem shape_chainOf (h : shape T = shape T') (name : Name) :
    (chainOf T name).map keyOf = (chainOf T' name).map keyOf := by
  have hget : ∀ U : Table, (chainOf U name).map keyOf =
      (shape U).getD (hash (convUpper name)) [] := by
    intro U
    simp only [chainOf, shape, List.getD_eq_getElem?_getD, List.getElem?_map]
    cases U[hash (convUpper name)]? <;> rfl
  rw [hget, hget, h]

theorem shape_find (h : shape T = shape T') (name : Name) :
    (findHashEntry T name = none ∧ findHashEntry T' name = none) ∨
      ∃ e e', findHashEntry T name = some e ∧ findHashEntry T' name = some e' ∧
        e.envval.vartype = e'.envval.vartype := by
  have hkey : ∀ U : Table, (findHashEntry U name).map keyOf =
      ((chainOf U name).map keyOf).find? (fun key => strEqCase (convUpper name) key.1) := by
    intro U
    rw [List.find?_map]
    rfl
  have hmap : (findHashEntry T name).map keyOf = (findHashEntry T' name).map keyOf := by
    rw [hkey, hkey, shape_chainOf h]
  cases hfind : findHashEntry T name with
  | none =>
      rw [hfind] at hmap
      exact Or.inl ⟨rfl, Option.map_eq_none_iff.mp hmap.symm⟩
  | some e =>
      rw [hfind] at hmap
      obtain ⟨e', hfind', hkeys⟩ := Option.map_eq_some_iff.mp hmap.symm
      exact Or.inr ⟨e, e', rfl, hfind', (congrArg Prod.snd hkeys).symm⟩

theorem shape_set (h : shape T = shape T') (k : Nat) {chain chain' : List HashEntry}
    (hchain : chain.map keyOf = chain'.map keyOf) :
    shape (T.set k chain) = shape (T'.set k chain') := by
  simp only [shape, List.map_set] at h ⊢
  rw [h, hchain]

theorem map_keyOf_updateFirst (s : Name) {envval envval' : EnvVal}
    (htype : envval.vartype = envval'.vartype) {chain chain' : List HashEntry}
    (h : chain.map keyOf = chain'.map keyOf) :
    (updateFirst s envval chain).map keyOf = (updateFirst s envval' chain').map keyOf := by
  induction chain generalizing chain' with
  | nil =>
      cases chain' with
      | nil => rfl
      | cons entry' rest' => cases h
  | cons entry rest ih =>
      cases chain' with
      | nil => cases h
      | cons entry' rest' =>
          simp only [List.map_cons, List.cons.injEq] at h
          obtain ⟨hkey, hrest⟩ := h
          have hname : entry.name = entry'.name := congrArg Prod.fst hkey
          simp only [updateFirst, hname]
          split
          · simp only [List.map_cons, hrest, keyOf, htype]
          · simp only [List.map_cons, hkey, ih hrest]

theorem map_keyOf_removeFirst (s : Name) {chain chain' : List HashEntry}
    (h : chain.map keyOf = chain'.map keyOf) :
    (removeFirst s chain).map keyOf = (removeFirst s chain').map keyOf := by
  induction chain generalizing chain' with
  | nil =>
      cases chain' with
      | nil => rfl
      | cons entry' rest' => cases h
  | cons entry rest ih =>
      cases chain' with
      | nil => cases h
      | cons entry' rest' =>
          simp only [List.map_cons, List.cons.injEq] at h
          obtain ⟨hkey, hrest⟩ := h
          have hname : entry.name = entry'.name := congrArg Prod.fst hkey
          simp only [removeFirst, hname]
          split
          · exact hrest
          · simp only [List.map_cons, hkey, ih hrest]

theorem shape_createHashEntry (h : shape T = shape T') {envval envval' : EnvVal}
    (htype : envval.vartype = envval'.vartype) :
    shape (createHashEntry T name envval) = shape (createHashEntry T' name envval') := by
  refine shape_set h _ ?_
  simp only [List.map_cons, keyOf, htype, List.cons.injEq, true_and]
  exact shape_chainOf h name

theorem shape_setHashEntry (h : shape T = shape T') {envval envval' : EnvVal}
    (htype : envval.vartype = envval'.vartype) :
    shape (setHashEntry T name envval) = shape (setHashEntry T' name envval') :=
  shape_set h _ (map_keyOf_updateFirst _ htype (shape_chainOf h name))

/-- An operation that looks at the names and types, unless the port table is full. -/
def Shapely (op : Table → Ports → Outcome) : Prop :=
  ∀ {T T' : Table} {P P' : Ports}, shape T = shape T' →
    (op T P).code ≠ .portTableFull → (op T' P').code ≠ .portTableFull →
    (op T P).code = (op T' P').code ∧ shape (op T P).table = shape (op T' P').table

theorem setString_shapely (name value : Name) :
    Shapely (fun table ports => setString table ports name value) := by
  intro T T' P P' h _ _
  simp only [setString]
  rcases shape_find h name with ⟨hfind, hfind'⟩ | ⟨⟨n, e⟩, ⟨n', e'⟩, hfind, hfind', htype⟩
  · rw [hfind, hfind']
    exact ⟨rfl, shape_createHashEntry h rfl⟩
  · rw [hfind, hfind']
    cases e <;> cases e'
    · exact ⟨rfl, shape_setHashEntry h rfl⟩
    · cases htype
    · cases htype
    · exact ⟨rfl, h⟩

theorem deleteHashEntry_shapely (deallocOk : Nat → Bool) (name : Name) (vt : EnvType) :
    Shapely (fun table ports => deleteHashEntry deallocOk table ports name vt) := by
  intro T T' P P' h _ _
  have hremove : shape (T.set (hash (convUpper name))
      (removeFirst (convUpper name) (chainOf T name))) = shape (T'.set (hash (convUpper name))
        (removeFirst (convUpper name) (chainOf T' name))) :=
    shape_set h _ (map_keyOf_removeFirst _ (shape_chainOf h name))
  simp only [deleteHashEntry]
  rcases shape_find h name with ⟨hfind, hfind'⟩ | ⟨⟨n, e⟩, ⟨n', e'⟩, hfind, hfind', htype⟩
  · rw [hfind, hfind']
    exact ⟨rfl, h⟩
  · rw [hfind, hfind']
    dsimp only at htype ⊢
    rw [htype]
    split
    · cases e <;> cases e' <;> exact ⟨rfl, hremove⟩
    · exact ⟨rfl, h⟩

theorem setPort_shapely (deallocOk : Nat → Bool) (name : Name) (value : Nat) :
    Shapely (fun table ports => setPort deallocOk table ports name value) := by
  -- a port variable is set, or it held the port already; both leave a port variable
  have hsame : ∀ {U : Table} {n : Name} {pi qi : Nat}, findHashEntry U name = some ⟨n, .port pi⟩ →
      shape (setHashEntry U name (.port qi)) = shape U := by
    intro U n pi qi hfind
    have hchain : ∀ chain : List HashEntry,
        chain.find? (fun e => strEqCase (convUpper name) e.name) = some ⟨n, .port pi⟩ →
        (updateFirst (convUpper name) (.port qi) chain).map keyOf = chain.map keyOf := by
      intro chain hfound
      induction chain with
      | nil => rfl
      | cons entry rest ih =>
          by_cases hname : strEqCase (convUpper name) entry.name = true
          · simp only [List.find?_cons, hname, Option.some.injEq] at hfound
            subst hfound
            simp only [updateFirst, hname, if_true, List.map_cons, keyOf, EnvVal.vartype]
          · simp only [List.find?_cons, hname] at hfound
            simp only [updateFirst, hname, Bool.false_eq_true, if_false, List.map_cons, ih hfound]
    have hset := hchain _ hfind
    simp only [setHashEntry, shape, List.map_set, hset]
    rw [← List.map_set]
    congr 1
    refine List.ext_getElem (by simp) (fun j hj hj' => ?_)
    rw [List.getElem_set]
    split
    · next heq =>
        subst heq
        simp [chainOf, List.getD_eq_getElem?_getD, hj']
    · rfl
  intro T T' P P' h hroom hroom'
  simp only [setPort] at hroom hroom' ⊢
  rcases shape_find h name with ⟨hfind, hfind'⟩ | ⟨⟨n, e⟩, ⟨n', e'⟩, hfind, hfind', htype⟩
  · simp only [hfind, hfind'] at hroom hroom' ⊢
    cases hadd : addPort P value with
    | none => simp [hadd] at hroom
    | some result =>
        cases hadd' : addPort P' value with
        | none => simp [hadd'] at hroom'
        | some result' => exact ⟨rfl, shape_createHashEntry h rfl⟩
  · simp only [hfind, hfind'] at hroom hroom' ⊢
    cases e <;> cases e'
    · exact ⟨rfl, h⟩
    · cases htype
    · cases htype
    · next pi pi' =>
        have hone : ∀ {U : Table} {Q : Ports} {m : Name} {qi : Nat},
            findHashEntry U name = some ⟨m, .port qi⟩ →
            (setPort deallocOk U Q name value).code ≠ .portTableFull →
            (setPort deallocOk U Q name value).code = .success ∧
              shape (setPort deallocOk U Q name value).table = shape U := by
          intro U Q m qi hfound hfree
          unfold setPort at hfree ⊢
          simp only [hfound] at hfree ⊢
          split at hfree
          · next hheld =>
              rw [if_pos hheld]
              exact ⟨rfl, rfl⟩
          · next hheld =>
              rw [if_neg hheld]
              cases hadd : addPort Q value with
              | none => simp [hadd] at hfree
              | some result => exact ⟨rfl, hsame hfound⟩
        have hT := hone (Q := P) hfind (by unfold setPort; simpa only [hfind] using hroom)
        have hT' := hone (Q := P') hfind' (by unfold setPort; simpa only [hfind'] using hroom')
        unfold setPort at hT hT'
        simp only [hfind, hfind'] at hT hT'
        exact ⟨hT.1.trans hT'.1.symm, hT.2.trans (h.trans hT'.2.symm)⟩

end Shape

/-- Two states in which a context has the same names and types. -/
structure Alike (s s' : State) (d pd : Nat) (restrict : Bool) : Prop where
  inv : Inv s
  inv' : Inv s'
  served : portToContext s pd = some (d, restrict)
  served' : portToContext s' pd = some (d, restrict)
  shape : shape (tableOf s d) = shape (tableOf s' d)

section Replies

variable {s s' : State} {d pd : Nat} {restrict : Bool} {v : View}

theorem Owns.tableOf_store {cx : Nat} {c : Context} {h : HashHead} (ho : Owns s cx c h)
    (o : Outcome) : tableOf (store s cx o) cx = o.table := by
  have hcontext : contextAt (store s cx o) cx = c := contextAt_eq ho.context
  rw [tableOf, hcontext, headAt_eq (by rw [store_heads ho.context ho.head, if_pos rfl])]

theorem Equiv.tableOf {cx : Nat} {c : Context} (hst : Equiv s s')
    (hc : s.contexts[cx]? = some (some c)) : tableOf s cx = tableOf s' cx := by
  obtain ⟨c', hc', hview⟩ := hst.context hc
  rw [EnvMgr.tableOf, EnvMgr.tableOf, contextAt_eq hc, contextAt_eq hc']
  exact congrArg View.table hview

theorem Alike.change {op : Table → Ports → Outcome} (h : Alike s s' d pd restrict)
    (hop : Lawful op) (hshape : Shapely op)
    (hroom : (change s pd op).2.code ≠ .portTableFull)
    (hroom' : (change s' pd op).2.code ≠ .portTableFull) :
    (change s pd op).2 = (change s' pd op).2 ∧
      Alike (change s pd op).1 (change s' pd op).1 d pd restrict := by
  unfold EnvMgr.change at hroom hroom' ⊢
  rw [h.served] at hroom ⊢
  rw [h.served'] at hroom' ⊢
  cases restrict with
  | true => exact ⟨rfl, h⟩
  | false =>
      obtain ⟨c, hc, -, -⟩ := portToContext_some h.served
      obtain ⟨c', hc', -, -⟩ := portToContext_some h.served'
      obtain ⟨hinv, hequiv, c₁, h₁, ho⟩ := copyIfShared_spec h.inv hc
      obtain ⟨hinv', hequiv', c₁', h₁', ho'⟩ := copyIfShared_spec h.inv' hc'
      have htables : EnvMgr.shape (tableOf (copyIfShared s d) d) =
          EnvMgr.shape (tableOf (copyIfShared s' d) d) := by
        rw [← hequiv.tableOf hc, ← hequiv'.tableOf hc', h.shape]
      have hsize := (hinv.tidy ho.head).length
      have hsize' := (hinv'.tidy ho'.head).length
      dsimp only at hroom hroom' ⊢
      rw [if_neg Bool.false_ne_true] at hroom hroom' ⊢
      rw [if_neg Bool.false_ne_true]
      obtain ⟨hcode, hafter⟩ := hshape htables hroom hroom'
      refine ⟨by rw [hcode], ?_, ?_, ?_, ?_, ?_⟩
      · rw [ho.tableOf_eq]
        exact store_inv hinv ho.context ho.head (hop.keeps _ hsize)
      · rw [ho'.tableOf_eq]
        exact store_inv hinv' ho'.context ho'.head (hop.keeps _ hsize')
      · rw [← h.served]
        exact portToContext_congr (ears_copyIfShared ⟨c, hc⟩) pd
      · rw [← h.served']
        exact portToContext_congr (ears_copyIfShared ⟨c', hc'⟩) pd
      · rw [ho.tableOf_store, ho'.tableOf_store]
        exact hafter

theorem Alike.setPort (h : Alike s s' d pd restrict) (deallocOk : Nat → Bool) (name : Name)
    (value : Nat) (hroom : (envSetPort deallocOk s pd name value).2.code ≠ .portTableFull)
    (hroom' : (envSetPort deallocOk s' pd name value).2.code ≠ .portTableFull) :
    (envSetPort deallocOk s pd name value).2 = (envSetPort deallocOk s' pd name value).2 ∧
      Alike (envSetPort deallocOk s pd name value).1 (envSetPort deallocOk s' pd name value).1
        d pd restrict := by
  unfold envSetPort at hroom hroom' ⊢
  split at hroom
  · next hzero =>
      rw [if_pos hzero, if_pos hzero]
      exact ⟨rfl, h⟩
  · next hzero =>
      rw [if_neg hzero] at hroom' ⊢
      rw [if_neg hzero]
      exact h.change (setPort_lawful deallocOk name value) (setPort_shapely deallocOk name value)
        hroom hroom'

/-- Setting a string never finds the port table full. -/
theorem setString_room (s : State) (p : Nat) (name value : Name) :
    (envSetString s p name value).2.code ≠ .portTableFull := by
  unfold envSetString change
  cases portToContext s p with
  | none => simp
  | some found =>
      obtain ⟨cx, r⟩ := found
      cases r with
      | true => simp
      | false =>
          simp only [Bool.false_eq_true, if_false, setString]
          split <;> simp

theorem deleteHashEntry_room (deallocOk : Nat → Bool) (s : State) (p : Nat) (name : Name)
    (vt : EnvType) :
    (change s p (fun table ports => deleteHashEntry deallocOk table ports name vt)).2.code ≠
      .portTableFull := by
  unfold change
  cases portToContext s p with
  | none => simp
  | some found =>
      obtain ⟨cx, r⟩ := found
      cases r with
      | true => simp
      | false =>
          simp only [Bool.false_eq_true, if_false, deleteHashEntry]
          split
          · simp
          · split
            · split <;> simp
            · simp

theorem Alike.setStlist (h : Alike s s' d pd restrict) (retcode : Code)
    (vars : List (Name × Name)) :
    (envSetStlist s pd retcode vars).2 = (envSetStlist s' pd retcode vars).2 := by
  induction vars generalizing s s' retcode with
  | nil => rfl
  | cons var vars ih =>
      obtain ⟨name, value⟩ := var
      have hboth : (envSetString s pd name value).2 = (envSetString s' pd name value).2 ∧
          Alike (envSetString s pd name value).1 (envSetString s' pd name value).1 d pd restrict :=
        h.change (setString_lawful name value) (setString_shapely name value)
          (setString_room s pd name value) (setString_room s' pd name value)
      simp only [envSetStlist]
      rw [← hboth.1]
      split
      · exact ih hboth.2 .success
      · rfl

theorem Alike.setPtlist (h : Alike s s' d pd restrict) (deallocOk : Nat → Bool) (retcode : Code)
    (vars : List (Name × Nat))
    (hroom : (envSetPtlist deallocOk s pd retcode vars).2.code ≠ .portTableFull)
    (hroom' : (envSetPtlist deallocOk s' pd retcode vars).2.code ≠ .portTableFull) :
    (envSetPtlist deallocOk s pd retcode vars).2 =
      (envSetPtlist deallocOk s' pd retcode vars).2 := by
  induction vars generalizing s s' retcode with
  | nil => rfl
  | cons var vars ih =>
      obtain ⟨name, value⟩ := var
      -- a full port table at the first variable would be the code of the whole call
      have hfirst : ∀ {u : State}, (envSetPtlist deallocOk u pd retcode ((name, value) :: vars)).2.code ≠
          .portTableFull → (envSetPort deallocOk u pd name value).2.code ≠ .portTableFull := by
        intro u hu hfull
        refine hu ?_
        simp only [envSetPtlist, hfull]
        rfl
      obtain ⟨hreply, halike⟩ := h.setPort deallocOk name value (hfirst hroom) (hfirst hroom')
      simp only [envSetPtlist] at hroom hroom' ⊢
      rw [← hreply] at hroom' ⊢
      split
      · next hsuccess =>
          rw [if_pos hsuccess] at hroom hroom'
          exact ih halike .success hroom hroom'
      · rfl

/-- The reply to a reading call in terms of what the context sees. -/
theorem consult_reply {op : Table → Ports → Outcome × Reply}
    (hp : portToContext s pd = some (d, restrict)) (hview : (views s)[d]? = some (some v)) :
    (consult s pd op).2 = (op v.table s.ports).2 := by
  unfold consult
  rw [hp, ← view_tableOf hview]

theorem getPortOp_sameFor {table : Table} {ports ports' : Ports}
    (hsame : SameFor table ports ports') (deallocOk : Nat → Bool) (name : Name) :
    (getPortOp deallocOk name table ports).2 = (getPortOp deallocOk name table ports').2 := by
  simp only [getPortOp, getPort]
  cases hfind : findHashEntry table name with
  | none => rfl
  | some entry =>
      obtain ⟨n, envval⟩ := entry
      cases envval with
      | str value => rfl
      | port pi =>
          have hmem : (⟨n, .port pi⟩ : HashEntry) ∈ table.getD (hash (convUpper name)) [] :=
            List.mem_of_find?_eq_some hfind
          have hport := hsame pi (uses_pos hmem rfl)
          simp only [hport]
          split <;> rfl

theorem listPortsOp_sameFor {table : Table} {ports ports' : Ports} (ht : Tidy table)
    (hsame : SameFor table ports ports') (deallocOk : Nat → Bool) (names : Option Nat) :
    (listPortsOp deallocOk names table ports).2 = (listPortsOp deallocOk names table ports').2 := by
  have hstart : Abreast table ports ports' (⟨.success, table, ports⟩, 0)
      (⟨.success, table, ports'⟩, 0) :=
    ⟨rfl, rfl, rfl, rfl, rfl, ht.length, fun _ => List.Subset.refl _⟩
  have hswept : Abreast table ports ports' (sweep deallocOk table ports)
      (sweep deallocOk table ports') := sweepChains_abreast _ ht hsame hstart
  have hvars : portVars (sweep deallocOk table ports).1.table (sweep deallocOk table ports).1.ports =
      portVars (sweep deallocOk table ports').1.table (sweep deallocOk table ports').1.ports := by
    unfold portVars
    rw [← hswept.table, hswept.pts, hswept.pts']
    refine List.filterMap_congr (fun entry hentry => ?_)
    cases hval : entry.envval with
    | str value => rfl
    | port pi =>
        obtain ⟨chain, hchain, hmem⟩ := List.mem_flatten.mp hentry
        obtain ⟨hi, hlt, rfl⟩ := List.mem_iff_getElem.mp hchain
        have hin : entry ∈ table.getD hi [] :=
          hswept.within hi (by rw [List.getD_eq_getElem _ _ hlt]; exact hmem)
        simp only [hsame pi (uses_pos hin hval)]
  unfold listPortsOp
  generalize sweep deallocOk table ports = swept at hswept hvars ⊢
  generalize sweep deallocOk table ports' = swept' at hswept hvars ⊢
  dsimp only
  rw [← hswept.counted, ← hswept.code, hvars]
  split
  · rfl
  · split <;> rfl

/-- The manager ran out of places in the port table or of contexts. -/
def Exhausted (code : Code) : Prop :=
  code = .portTableFull ∨ code = .noMoreConn

/-- A context that was spared gets the reply it would have got. -/
theorem Spared.reply (hs : Inv s) (hs' : Inv s') (h : Spared s s' d pd v)
    (hp : portToContext s pd = some (d, restrict)) (deallocOk : Nat → Bool) {call : Call}
    (hcall : call.servPort = some pd) (hroom : ¬ Exhausted (serve false deallocOk s call).2.code)
    (hroom' : ¬ Exhausted (serve false deallocOk s' call).2.code) :
    (serve false deallocOk s' call).2 = (serve false deallocOk s call).2 := by
  have hp' : portToContext s' pd = some (d, restrict) := h.served.trans hp
  have halike : Alike s s' d pd restrict :=
    ⟨hs, hs', hp, hp', by rw [view_tableOf h.view, view_tableOf h.view']⟩
  have hsame : SameFor v.table s.ports s'.ports := fun i hi => (h.ports i hi).symm
  obtain ⟨c, hc, hv⟩ := view_context h.view
  obtain ⟨c', hc', hv'⟩ := view_context h.view'
  have hviews : viewOf s c = viewOf s' c' := hv.trans hv'.symm
  have hro : c.roport = c'.roport := congrArg View.roport hviews
  have htidy : Tidy v.table := by
    obtain ⟨hd, hhd⟩ := hs.live hc
    rw [← hv]
    simp only [viewOf, headAt_eq hhd]
    exact hs.tidy hhd
  have hread : ∀ {op : Table → Ports → Outcome × Reply},
      (op v.table s.ports).2 = (op v.table s'.ports).2 → (consult s pd op).2 = (consult s' pd op).2 :=
    fun hop => (consult_reply hp h.view).trans (hop.trans (consult_reply hp' h.view').symm)
  symm
  cases call <;> cases hcall
  case setString name value =>
    exact (halike.change (setString_lawful name value) (setString_shapely name value)
      (setString_room s pd name value) (setString_room s' pd name value)).1
  case getString name => exact @hread (getStringOp name) rfl
  case delString name =>
    exact (halike.change (deleteHashEntry_lawful deallocOk name .envstr)
      (deleteHashEntry_shapely deallocOk name .envstr) (deleteHashEntry_room deallocOk s pd name _)
      (deleteHashEntry_room deallocOk s' pd name _)).1
  case setPort name value =>
    exact (halike.setPort deallocOk name value (fun hfull => hroom (Or.inl hfull))
      (fun hfull => hroom' (Or.inl hfull))).1
  case getPort name => exact hread (getPortOp_sameFor hsame deallocOk name)
  case delPort name =>
    exact (halike.change (deleteHashEntry_lawful deallocOk name .envport)
      (deleteHashEntry_shapely deallocOk name .envport) (deleteHashEntry_room deallocOk s pd name _)
      (deleteHashEntry_room deallocOk s' pd name _)).1
  case listStrings names values => exact @hread (listStringsOp names values) rfl
  case listPorts names => exact hread (listPortsOp_sameFor htidy hsame deallocOk names)
  case setStlist retcode vars => exact halike.setStlist retcode vars
  case setPtlist retcode vars =>
    exact halike.setPtlist deallocOk retcode vars (fun hfull => hroom (Or.inl hfull))
      (fun hfull => hroom' (Or.inl hfull))
  case copyConn newEnvPort =>
    simp only [serve, envCopyConn, hp, hp'] at hroom hroom' ⊢
    cases hfree : s.contexts.findIdx? Option.isNone with
    | none => simp [hfree, Exhausted] at hroom
    | some ncx =>
        cases hfree' : s'.contexts.findIdx? Option.isNone with
        | none => simp [hfree', Exhausted] at hroom'
        | some ncx' => cases newEnvPort <;> rfl
  case restrictConn newEnvPort =>
    simp only [serve, envRestrictConn, hp, hp', contextAt_eq hc, contextAt_eq hc', hro]
    split
    · rfl
    · cases newEnvPort <;> rfl
  case disconnect =>
    simp only [serve, envDisconnect, hp, hp', contextAt_eq hc, contextAt_eq hc', hro]
    split
    · split <;> rfl
    · rfl

end Replies

/-! ## Results -/

/-- A call through one context does not change the reply to a call through another context,
except that the manager may run out of something and that a port may die. -/
def Isolated (s : State) : Prop :=
  ∀ (m : Message) (q : Call) (deallocOk : Nat → Bool) (pd d : Nat) (restrict : Bool),
    Safe s m.call → (∀ p r, m.call.servPort = some p → portToContext s p ≠ some (d, r)) →
    Spares s d pd m.call → pd ≠ 0 → portToContext s pd = some (d, restrict) →
    q.servPort = some pd → ¬ Exhausted (serve false deallocOk s q).2.code →
    ¬ Exhausted (serve false deallocOk (serve false m.deallocOk s m.call).1 q).2.code →
    (serve false deallocOk (serve false m.deallocOk s m.call).1 q).2 =
      (serve false deallocOk s q).2

theorem Rel.isolated {s t : State} (hr : Rel s t) : Isolated s := by
  intro m q deallocOk pd d restrict hsafe hother hspares hpd hp hq hroom hroom'
  obtain ⟨c, hc, -, -⟩ := portToContext_some hp
  have hview : (views s)[d]? = some (some (viewOf s c)) := by
    rw [views_getElem?, hc]
    rfl
  obtain ⟨hrel, -⟩ := hr.serve m.deallocOk m.call hsafe
  have hspared := serve_spares hr.inv m.deallocOk m.call hsafe hother hpd hspares hview hp
  exact hspared.reply hr.inv hrel.inv hp deallocOk hq hroom hroom'

/-- While no call changes a shared table, every call gets the reply of the manager that copies
tables at once, and the contexts are isolated. -/
theorem sharing_not_observable (environmentPort nameServerPort servicePort knownEnvPort : Nat)
    (messages : List Message)
    (hsafe : SafeRun (envInit environmentPort nameServerPort servicePort knownEnvPort) messages) :
    (serveAll false (envInit environmentPort nameServerPort servicePort knownEnvPort) messages).2 =
        (serveAll true (envInit environmentPort nameServerPort servicePort knownEnvPort) messages).2 ∧
      Isolated (serveAll false
        (envInit environmentPort nameServerPort servicePort knownEnvPort) messages).1 := by
  obtain ⟨hrel, hreplies⟩ := (envInit_rel environmentPort nameServerPort servicePort
    knownEnvPort).serveAll messages hsafe
  exact ⟨hreplies, hrel.isolated⟩

/-- A port variable is copied with its context, and the copy is changed before the port dies. -/
def copiedRun : List Message :=
  [⟨.setPort 5 [80] 77, fun _ => true⟩, ⟨.copyConn 5 (.ok 9), fun _ => true⟩,
    ⟨.setString 9 [83] [120], fun _ => true⟩, ⟨.portDeath 77, fun _ => true⟩,
    ⟨.getPort 9 [80], fun _ => true⟩, ⟨.getString 5 [80], fun _ => true⟩]

theorem sharing_not_observable_copied :
    (serveAll false (envInit 1 2 3 5) copiedRun).2 = (serveAll true (envInit 1 2 3 5) copiedRun).2 ∧
      Isolated (serveAll false (envInit 1 2 3 5) copiedRun).1 := by
  refine sharing_not_observable 1 2 3 5 copiedRun ⟨trivial, trivial, trivial, trivial, ?_, trivial,
    trivial⟩
  intro cx restrict hp hshared
  have hcx : (portToContext (serveAll false (envInit 1 2 3 5) (copiedRun.take 4)).1 9).map
      Prod.fst = some 1 := by decide +kernel
  have hone : refcntOf (serveAll false (envInit 1 2 3 5) (copiedRun.take 4)).1 1 = 1 := by
    decide +kernel
  have heq : some cx = some 1 := by
    rw [← hcx]
    exact (congrArg (Option.map Prod.fst) hp).symm
  cases heq
  exact absurd hone (ne_of_gt hshared)

/-- A port variable is copied with its context, the port dies, and the variable is looked up
through the copy. -/
def deadPortRun : List Message :=
  [⟨.setPort 5 [80] 77, fun _ => true⟩, ⟨.copyConn 5 (.ok 9), fun _ => true⟩,
    ⟨.portDeath 77, fun _ => true⟩, ⟨.getPort 9 [80], fun _ => true⟩,
    ⟨.getString 5 [80], fun _ => true⟩]

/-- `env_get_port` through the copy removes the variable from the original context too. -/
theorem getPort_removes_shared_variable :
    (serveAll false (envInit 1 2 3 5) deadPortRun).2.map Reply.code =
        [.success, .success, .success, .varNotFound, .varNotFound] ∧
      (serveAll true (envInit 1 2 3 5) deadPortRun).2.map Reply.code =
        [.success, .success, .success, .varNotFound, .wrongVarType] ∧
      (serveAll false (envInit 1 2 3 5) deadPortRun).2 ≠
        (serveAll true (envInit 1 2 3 5) deadPortRun).2 := by
  decide +kernel

end MachFormal.EnvMgr
