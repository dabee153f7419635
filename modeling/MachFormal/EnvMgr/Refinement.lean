import MachFormal.EnvMgr.Sharing

/-!
# The sharing manager refines the reference manager

Each call of the environment manager keeps the sharing manager and the
reference manager related, unless it changes a table while other contexts use
it.  Two calls do so: a read that removes a variable with a dead port does not
copy the table first, and disconnecting the last but one user of a table does
not give up references that the reference manager has.
-/

namespace MachFormal.EnvMgr

/-! ## Connections -/

section Connections

variable {s t : State} {cx ncx : Nat} {c : Context} {h : HashHead}

theorem share_heads (hc : s.contexts[cx]? = some (some c))
    (hh : s.heads[c.head]? = some (some h)) (newPort a : Nat) :
    (share s cx ncx newPort).heads[a]? =
      if a = c.head then some (some { h with refcnt := h.refcnt + 1 }) else s.heads[a]? := by
  have hlt := (List.getElem?_eq_some_iff.mp hh).1
  simp only [share, contextAt_eq hc, headAt_eq hh, List.getElem?_set]
  by_cases ha : a = c.head
  · subst ha
    simp [hlt]
  · simp [ha, Ne.symm ha]

theorem share_contexts (hc : s.contexts[cx]? = some (some c)) (hn : s.contexts[ncx]? = some none)
    (newPort d : Nat) :
    (share s cx ncx newPort).contexts[d]? =
      if d = ncx then some (some ⟨c.head, newPort, 0⟩) else s.contexts[d]? := by
  have hlt := (List.getElem?_eq_some_iff.mp hn).1
  simp only [share, contextAt_eq hc, List.getElem?_set]
  by_cases hd : d = ncx
  · subst hd
    simp [hlt]
  · simp [hd, Ne.symm hd]

theorem total_share (hc : s.contexts[cx]? = some (some c))
    (hh : s.heads[c.head]? = some (some h)) (newPort i : Nat) :
    total (share s cx ncx newPort) i = total s i := by
  have hset : ((s.heads.set c.head (some { h with refcnt := h.refcnt + 1 })).map (headUses i)).sum +
      uses h.table i = total s i + uses h.table i := Library.sum_map_set (headUses i) hh
  simp only [total, share, contextAt_eq hc, headAt_eq hh] at hset ⊢
  omega

theorem share_inv (hs : Inv s) (hc : s.contexts[cx]? = some (some c))
    (hh : s.heads[c.head]? = some (some h)) (hn : s.contexts[ncx]? = some none) (newPort : Nat) :
    Inv (share s cx ncx newPort) := by
  have hcountP : ∀ a, (share s cx ncx newPort).contexts.countP (uses? a) =
      s.contexts.countP (uses? a) + (if c.head = a then 1 else 0) := by
    intro a
    have hset := Library.countP_set_add (uses? a) (some ⟨c.head, newPort, 0⟩) hn
    simpa [share, contextAt_eq hc, uses?] using hset
  refine ⟨?_, ?_, ?_, ?_⟩
  · intro d c' hd
    rw [share_contexts hc hn] at hd
    rw [share_heads hc hh]
    split at hd
    · cases hd
      exact ⟨_, if_pos rfl⟩
    · split
      · exact ⟨_, rfl⟩
      · exact hs.live hd
  · intro a h' ha
    have hcount := hcountP a
    rw [share_heads hc hh] at ha
    split at ha
    · next heq =>
        subst heq
        cases ha
        have hcounted := hs.counted hh
        rw [if_pos rfl] at hcount
        dsimp only
        omega
    · next hne =>
        have hcounted := hs.counted ha
        rw [if_neg (Ne.symm hne)] at hcount
        omega
  · intro a h' ha
    rw [share_heads hc hh] at ha
    split at ha
    · have htidy := hs.tidy hh
      cases ha
      exact htidy
    · exact hs.tidy ha
  · intro i hi
    have hbase : base (share s cx ncx newPort) i = base s i := by
      rw [base, total_share hc hh]
      rfl
    rw [hbase]
    exact hs.base_nonneg i hi

theorem views_share (hc : s.contexts[cx]? = some (some c))
    (hh : s.heads[c.head]? = some (some h)) (hn : s.contexts[ncx]? = some none) (newPort : Nat) :
    views (share s cx ncx newPort) = (views s).set ncx (some ⟨h.table, newPort, 0⟩) := by
  have hlt := (List.getElem?_eq_some_iff.mp hn).1
  have htables : ∀ a, (headAt (share s cx ncx newPort) a).table = (headAt s a).table := by
    intro a
    unfold headAt
    rw [share_heads hc hh]
    split
    · next heq =>
        subst heq
        rw [hh]
        rfl
    · rfl
  refine List.ext_getElem? (fun d => ?_)
  rw [views_getElem?, List.getElem?_set, views_getElem?, share_contexts hc hn]
  by_cases hd : d = ncx
  · subst hd
    have hlt' : d < (views s).length := by simpa [views] using hlt
    simp [viewOf, htables, headAt_eq hh, hlt']
  · rw [if_neg hd, if_neg (Ne.symm hd)]
    have hview : viewOf (share s cx ncx newPort) = viewOf s := by
      funext c'
      simp only [viewOf, htables]
    rw [hview]

theorem findFree_some (hfree : s.contexts.findIdx? Option.isNone = some ncx) :
    s.contexts[ncx]? = some none := by
  obtain ⟨hlt, hnone, -⟩ := List.findIdx?_eq_some_iff_getElem.mp hfree
  rw [List.getElem?_eq_getElem hlt]
  simpa using hnone

theorem Rel.findFree (hr : Rel s t) :
    s.contexts.findIdx? Option.isNone = t.contexts.findIdx? Option.isNone := by
  refine findIdx?_congr ?_
  have hmap : ∀ u : State, u.contexts.map Option.isNone = (views u).map Option.isNone := by
    intro u
    rw [views, List.map_map]
    refine List.map_congr_left (fun o _ => ?_)
    cases o <;> rfl
  rw [hmap, hmap, hr.equiv.views]

/-- `env_copy_conn` of both managers. -/
theorem Rel.copyConn (hr : Rel s t) (servPort : Nat) (newEnvPort : Except Nat Nat) :
    Rel (envCopyConn false s servPort newEnvPort).1 (envCopyConn true t servPort newEnvPort).1 ∧
      (envCopyConn false s servPort newEnvPort).2 = (envCopyConn true t servPort newEnvPort).2 := by
  unfold envCopyConn
  rw [← hr.equiv.portToContext servPort, ← hr.findFree]
  cases hp : EnvMgr.portToContext s servPort with
  | none => exact ⟨hr, rfl⟩
  | some found =>
      obtain ⟨cx, restrict⟩ := found
      obtain ⟨c, hc, -, -⟩ := portToContext_some hp
      obtain ⟨h, hh⟩ := hr.inv.live hc
      obtain ⟨c', h', ho', hview⟩ := hr.owns hc
      cases hfree : s.contexts.findIdx? Option.isNone with
      | none => exact ⟨hr, rfl⟩
      | some ncx =>
          cases newEnvPort with
          | error code => exact ⟨hr, rfl⟩
          | ok newPort =>
              refine ⟨?_, rfl⟩
              have hn := findFree_some hfree
              have hn' := findFree_some (hr.findFree ▸ hfree)
              have hshare := share_inv hr.inv hc hh hn newPort
              have hshare' := share_inv hr.inv' ho'.context ho'.head hn' newPort
              have htable : h.table = h'.table := by
                have htables := congrArg View.table hview
                simpa only [viewOf, headAt_eq hh, headAt_eq ho'.head] using htables
              have hequiv : Equiv (share s cx ncx newPort) (share t cx ncx newPort) := by
                refine ⟨?_, hr.equiv.pts, fun i hi => ?_⟩
                · rw [views_share hc hh hn, views_share ho'.context ho'.head hn', hr.equiv.views,
                    htable]
                · rw [base, base, total_share hc hh, total_share ho'.context ho'.head]
                  exact hr.equiv.base i hi
              -- the reference manager copies the table it just shared
              have hnew : (share t cx ncx newPort).contexts[ncx]? =
                  some (some ⟨c'.head, newPort, 0⟩) := by
                rw [share_contexts ho'.context hn', if_pos rfl]
              have hhead : (share t cx ncx newPort).heads[c'.head]? =
                  some (some { h' with refcnt := h'.refcnt + 1 }) := by
                rw [share_heads ho'.context ho'.head, if_pos rfl]
              have halone := ho'.alone
              obtain ⟨hcopy, hcopied⟩ := copyHashTable_spec hshare' hnew hhead (by dsimp only; omega)
              refine ⟨hshare, hcopy, ?_, hequiv.trans hcopied⟩
              intro a h'' ha
              simp only [if_true] at ha
              rw [copyHashTable_heads hnew hhead] at ha
              split at ha
              · cases ha
                rfl
              · split at ha
                · cases ha
                  dsimp only
                  omega
                · next hne =>
                    rw [share_heads ho'.context ho'.head, if_neg hne] at ha
                    exact hr.unshared ha

theorem emptyTable_tidy : Tidy emptyTable := by
  have hchain : ∀ hi, emptyTable.getD hi [] = [] := by
    intro hi
    simp only [emptyTable, List.getD_eq_getElem?_getD, List.getElem?_replicate]
    split <;> rfl
  refine ⟨rfl, fun hi => ?_, fun hi => ?_⟩
  · rw [hchain]
    simp
  · rw [hchain]
    exact List.Pairwise.nil

theorem uses_emptyTable (i : Nat) : uses emptyTable i = 0 := by
  simp [uses, emptyTable]

theorem openContext_heads (s : State) (ncx newPort a : Nat) :
    (openContext s ncx newPort).heads[a]? =
      if a = s.heads.length then some (some ⟨1, emptyTable⟩) else s.heads[a]? := by
  simp only [openContext]
  rw [List.getElem?_append]
  split
  · rw [if_neg (by omega)]
  · by_cases ha : a = s.heads.length
    · subst ha
      simp
    · rw [if_neg ha, List.getElem?_eq_none (by simp; omega), List.getElem?_eq_none (by omega)]

theorem openContext_contexts (hn : s.contexts[ncx]? = some none) (newPort d : Nat) :
    (openContext s ncx newPort).contexts[d]? =
      if d = ncx then some (some ⟨s.heads.length, newPort, 0⟩) else s.contexts[d]? := by
  have hlt := (List.getElem?_eq_some_iff.mp hn).1
  simp only [openContext, List.getElem?_set]
  by_cases hd : d = ncx
  · subst hd
    simp [hlt]
  · simp [hd, Ne.symm hd]

theorem base_openContext (s : State) (ncx newPort i : Nat) :
    base (openContext s ncx newPort) i = base s i := by
  simp [base, total, openContext, headUses, uses_emptyTable]

theorem openContext_inv (hs : Inv s) (hn : s.contexts[ncx]? = some none) (newPort : Nat) :
    Inv (openContext s ncx newPort) := by
  have hcountP : ∀ a, (openContext s ncx newPort).contexts.countP (uses? a) =
      s.contexts.countP (uses? a) + (if s.heads.length = a then 1 else 0) := by
    intro a
    have hset := Library.countP_set_add (uses? a) (some ⟨s.heads.length, newPort, 0⟩) hn
    simpa [openContext, uses?] using hset
  refine ⟨?_, ?_, ?_, ?_⟩
  · intro d c' hd
    rw [openContext_contexts hn] at hd
    rw [openContext_heads]
    split at hd
    · cases hd
      exact ⟨_, if_pos rfl⟩
    · rw [if_neg (hs.head_lt hd).ne]
      exact hs.live hd
  · intro a h' ha
    have hcount := hcountP a
    rw [openContext_heads] at ha
    split at ha
    · next heq =>
        subst heq
        cases ha
        rw [hs.countP_fresh, if_pos rfl] at hcount
        rw [hcount]
        exact ⟨rfl, by decide⟩
    · next hne =>
        have hcounted := hs.counted ha
        rw [if_neg (Ne.symm hne)] at hcount
        omega
  · intro a h' ha
    rw [openContext_heads] at ha
    split at ha
    · cases ha
      exact emptyTable_tidy
    · exact hs.tidy ha
  · intro i hi
    rw [base_openContext]
    exact hs.base_nonneg i hi

theorem views_openContext (hs : Inv s) (hn : s.contexts[ncx]? = some none) (newPort : Nat) :
    views (openContext s ncx newPort) = (views s).set ncx (some ⟨emptyTable, newPort, 0⟩) := by
  have hlt := (List.getElem?_eq_some_iff.mp hn).1
  refine List.ext_getElem? (fun d => ?_)
  rw [views_getElem?, List.getElem?_set, views_getElem?, openContext_contexts hn]
  by_cases hd : d = ncx
  · subst hd
    have hlt' : d < (views s).length := by simpa [views] using hlt
    have hhead : headAt (openContext s d newPort) s.heads.length = ⟨1, emptyTable⟩ :=
      headAt_eq (by rw [openContext_heads, if_pos rfl])
    simp [viewOf, hhead, hlt']
  · rw [if_neg hd, if_neg (Ne.symm hd)]
    cases hget : s.contexts[d]? with
    | none => rfl
    | some o =>
        cases o with
        | none => rfl
        | some c' =>
            simp only [Option.map_some, viewOf, Option.some.injEq, View.mk.injEq, and_true]
            unfold headAt
            rw [openContext_heads, if_neg (hs.head_lt hget).ne]

theorem Rel.newConn (hr : Rel s t) (newEnvPort : Except Nat Nat) :
    Rel (envNewConn s newEnvPort).1 (envNewConn t newEnvPort).1 ∧
      (envNewConn s newEnvPort).2 = (envNewConn t newEnvPort).2 := by
  unfold envNewConn
  rw [← hr.findFree]
  cases hfree : s.contexts.findIdx? Option.isNone with
  | none => exact ⟨hr, rfl⟩
  | some ncx =>
      cases newEnvPort with
      | error code => exact ⟨hr, rfl⟩
      | ok newPort =>
          have hn := findFree_some hfree
          have hn' := findFree_some (hr.findFree ▸ hfree)
          refine ⟨⟨openContext_inv hr.inv hn newPort, openContext_inv hr.inv' hn' newPort, ?_, ?_⟩,
            rfl⟩
          · intro a h ha
            rw [openContext_heads] at ha
            split at ha
            · cases ha
              rfl
            · exact hr.unshared ha
          · refine ⟨?_, hr.equiv.pts, fun i hi => ?_⟩
            · rw [views_openContext hr.inv hn, views_openContext hr.inv' hn', hr.equiv.views]
            · rw [base_openContext, base_openContext]
              exact hr.equiv.base i hi

/-! ## Ports of contexts -/

theorem setRoport_contexts (hc : s.contexts[cx]? = some (some c)) (roport d : Nat) :
    (setRoport s cx roport).contexts[d]? =
      if d = cx then some (some { c with roport := roport }) else s.contexts[d]? := by
  have hlt := (List.getElem?_eq_some_iff.mp hc).1
  simp only [setRoport, contextAt_eq hc, List.getElem?_set]
  by_cases hd : d = cx
  · subst hd
    simp [hlt]
  · simp [hd, Ne.symm hd]

theorem setRoport_inv (hs : Inv s) (hc : s.contexts[cx]? = some (some c)) (roport : Nat) :
    Inv (setRoport s cx roport) := by
  refine ⟨?_, ?_, hs.tidy, hs.base_nonneg⟩
  · intro d c' hd
    rw [setRoport_contexts hc] at hd
    split at hd
    · have hlive := hs.live hc
      cases hd
      exact hlive
    · exact hs.live hd
  · intro a h' ha
    have hset := Library.countP_set_add (uses? a) (some { c with roport := roport }) hc
    have hcount : (setRoport s cx roport).contexts.countP (uses? a) =
        s.contexts.countP (uses? a) := by
      simpa [setRoport, contextAt_eq hc, uses?] using hset
    rw [hcount]
    exact hs.counted ha

theorem views_setRoport (hc : s.contexts[cx]? = some (some c)) (roport : Nat) :
    views (setRoport s cx roport) =
      (views s).set cx (some { viewOf s c with roport := roport }) := by
  simp only [views, setRoport, contextAt_eq hc, List.map_set]
  rfl

theorem Rel.setRoport (hr : Rel s t) (hc : s.contexts[cx]? = some (some c)) (roport : Nat) :
    Rel (setRoport s cx roport) (setRoport t cx roport) := by
  obtain ⟨c', hc', hview⟩ := hr.equiv.context hc
  refine ⟨setRoport_inv hr.inv hc roport, setRoport_inv hr.inv' hc' roport, hr.unshared, ?_,
    hr.equiv.pts, hr.equiv.base⟩
  rw [views_setRoport hc, views_setRoport hc', hr.equiv.views, hview]

theorem Rel.restrictConn (hr : Rel s t) (servPort : Nat) (newEnvPort : Except Nat Nat) :
    Rel (envRestrictConn s servPort newEnvPort).1 (envRestrictConn t servPort newEnvPort).1 ∧
      (envRestrictConn s servPort newEnvPort).2 = (envRestrictConn t servPort newEnvPort).2 := by
  unfold envRestrictConn
  rw [← hr.equiv.portToContext servPort]
  cases hp : EnvMgr.portToContext s servPort with
  | none => exact ⟨hr, rfl⟩
  | some found =>
      obtain ⟨cx, restrict⟩ := found
      obtain ⟨c, hc, -, -⟩ := portToContext_some hp
      obtain ⟨c', hc', hview⟩ := hr.equiv.context hc
      have hro : c.roport = c'.roport := congrArg View.roport hview
      dsimp only
      rw [contextAt_eq hc, contextAt_eq hc', hro]
      split
      · exact ⟨hr, rfl⟩
      · cases newEnvPort with
        | error code => exact ⟨hr, rfl⟩
        | ok newPort => exact ⟨hr.setRoport hc newPort, rfl⟩

theorem removeDeadPort_pts {ports ports' : Ports} (hpts : ports.map PortEnt.pt = ports'.map PortEnt.pt)
    (port : Nat) :
    (removeDeadPort ports port).map PortEnt.pt = (removeDeadPort ports' port).map PortEnt.pt := by
  have hfound : ports.findIdx? (fun entry => entry.pt == port) =
      ports'.findIdx? (fun entry => entry.pt == port) := by
    refine findIdx?_congr ?_
    have hmap := congrArg (List.map (· == port)) hpts
    simpa [List.map_map, Function.comp_def] using hmap
  unfold removeDeadPort
  rw [← hfound]
  split
  · exact hpts
  · rw [map_pt_modify _ _ _ (fun _ => 0) (fun _ => rfl),
      map_pt_modify _ _ _ (fun _ => 0) (fun _ => rfl), hpts]

theorem deadPort_inv (hs : Inv s) (port : Nat) : Inv (deadPort s port) := by
  obtain ⟨hlength, hrefs⟩ := removeDeadPort_spec s.ports port
  refine ⟨hs.live, hs.counted, hs.tidy, fun i hi => ?_⟩
  have hbase := hs.base_nonneg i (hlength ▸ hi)
  rw [base] at hbase ⊢
  simp only [deadPort, hrefs]
  exact hbase

theorem Rel.deadPort (hr : Rel s t) (port : Nat) : Rel (deadPort s port) (deadPort t port) := by
  refine ⟨deadPort_inv hr.inv port, deadPort_inv hr.inv' port, hr.unshared, hr.equiv.views,
    removeDeadPort_pts hr.equiv.pts port, fun i hi => ?_⟩
  obtain ⟨hlength, hrefs⟩ := removeDeadPort_spec s.ports port
  obtain ⟨-, hrefs'⟩ := removeDeadPort_spec t.ports port
  have hbase := hr.equiv.base i (hlength ▸ hi)
  rw [base, base] at hbase ⊢
  simp only [EnvMgr.deadPort, hrefs, hrefs']
  exact hbase

/-! ## Taking a context out of use -/

theorem dispose_heads (hc : s.contexts[cx]? = some (some c))
    (hh : s.heads[c.head]? = some (some h)) (a : Nat) :
    (dispose s cx).heads[a]? =
      if a = c.head then
        some (if h.refcnt = 1 then none else some { h with refcnt := h.refcnt - 1 })
      else s.heads[a]? := by
  have hlt := (List.getElem?_eq_some_iff.mp hh).1
  have hone : h.refcnt - 1 = 0 ↔ h.refcnt = 1 := by omega
  simp only [dispose, contextAt_eq hc, headAt_eq hh, List.getElem?_set, hone]
  by_cases ha : a = c.head
  · subst ha
    simp [hlt]
  · simp [ha, Ne.symm ha]

theorem dispose_contexts (s : State) (cx d : Nat) :
    (dispose s cx).contexts[d]? =
      if d = cx then s.contexts[cx]?.map (fun _ => none) else s.contexts[d]? := by
  simp only [dispose, List.getElem?_set]
  by_cases hd : d = cx
  · subst hd
    by_cases hlt : d < s.contexts.length
    · simp [hlt]
    · simp [hlt]
  · simp [hd, Ne.symm hd]

theorem views_dispose (hs : Inv s) (hc : s.contexts[cx]? = some (some c))
    (hh : s.heads[c.head]? = some (some h)) :
    views (dispose s cx) = (views s).set cx none := by
  have hlt := (List.getElem?_eq_some_iff.mp hc).1
  refine List.ext_getElem? (fun d => ?_)
  rw [views_getElem?, List.getElem?_set, views_getElem?, dispose_contexts]
  by_cases hd : d = cx
  · subst hd
    have hlt' : d < (views s).length := by simpa [views] using hlt
    simp [hc, hlt']
  · rw [if_neg hd, if_neg (Ne.symm hd)]
    cases hget : s.contexts[d]? with
    | none => rfl
    | some o =>
        cases o with
        | none => rfl
        | some c' =>
            simp only [Option.map_some, viewOf, Option.some.injEq, View.mk.injEq, and_true]
            unfold headAt
            rw [dispose_heads hc hh]
            by_cases heq : c'.head = c.head
            · rw [if_pos heq, heq, hh]
              by_cases hone : h.refcnt = 1
              · exact absurd heq (Owns.head_ne hs ⟨hc, hh, hone⟩ hget hd)
              · rw [if_neg hone]
                rfl
            · rw [if_neg heq]

/-- The references of a table that goes away are no longer accounted for. -/
theorem base_dispose (hc : s.contexts[cx]? = some (some c))
    (hh : s.heads[c.head]? = some (some h)) (i : Nat) :
    base (dispose s cx) i = base s i + if h.refcnt = 1 then (uses h.table i : Int) else 0 := by
  have hone : h.refcnt - 1 = 0 ↔ h.refcnt = 1 := by omega
  have hset : ((s.heads.set c.head
      (if h.refcnt = 1 then none else some { h with refcnt := h.refcnt - 1 })).map
        (headUses i)).sum + uses h.table i = total s i +
          headUses i (if h.refcnt = 1 then none else some { h with refcnt := h.refcnt - 1 }) :=
    Library.sum_map_set (headUses i) hh
  simp only [base, total, dispose, contextAt_eq hc, headAt_eq hh, hone] at hset ⊢
  by_cases hsingle : h.refcnt = 1
  · simp only [hsingle, if_true, headUses, Option.elim_none] at hset ⊢
    omega
  · simp only [hsingle, if_false, headUses, Option.elim_some] at hset ⊢
    omega

theorem dispose_inv (hs : Inv s) (hc : s.contexts[cx]? = some (some c))
    (hh : s.heads[c.head]? = some (some h)) : Inv (dispose s cx) := by
  have hcounted := hs.counted hh
  have hcountP : ∀ a, (dispose s cx).contexts.countP (uses? a) + (if c.head = a then 1 else 0) =
      s.contexts.countP (uses? a) := by
    intro a
    have hset := Library.countP_set_add (uses? a) none hc
    simpa [dispose, uses?] using hset
  refine ⟨?_, ?_, ?_, ?_⟩
  · intro d c' hd
    rw [dispose_contexts] at hd
    split at hd
    · simp [hc] at hd
    · next hne =>
        rw [dispose_heads hc hh]
        split
        · next heq =>
            by_cases hone : h.refcnt = 1
            · exact absurd heq (Owns.head_ne hs ⟨hc, hh, hone⟩ hd hne)
            · exact ⟨_, by rw [if_neg hone]⟩
        · exact hs.live hd
  · intro a h' ha
    have hcount := hcountP a
    rw [dispose_heads hc hh] at ha
    split at ha
    · next heq =>
        subst heq
        rw [if_pos rfl] at hcount
        split at ha
        · cases ha
        · cases ha
          dsimp only
          omega
    · next hne =>
        have hcounted := hs.counted ha
        rw [if_neg (Ne.symm hne)] at hcount
        omega
  · intro a h' ha
    rw [dispose_heads hc hh] at ha
    split at ha
    · split at ha
      · cases ha
      · have htidy := hs.tidy hh
        cases ha
        exact htidy
    · exact hs.tidy ha
  · intro i hi
    rw [base_dispose hc hh]
    have hbase := hs.base_nonneg i hi
    split <;> omega

theorem Rel.dispose (hr : Rel s t) (hc : s.contexts[cx]? = some (some c))
    (hsafe : 1 < refcntOf s cx → ∀ i, uses (tableOf s cx) i = 0) :
    Rel (dispose s cx) (dispose t cx) := by
  obtain ⟨h, hh⟩ := hr.inv.live hc
  obtain ⟨c', h', ho', hview⟩ := hr.owns hc
  have htable : h.table = h'.table := by
    have htables := congrArg View.table hview
    simpa only [viewOf, headAt_eq hh, headAt_eq ho'.head] using htables
  refine ⟨dispose_inv hr.inv hc hh, dispose_inv hr.inv' ho'.context ho'.head, ?_, ?_,
    hr.equiv.pts, fun i hi => ?_⟩
  · intro a h'' ha
    rw [dispose_heads ho'.context ho'.head] at ha
    split at ha
    · rw [if_pos ho'.alone] at ha
      cases ha
    · exact hr.unshared ha
  · rw [views_dispose hr.inv hc hh, views_dispose hr.inv' ho'.context ho'.head, hr.equiv.views]
  · rw [base_dispose hc hh, base_dispose ho'.context ho'.head, if_pos ho'.alone,
      hr.equiv.base i hi, ← htable]
    split
    · rfl
    · next hmany =>
        have hcounted := hr.inv.counted hh
        rw [refcntOf, tableOf, contextAt_eq hc, headAt_eq hh] at hsafe
        rw [hsafe (by omega) i]
        rfl

/-! ## The operations of the calls -/

theorem setString_lawful (name value : Name) :
    Lawful (fun table ports => setString table ports name value) :=
  ⟨fun ports htable => setString_keeps htable ports name value,
    fun _ hagree => setString_same hagree name value⟩

theorem deleteHashEntry_lawful (deallocOk : Nat → Bool) (name : Name) (vt : EnvType) :
    Lawful (fun table ports => deleteHashEntry deallocOk table ports name vt) :=
  ⟨fun ports htable => deleteHashEntry_keeps htable deallocOk ports name vt,
    fun htable hagree => deleteHashEntry_same htable deallocOk hagree name vt⟩

theorem setPort_lawful (deallocOk : Nat → Bool) (name : Name) (value : Nat) :
    Lawful (fun table ports => setPort deallocOk table ports name value) :=
  ⟨fun ports htable => setPort_keeps htable deallocOk ports name value,
    fun htable hagree => setPort_same htable deallocOk hagree name value⟩

theorem getStringOp_lawful (name : Name) : LawfulRead (getStringOp name) (fun _ _ => True) :=
  ⟨fun ports _ => Keeps.refl _ _ ports, fun _ hagree => ⟨⟨rfl, rfl, hagree.pts⟩, rfl⟩,
    fun _ => ⟨rfl, rfl⟩, fun _ _ => ⟨trivial, rfl⟩⟩

theorem listStringsOp_lawful (names values : Option Nat) :
    LawfulRead (listStringsOp names values) (fun _ _ => True) :=
  ⟨fun ports _ => Keeps.refl _ _ ports, fun _ hagree => ⟨⟨rfl, rfl, hagree.pts⟩, rfl⟩,
    fun _ => ⟨rfl, rfl⟩, fun _ _ => ⟨trivial, rfl⟩⟩

/-- The named variable holds a dead port. -/
def MeetsDead (table : Table) (ports : Ports) (name : Name) : Prop :=
  ∃ entry pi, findHashEntry table name = some entry ∧ entry.envval = .port pi ∧
    ptAt ports pi = 0

/-- Some variable holds a dead port. -/
def HasDead (table : Table) (ports : Ports) : Prop :=
  ∃ entry ∈ table.flatten, ∃ pi, entry.envval = .port pi ∧ ptAt ports pi = 0

/-- Some variable holds a port. -/
def HasPort (table : Table) : Prop :=
  ∃ entry ∈ table.flatten, ∃ pi, entry.envval = .port pi

theorem ptAt_congr {ports ports' : Ports} (hpts : ports.map PortEnt.pt = ports'.map PortEnt.pt) :
    ptAt ports = ptAt ports' := by
  funext pi
  rw [ptAt, ptAt, hpts]

theorem getPort_quiet {table : Table} {ports : Ports} {name : Name}
    (hquiet : ¬ MeetsDead table ports name) (deallocOk : Nat → Bool) :
    (getPort deallocOk table ports name).1.table = table ∧
      (getPort deallocOk table ports name).1.ports = ports ∧
      ∀ {ports' : Ports}, ports.map PortEnt.pt = ports'.map PortEnt.pt →
        (getPort deallocOk table ports name).1.code = (getPort deallocOk table ports' name).1.code ∧
        (getPort deallocOk table ports name).2 = (getPort deallocOk table ports' name).2 := by
  unfold getPort
  cases hfind : findHashEntry table name with
  | none => exact ⟨rfl, rfl, fun _ => ⟨rfl, rfl⟩⟩
  | some entry =>
      obtain ⟨entryName, envval⟩ := entry
      cases envval with
      | str value => exact ⟨rfl, rfl, fun _ => ⟨rfl, rfl⟩⟩
      | port pi =>
          have hlive : ptAt ports pi ≠ 0 := fun hdead => hquiet ⟨_, pi, hfind, rfl, hdead⟩
          dsimp only
          rw [if_neg hlive]
          refine ⟨rfl, rfl, fun {ports'} hpts => ?_⟩
          rw [← ptAt_congr hpts, if_neg hlive]
          exact ⟨rfl, rfl⟩

theorem getPortOp_lawful (deallocOk : Nat → Bool) (name : Name) :
    LawfulRead (getPortOp deallocOk name) (fun table ports => ¬ MeetsDead table ports name) := by
  refine ⟨fun ports htable => getPort_keeps htable deallocOk ports name, ?_, ?_, ?_⟩
  · intro table ports ports' htable hagree
    obtain ⟨hsame, hport⟩ := getPort_same htable deallocOk hagree name
    refine ⟨hsame, ?_⟩
    simp only [getPortOp, hsame.code, hport]
  · intro table ports hquiet
    obtain ⟨htable, hports, -⟩ := getPort_quiet hquiet deallocOk
    exact ⟨htable, hports⟩
  · intro table ports ports' hquiet hpts
    obtain ⟨hcode, hport⟩ := (getPort_quiet hquiet deallocOk).2.2 hpts
    refine ⟨?_, by simp only [getPortOp, hcode, hport]⟩
    rwa [MeetsDead, ← ptAt_congr hpts]

def isPort (entry : HashEntry) : Bool :=
  entry.envval.vartype == .envport

theorem sweepEntries_quiet (deallocOk : Nat → Bool) (entries : List HashEntry)
    (acc : Outcome × Nat)
    (hlive : ∀ entry ∈ entries, ∀ pi, entry.envval = .port pi → ptAt acc.1.ports pi ≠ 0) :
    entries.foldl (sweepEntry deallocOk) acc = (acc.1, acc.2 + entries.countP isPort) := by
  induction entries generalizing acc with
  | nil => rfl
  | cons entry entries ih =>
      have hrest := fun e he => hlive e (List.mem_cons_of_mem entry he)
      rw [List.foldl_cons]
      cases hval : entry.envval with
      | str value =>
          have hstep : sweepEntry deallocOk acc entry = acc := by simp [sweepEntry, hval]
          rw [hstep, ih acc hrest]
          simp [isPort, hval, EnvVal.vartype]
      | port pi =>
          have hpi := hlive entry List.mem_cons_self pi hval
          have hstep : sweepEntry deallocOk acc entry = (acc.1, acc.2 + 1) := by
            simp [sweepEntry, hval, hpi]
          rw [hstep, ih (acc.1, acc.2 + 1) hrest]
          simp [isPort, hval, EnvVal.vartype]
          omega

theorem sweepChains_quiet (deallocOk : Nat → Bool) (his : List Nat) (acc : Outcome × Nat)
    (hlive : ¬ HasDead acc.1.table acc.1.ports) :
    his.foldl (sweepChain deallocOk) acc =
      (acc.1, acc.2 + (his.map (fun hi => (acc.1.table.getD hi []).countP isPort)).sum) := by
  induction his generalizing acc with
  | nil => rfl
  | cons hi his ih =>
      have hchain : sweepChain deallocOk acc hi =
          (acc.1, acc.2 + (acc.1.table.getD hi []).countP isPort) := by
        refine sweepEntries_quiet deallocOk _ acc (fun entry hentry pi hval hdead => ?_)
        refine hlive ⟨entry, ?_, pi, hval, hdead⟩
        by_cases hlt : hi < acc.1.table.length
        · rw [List.getD_eq_getElem _ _ hlt] at hentry
          exact List.mem_flatten.mpr ⟨_, List.getElem_mem hlt, hentry⟩
        · rw [List.getD_eq_default _ _ (by omega)] at hentry
          cases hentry
      rw [List.foldl_cons, hchain,
        ih (acc.1, acc.2 + (acc.1.table.getD hi []).countP isPort) hlive]
      simp only [List.map_cons, List.sum_cons]
      rw [Nat.add_assoc]

theorem listPortsOp_fst (deallocOk : Nat → Bool) (names : Option Nat) (table : Table)
    (ports : Ports) :
    (listPortsOp deallocOk names table ports).1 = (sweep deallocOk table ports).1 := by
  unfold listPortsOp
  generalize sweep deallocOk table ports = swept
  dsimp only
  split
  · rfl
  · split <;> rfl

theorem listPortsOp_lawful (deallocOk : Nat → Bool) (names : Option Nat) :
    LawfulRead (listPortsOp deallocOk names) (fun table ports => ¬ HasDead table ports) := by
  have hfst := listPortsOp_fst deallocOk names
  have hsnd : ∀ {table ports ports'}, (sweep deallocOk table ports).2 = (sweep deallocOk table ports').2 →
      Same (sweep deallocOk table ports).1 (sweep deallocOk table ports').1 →
        (listPortsOp deallocOk names table ports).2 =
          (listPortsOp deallocOk names table ports').2 := by
    intro table ports ports' hcount hsame
    unfold listPortsOp portVars
    generalize sweep deallocOk table ports = swept at hcount hsame ⊢
    generalize sweep deallocOk table ports' = swept' at hcount hsame ⊢
    dsimp only
    rw [← hcount, ← hsame.code, ← hsame.table, ← ptAt_congr hsame.pts]
    split
    · rfl
    · split <;> rfl
  refine ⟨?_, ?_, ?_, ?_⟩
  · intro table ports htable
    rw [hfst]
    exact sweep_keeps htable deallocOk ports
  · intro table ports ports' htable hagree
    have htwin := sweep_twin htable deallocOk hagree
    rw [hfst, hfst]
    exact ⟨htwin.same, hsnd htwin.counted htwin.same⟩
  · intro table ports hquiet
    rw [hfst, sweep, sweepChains_quiet _ _ _ hquiet]
    exact ⟨rfl, rfl⟩
  · intro table ports ports' hquiet hpts
    have hquiet' : ¬ HasDead table ports' := by rwa [HasDead, ← ptAt_congr hpts]
    refine ⟨hquiet', hsnd ?_ ?_⟩
    · rw [sweep, sweep, sweepChains_quiet _ _ _ hquiet, sweepChains_quiet _ _ _ hquiet']
    · rw [sweep, sweep, sweepChains_quiet _ _ _ hquiet, sweepChains_quiet _ _ _ hquiet']
      exact ⟨rfl, rfl, hpts⟩

theorem uses_eq_zero {table : Table} (hnone : ¬ HasPort table) (i : Nat) : uses table i = 0 := by
  rw [uses, List.countP_eq_zero]
  intro entry hentry hval
  exact hnone ⟨entry, hentry, i, by simpa using hval⟩

/-! ## The calls -/

/-- The call does not change a table that other contexts use. -/
def Safe (s : State) : Call → Prop
  | .getPort p name => ∀ cx restrict, portToContext s p = some (cx, restrict) →
      1 < refcntOf s cx → ¬ MeetsDead (tableOf s cx) s.ports name
  | .listPorts p _ => ∀ cx restrict, portToContext s p = some (cx, restrict) →
      1 < refcntOf s cx → ¬ HasDead (tableOf s cx) s.ports
  | .disconnect p => ∀ cx, portToContext s p = some (cx, false) →
      1 < refcntOf s cx → ¬ HasPort (tableOf s cx)
  | _ => True

theorem Rel.setPort (hr : Rel s t) (deallocOk : Nat → Bool) (servPort : Nat) (name : Name)
    (value : Nat) :
    Rel (envSetPort deallocOk s servPort name value).1
        (envSetPort deallocOk t servPort name value).1 ∧
      (envSetPort deallocOk s servPort name value).2 =
        (envSetPort deallocOk t servPort name value).2 := by
  unfold envSetPort
  split
  · exact ⟨hr, rfl⟩
  · exact hr.change (setPort_lawful deallocOk name value) servPort

theorem Rel.setStlist (hr : Rel s t) (servPort : Nat) (retcode : Code)
    (vars : List (Name × Name)) :
    Rel (envSetStlist s servPort retcode vars).1 (envSetStlist t servPort retcode vars).1 ∧
      (envSetStlist s servPort retcode vars).2 = (envSetStlist t servPort retcode vars).2 := by
  induction vars generalizing s t retcode with
  | nil => exact ⟨hr, rfl⟩
  | cons var vars ih =>
      obtain ⟨name, value⟩ := var
      have hboth : Rel (envSetString s servPort name value).1 (envSetString t servPort name value).1 ∧
          (envSetString s servPort name value).2 = (envSetString t servPort name value).2 :=
        hr.change (setString_lawful name value) servPort
      obtain ⟨hrel, hreply⟩ := hboth
      simp only [envSetStlist]
      rw [← hreply]
      split
      · exact ih hrel .success
      · exact ⟨hrel, rfl⟩

theorem Rel.setPtlist (hr : Rel s t) (deallocOk : Nat → Bool) (servPort : Nat) (retcode : Code)
    (vars : List (Name × Nat)) :
    Rel (envSetPtlist deallocOk s servPort retcode vars).1
        (envSetPtlist deallocOk t servPort retcode vars).1 ∧
      (envSetPtlist deallocOk s servPort retcode vars).2 =
        (envSetPtlist deallocOk t servPort retcode vars).2 := by
  induction vars generalizing s t retcode with
  | nil => exact ⟨hr, rfl⟩
  | cons var vars ih =>
      obtain ⟨name, value⟩ := var
      obtain ⟨hrel, hreply⟩ := hr.setPort deallocOk servPort name value
      simp only [envSetPtlist]
      rw [← hreply]
      split
      · exact ih hrel .success
      · exact ⟨hrel, rfl⟩

theorem Rel.disconnect (hr : Rel s t) (servPort : Nat) (hsafe : Safe s (.disconnect servPort)) :
    Rel (envDisconnect s servPort).1 (envDisconnect t servPort).1 ∧
      (envDisconnect s servPort).2 = (envDisconnect t servPort).2 := by
  unfold envDisconnect
  rw [← hr.equiv.portToContext servPort]
  cases hp : EnvMgr.portToContext s servPort with
  | none => exact ⟨hr, rfl⟩
  | some found =>
      obtain ⟨cx, restrict⟩ := found
      obtain ⟨c, hc, -, -⟩ := portToContext_some hp
      obtain ⟨c', hc', hview⟩ := hr.equiv.context hc
      have hro : c.roport = c'.roport := congrArg View.roport hview
      have hrw : c.rwport = c'.rwport := congrArg View.rwport hview
      dsimp only
      rw [contextAt_eq hc, contextAt_eq hc', ← hro, ← hrw]
      cases restrict with
      | true =>
          simp only [if_true]
          split
          · exact ⟨hr, rfl⟩
          · exact ⟨(hr.deadPort c.roport).setRoport hc 0, rfl⟩
      | false =>
          have hdispose := hr.dispose hc (fun hshared i =>
            uses_eq_zero (hsafe cx hp hshared) i)
          have hdead := hdispose.deadPort c.rwport
          rw [if_neg Bool.false_ne_true, if_neg Bool.false_ne_true]
          split
          · exact ⟨hdead.deadPort c.roport, rfl⟩
          · exact ⟨hdead, rfl⟩

/-- One message keeps the managers related and gets the same reply from both. -/
theorem Rel.serve (hr : Rel s t) (deallocOk : Nat → Bool) (call : Call) (hsafe : Safe s call) :
    Rel (serve false deallocOk s call).1 (serve true deallocOk t call).1 ∧
      (serve false deallocOk s call).2 = (serve true deallocOk t call).2 := by
  cases call with
  | setString p name value => exact hr.change (setString_lawful name value) p
  | getString p name => exact hr.consult (getStringOp_lawful name) (fun _ _ _ _ => trivial)
  | delString p name => exact hr.change (deleteHashEntry_lawful deallocOk name .envstr) p
  | setPort p name value => exact hr.setPort deallocOk p name value
  | getPort p name => exact hr.consult (getPortOp_lawful deallocOk name) hsafe
  | delPort p name => exact hr.change (deleteHashEntry_lawful deallocOk name .envport) p
  | listStrings p names values =>
      exact hr.consult (listStringsOp_lawful names values) (fun _ _ _ _ => trivial)
  | listPorts p names => exact hr.consult (listPortsOp_lawful deallocOk names) hsafe
  | setStlist p retcode vars => exact hr.setStlist p retcode vars
  | setPtlist p retcode vars => exact hr.setPtlist deallocOk p retcode vars
  | copyConn p newEnvPort => exact hr.copyConn p newEnvPort
  | newConn newEnvPort => exact hr.newConn newEnvPort
  | restrictConn p newEnvPort => exact hr.restrictConn p newEnvPort
  | disconnect p => exact hr.disconnect p hsafe
  | portDeath port => exact ⟨hr.deadPort port, rfl⟩

/-- Every message of a run of the sharing manager is safe. -/
def SafeRun : State → List Message → Prop
  | _, [] => True
  | s, m :: rest => Safe s m.call ∧ SafeRun (EnvMgr.serve false m.deallocOk s m.call).1 rest

theorem Rel.serveAll (hr : Rel s t) (messages : List Message) (hsafe : SafeRun s messages) :
    Rel (serveAll false s messages).1 (serveAll true t messages).1 ∧
      (serveAll false s messages).2 = (serveAll true t messages).2 := by
  induction messages generalizing s t with
  | nil => exact ⟨hr, rfl⟩
  | cons m rest ih =>
      obtain ⟨hrel, hreply⟩ := hr.serve m.deallocOk m.call hsafe.1
      obtain ⟨hafter, hreplies⟩ := ih hrel hsafe.2
      refine ⟨hafter, ?_⟩
      simp only [EnvMgr.serveAll]
      rw [hreply, hreplies]

end Connections

/-! ## The initial state -/

theorem addPort_nonneg {ports : Ports} (hnonneg : ∀ k < ports.length, 0 ≤ refAt ports k)
    (port : Nat) :
    ∀ k < ((addPort ports port).elim ports Prod.snd).length,
      0 ≤ refAt ((addPort ports port).elim ports Prod.snd) k := by
  cases hadd : addPort ports port with
  | none => exact hnonneg
  | some result =>
      obtain ⟨pi, ports'⟩ := result
      obtain ⟨-, hlength, hcount⟩ := addPort_spec hadd
      intro k hk
      have hk' : k < ports.length := hlength ▸ hk
      have hold := hnonneg k hk'
      simp only [Option.elim_some, hcount k hk']
      omega

theorem envInit_inv (environmentPort nameServerPort servicePort knownEnvPort : Nat) :
    Inv (envInit environmentPort nameServerPort servicePort knownEnvPort) := by
  refine ⟨?_, ?_, ?_, ?_⟩
  · intro cx c hc
    cases cx with
    | zero =>
        simp only [envInit, List.getElem?_cons_zero, Option.some.injEq] at hc
        subst hc
        exact ⟨_, rfl⟩
    | succ cx =>
        simp only [envInit, List.getElem?_cons_succ] at hc
        have hmem := List.mem_of_getElem? hc
        simp at hmem
  · intro a h ha
    cases a with
    | zero =>
        simp only [envInit, List.getElem?_cons_zero, Option.some.injEq] at ha
        subst ha
        simp [envInit, uses?, List.countP_replicate]
    | succ a => simp [envInit] at ha
  · intro a h ha
    cases a with
    | zero =>
        simp only [envInit, List.getElem?_cons_zero, Option.some.injEq] at ha
        subst ha
        exact emptyTable_tidy
    | succ a => simp [envInit] at ha
  · intro i hi
    have hempty : ∀ k < (List.replicate maxPortEnt (⟨0, 0⟩ : PortEnt)).length,
        0 ≤ refAt (List.replicate maxPortEnt ⟨0, 0⟩) k := by
      intro k hk
      rw [refAt_eq hk]
      simp
    have hnonneg := addPort_nonneg (addPort_nonneg (addPort_nonneg hempty environmentPort)
      nameServerPort) servicePort i hi
    have htotal : total (envInit environmentPort nameServerPort servicePort knownEnvPort) i = 0 := by
      simp [total, envInit, headUses, uses_emptyTable]
    rw [base, htotal]
    simpa [envInit] using hnonneg

theorem envInit_rel (environmentPort nameServerPort servicePort knownEnvPort : Nat) :
    Rel (envInit environmentPort nameServerPort servicePort knownEnvPort)
      (envInit environmentPort nameServerPort servicePort knownEnvPort) := by
  refine ⟨envInit_inv _ _ _ _, envInit_inv _ _ _ _, ?_, Equiv.refl _⟩
  intro a h ha
  cases a with
  | zero =>
      simp only [envInit, List.getElem?_cons_zero, Option.some.injEq] at ha
      subst ha
      rfl
  | succ a => simp [envInit] at ha

end MachFormal.EnvMgr
