import MachFormal.EnvMgr.Refinement

/-!
# Reference counts of the port table

An entry of the port table counts the variables that refer to it and, for the
ports entered by `EnvInitialize`, one reference of the manager itself.  All
calls keep the count right except one: `env_disconnect` frees a hash table that
no context uses any more without giving up the references of its variables.
-/

namespace MachFormal.EnvMgr

/-- The addresses of the hash tables that some context in use refers to. -/
def referenced (s : State) : List Nat :=
  (List.range s.heads.length).filter (fun a => s.contexts.any (uses? a))

/-- The port variables with value `i` in the hash tables that some context refers to. -/
def varCount (s : State) (i : Nat) : Nat :=
  ((referenced s).map (fun a => uses (headAt s a).table i)).sum

/-- `EnvInitialize` enters ports; the result are the entries that `add_port` returned. -/
def enterPorts : List Nat → Ports → List Nat × Ports
  | [], ports => ([], ports)
  | port :: rest, ports =>
      match addPort ports port with
      | none => enterPorts rest ports
      | some (i, ports') =>
          let result := enterPorts rest ports'
          (i :: result.1, result.2)

/-- How many of the standard ports `EnvInitialize` has entered in slot `i`. -/
def standard (environmentPort nameServerPort servicePort i : Nat) : Nat :=
  (enterPorts [environmentPort, nameServerPort, servicePort]
    (List.replicate maxPortEnt ⟨0, 0⟩)).1.count i

/-- The counts are right: every entry of the port table counts its variables and the standard
ports, every hash table counts the contexts that use it, the last reference of an entry is the
one whose deletion deallocates the port, and without contexts only the standard ports are
counted. -/
structure Accounted (std : Nat → Nat) (s : State) : Prop where
  ports : ∀ i < s.ports.length, refAt s.ports i = varCount s i + std i
  heads : ∀ {a : Nat} {h : HashHead}, s.heads[a]? = some (some h) →
    h.refcnt = s.contexts.countP (uses? a)
  last : ∀ i < s.ports.length, ptAt s.ports i ≠ 0 →
    (ptAt (delPort (fun _ => true) s.ports i) i = 0 ↔ varCount s i + std i = 1)
  closed : (∀ context ∈ s.contexts, context = none) →
    ∀ i < s.ports.length, refAt s.ports i = std i

/-- The call does not free a hash table with a port variable. -/
def Releases (s : State) : Call → Prop
  | .disconnect p => ∀ cx, portToContext s p = some (cx, false) →
      refcntOf s cx = 1 → ¬ HasPort (tableOf s cx)
  | _ => True

/-- Every message of a run frees only tables without port variables. -/
def ReleasesRun : State → List Message → Prop
  | _, [] => True
  | s, m :: rest => Releases s m.call ∧ ReleasesRun (serve false m.deallocOk s m.call).1 rest

/-! ## Tables in use -/

section Variables

variable {s : State}

theorem Inv.any_uses (hs : Inv s) (a : Nat) :
    s.contexts.any (uses? a) = true ↔ ∃ h, s.heads[a]? = some (some h) := by
  constructor
  · intro hany
    obtain ⟨context, hmem, huses⟩ := List.any_eq_true.mp hany
    cases context with
    | none => cases huses
    | some c =>
        obtain ⟨cx, hcx⟩ := List.mem_iff_getElem?.mp hmem
        obtain rfl : c.head = a := by simpa [uses?] using huses
        exact hs.live hcx
  · rintro ⟨h, hh⟩
    obtain ⟨-, hpos⟩ := hs.counted hh
    obtain ⟨context, hmem, huses⟩ := List.countP_pos_iff.mp hpos
    exact List.any_eq_true.mpr ⟨context, hmem, huses⟩

/-- The tables that contexts refer to are the tables in use. -/
theorem Inv.varCount_eq (hs : Inv s) (i : Nat) : varCount s i = total s i := by
  have hterm : ∀ a, a < s.heads.length →
      (if s.contexts.any (uses? a) then uses (headAt s a).table i else 0) =
        headUses i (s.heads.getD a none) := by
    intro a ha
    have hget : s.heads.getD a none = s.heads[a] := by
      simp [List.getD_eq_getElem?_getD, ha]
    rw [hget]
    cases hentry : s.heads[a] with
    | none =>
        have hnot : ¬ s.contexts.any (uses? a) = true := by
          rw [hs.any_uses]
          rintro ⟨h, hh⟩
          rw [List.getElem?_eq_getElem ha, hentry] at hh
          cases hh
        rw [if_neg hnot]
        rfl
    | some h =>
        have hh : s.heads[a]? = some (some h) := by rw [List.getElem?_eq_getElem ha, hentry]
        rw [if_pos ((hs.any_uses a).mpr ⟨h, hh⟩), headAt_eq hh]
        rfl
  have hsum : ∀ (p : Nat → Bool) (f : Nat → Nat) (xs : List Nat),
      ((xs.filter p).map f).sum = (xs.map (fun a => if p a then f a else 0)).sum := by
    intro p f xs
    induction xs with
    | nil => rfl
    | cons x xs ih =>
        by_cases hp : p x = true
        · simp [hp, ih]
        · simp [hp, ih]
  have hrange : s.heads.map (headUses i) =
      (List.range s.heads.length).map (fun a => headUses i (s.heads.getD a none)) := by
    refine List.ext_getElem (by simp) (fun a ha _ => ?_)
    have hlt : a < s.heads.length := by simpa using ha
    simp [List.getD_eq_getElem?_getD, hlt]
  rw [varCount, referenced, hsum, total, hrange]
  refine congrArg List.sum (List.map_congr_left (fun a ha => ?_))
  exact hterm a (List.mem_range.mp ha)

theorem varCount_of_closed (hclosed : ∀ context ∈ s.contexts, context = none) (i : Nat) :
    varCount s i = 0 := by
  have hnone : referenced s = [] := by
    refine List.filter_eq_nil_iff.mpr (fun a _ => ?_)
    intro hany
    obtain ⟨context, hmem, huses⟩ := List.any_eq_true.mp hany
    rw [hclosed context hmem] at huses
    cases huses
  rw [varCount, hnone]
  rfl

end Variables

/-! ## Calls keep the references that no table accounts for -/

/-- The call keeps the invariant and the references that come from no table. -/
structure Accounts (s s' : State) : Prop where
  inv : Inv s'
  length : s'.ports.length = s.ports.length
  base : ∀ i < s.ports.length, base s' i = base s i

section Calls

variable {s s' : State} {cx : Nat} {c : Context} {h : HashHead}

theorem Accounts.refl (hs : Inv s) : Accounts s s :=
  ⟨hs, rfl, fun _ _ => rfl⟩

theorem Accounts.trans {s'' : State} (h : Accounts s s') (h' : Accounts s' s'') :
    Accounts s s'' :=
  ⟨h'.inv, h'.length.trans h.length,
    fun i hi => (h'.base i (h.length.symm ▸ hi)).trans (h.base i hi)⟩

theorem Accounts.of_equiv (hs' : Inv s') (hequiv : Equiv s s') : Accounts s s' :=
  ⟨hs', hequiv.length_eq.symm, fun i hi => (hequiv.base i hi).symm⟩

theorem store_accounts (hs : Inv s) (hc : s.contexts[cx]? = some (some c))
    (hh : s.heads[c.head]? = some (some h)) {o : Outcome} (hk : Keeps h.table s.ports o) :
    Accounts s (store s cx o) :=
  ⟨store_inv hs hc hh hk, hk.ports_length, fun _ hi => base_store hc hh hk hi⟩

theorem change_accounts {op : Table → Ports → Outcome} (hs : Inv s) (hop : Lawful op)
    (servPort : Nat) : Accounts s (change s servPort op).1 := by
  unfold EnvMgr.change
  cases hp : portToContext s servPort with
  | none => exact .refl hs
  | some found =>
      obtain ⟨cx, restrict⟩ := found
      cases restrict with
      | true => exact .refl hs
      | false =>
          obtain ⟨c, hc, -, -⟩ := portToContext_some hp
          obtain ⟨hinv, hequiv, c₁, h₁, ho⟩ := copyIfShared_spec hs hc
          dsimp only
          rw [if_neg Bool.false_ne_true, ho.tableOf_eq]
          exact (Accounts.of_equiv hinv hequiv).trans
            (store_accounts hinv ho.context ho.head (hop.keeps _ (hinv.tidy ho.head).length))

theorem consult_accounts {op : Table → Ports → Outcome × Reply} {quiet : Table → Ports → Prop}
    (hs : Inv s) (hop : LawfulRead op quiet) (servPort : Nat) :
    Accounts s (consult s servPort op).1 := by
  unfold EnvMgr.consult
  cases hp : portToContext s servPort with
  | none => exact .refl hs
  | some found =>
      obtain ⟨cx, restrict⟩ := found
      obtain ⟨c, hc, -, -⟩ := portToContext_some hp
      obtain ⟨h, hh⟩ := hs.live hc
      have hof : tableOf s cx = h.table := by rw [tableOf, contextAt_eq hc, headAt_eq hh]
      dsimp only
      rw [hof]
      exact store_accounts hs hc hh (hop.keeps _ (hs.tidy hh).length)

theorem setPort_accounts (hs : Inv s) (deallocOk : Nat → Bool) (servPort : Nat) (name : Name)
    (value : Nat) : Accounts s (envSetPort deallocOk s servPort name value).1 := by
  unfold envSetPort
  split
  · exact .refl hs
  · exact change_accounts hs (setPort_lawful deallocOk name value) servPort

theorem setStlist_accounts (hs : Inv s) (servPort : Nat) (retcode : Code)
    (vars : List (Name × Name)) : Accounts s (envSetStlist s servPort retcode vars).1 := by
  induction vars generalizing s retcode with
  | nil => exact .refl hs
  | cons var vars ih =>
      obtain ⟨name, value⟩ := var
      have hfirst : Accounts s (envSetString s servPort name value).1 :=
        change_accounts hs (setString_lawful name value) servPort
      simp only [envSetStlist]
      split
      · exact hfirst.trans (ih hfirst.inv .success)
      · exact hfirst

theorem setPtlist_accounts (hs : Inv s) (deallocOk : Nat → Bool) (servPort : Nat)
    (retcode : Code) (vars : List (Name × Nat)) :
    Accounts s (envSetPtlist deallocOk s servPort retcode vars).1 := by
  induction vars generalizing s retcode with
  | nil => exact .refl hs
  | cons var vars ih =>
      obtain ⟨name, value⟩ := var
      have hfirst := setPort_accounts hs deallocOk servPort name value
      simp only [envSetPtlist]
      split
      · exact hfirst.trans (ih hfirst.inv .success)
      · exact hfirst

theorem copyConn_accounts (hs : Inv s) (servPort : Nat) (newEnvPort : Except Nat Nat) :
    Accounts s (envCopyConn false s servPort newEnvPort).1 := by
  unfold envCopyConn
  cases hp : portToContext s servPort with
  | none => exact .refl hs
  | some found =>
      obtain ⟨cx, restrict⟩ := found
      obtain ⟨c, hc, -, -⟩ := portToContext_some hp
      obtain ⟨h, hh⟩ := hs.live hc
      cases hfree : s.contexts.findIdx? Option.isNone with
      | none => exact .refl hs
      | some ncx =>
          cases newEnvPort with
          | error code => exact .refl hs
          | ok newPort =>
              refine ⟨share_inv hs hc hh (findFree_some hfree) newPort, rfl, fun i _ => ?_⟩
              have htotal : total (share s cx ncx newPort) i = total s i :=
                total_share hc hh newPort i
              simp only [Bool.false_eq_true, if_false, EnvMgr.base]
              rw [htotal]
              rfl

theorem newConn_accounts (hs : Inv s) (newEnvPort : Except Nat Nat) :
    Accounts s (envNewConn s newEnvPort).1 := by
  unfold envNewConn
  cases hfree : s.contexts.findIdx? Option.isNone with
  | none => exact .refl hs
  | some ncx =>
      cases newEnvPort with
      | error code => exact .refl hs
      | ok newPort =>
          exact ⟨openContext_inv hs (findFree_some hfree) newPort, rfl,
            fun i _ => base_openContext s ncx newPort i⟩

theorem restrictConn_accounts (hs : Inv s) (servPort : Nat) (newEnvPort : Except Nat Nat) :
    Accounts s (envRestrictConn s servPort newEnvPort).1 := by
  unfold envRestrictConn
  cases hp : portToContext s servPort with
  | none => exact .refl hs
  | some found =>
      obtain ⟨cx, restrict⟩ := found
      obtain ⟨c, hc, -, -⟩ := portToContext_some hp
      dsimp only
      split
      · exact .refl hs
      · cases newEnvPort with
        | error code => exact .refl hs
        | ok newPort => exact ⟨setRoport_inv hs hc newPort, rfl, fun _ _ => rfl⟩

theorem deadPort_accounts (hs : Inv s) (port : Nat) : Accounts s (deadPort s port) := by
  obtain ⟨hlength, hrefs⟩ := removeDeadPort_spec s.ports port
  refine ⟨deadPort_inv hs port, hlength, fun i _ => ?_⟩
  simp only [EnvMgr.base, deadPort, hrefs]
  rfl

/-- The references of the variables of a freed table would be lost. -/
theorem disconnect_accounts (hs : Inv s) (servPort : Nat)
    (hrel : Releases s (.disconnect servPort)) : Accounts s (envDisconnect s servPort).1 := by
  unfold envDisconnect
  cases hp : portToContext s servPort with
  | none => exact .refl hs
  | some found =>
      obtain ⟨cx, restrict⟩ := found
      obtain ⟨c, hc, -, -⟩ := portToContext_some hp
      obtain ⟨h, hh⟩ := hs.live hc
      cases restrict with
      | true =>
          dsimp only
          rw [if_pos rfl]
          split
          · exact .refl hs
          · have hdead := deadPort_accounts hs (contextAt s cx).roport
            exact hdead.trans ⟨setRoport_inv hdead.inv hc 0, rfl, fun _ _ => rfl⟩
      | false =>
          have hdispose : Accounts s (dispose s cx) := by
            refine ⟨dispose_inv hs hc hh, rfl, fun i _ => ?_⟩
            rw [base_dispose hc hh]
            split
            · next hone =>
                have hrefcnt : refcntOf s cx = 1 := by
                  rw [refcntOf, contextAt_eq hc, headAt_eq hh, hone]
                have hnone := hrel cx hp hrefcnt
                rw [tableOf, contextAt_eq hc, headAt_eq hh] at hnone
                rw [uses_eq_zero hnone i]
                simp
            · simp
          have hdead := hdispose.trans
            (deadPort_accounts hdispose.inv (contextAt s cx).rwport)
          dsimp only
          rw [if_neg Bool.false_ne_true]
          split
          · exact hdead.trans (deadPort_accounts hdead.inv (contextAt s cx).roport)
          · exact hdead

theorem serve_accounts (hs : Inv s) (deallocOk : Nat → Bool) (call : Call)
    (hrel : Releases s call) : Accounts s (serve false deallocOk s call).1 := by
  cases call with
  | setString p name value => exact change_accounts hs (setString_lawful name value) p
  | getString p name => exact consult_accounts hs (getStringOp_lawful name) p
  | delString p name =>
      exact change_accounts hs (deleteHashEntry_lawful deallocOk name .envstr) p
  | setPort p name value => exact setPort_accounts hs deallocOk p name value
  | getPort p name => exact consult_accounts hs (getPortOp_lawful deallocOk name) p
  | delPort p name =>
      exact change_accounts hs (deleteHashEntry_lawful deallocOk name .envport) p
  | listStrings p names values => exact consult_accounts hs (listStringsOp_lawful names values) p
  | listPorts p names => exact consult_accounts hs (listPortsOp_lawful deallocOk names) p
  | setStlist p retcode vars => exact setStlist_accounts hs p retcode vars
  | setPtlist p retcode vars => exact setPtlist_accounts hs deallocOk p retcode vars
  | copyConn p newEnvPort => exact copyConn_accounts hs p newEnvPort
  | newConn newEnvPort => exact newConn_accounts hs newEnvPort
  | restrictConn p newEnvPort => exact restrictConn_accounts hs p newEnvPort
  | disconnect p => exact disconnect_accounts hs p hrel
  | portDeath port => exact deadPort_accounts hs port

theorem serveAll_accounts (messages : List Message) (hs : Inv s)
    (hrel : ReleasesRun s messages) : Accounts s (serveAll false s messages).1 := by
  induction messages generalizing s with
  | nil => exact .refl hs
  | cons m rest ih =>
      have hfirst := serve_accounts hs m.deallocOk m.call hrel.1
      exact hfirst.trans (ih hfirst.inv hrel.2)

end Calls

/-! ## The standard ports -/

theorem enterPorts_spec (news : List Nat) (ports : Ports) :
    (enterPorts news ports).2 =
        news.foldl (fun ports port => (addPort ports port).elim ports Prod.snd) ports ∧
      (enterPorts news ports).2.length = ports.length ∧
      ∀ k < ports.length, refAt (enterPorts news ports).2 k =
        refAt ports k + (enterPorts news ports).1.count k := by
  induction news generalizing ports with
  | nil => exact ⟨rfl, rfl, fun k _ => by simp [enterPorts]⟩
  | cons port news ih =>
      cases hadd : addPort ports port with
      | none =>
          simpa only [enterPorts, hadd, List.foldl_cons, Option.elim_none] using ih ports
      | some result =>
          obtain ⟨i, ports'⟩ := result
          obtain ⟨-, hlength, hcount⟩ := addPort_spec hadd
          obtain ⟨hfold, hlength', hcount'⟩ := ih ports'
          simp only [enterPorts, hadd, List.foldl_cons, Option.elim_some]
          refine ⟨hfold, hlength'.trans hlength, fun k hk => ?_⟩
          rw [hcount' k (hlength.symm ▸ hk), hcount k hk, List.count_cons, refers]
          by_cases hik : i = k
          · subst hik
            simp
            omega
          · simp [hik]

section Initial

variable (environmentPort nameServerPort servicePort knownEnvPort : Nat)

theorem envInit_ports : (envInit environmentPort nameServerPort servicePort knownEnvPort).ports =
    (enterPorts [environmentPort, nameServerPort, servicePort]
      (List.replicate maxPortEnt ⟨0, 0⟩)).2 :=
  (enterPorts_spec _ _).1.symm

theorem base_envInit (i : Nat)
    (hi : i < (envInit environmentPort nameServerPort servicePort knownEnvPort).ports.length) :
    base (envInit environmentPort nameServerPort servicePort knownEnvPort) i =
      standard environmentPort nameServerPort servicePort i := by
  obtain ⟨-, hlength, hcount⟩ := enterPorts_spec [environmentPort, nameServerPort, servicePort]
    (List.replicate maxPortEnt ⟨0, 0⟩)
  have htotal : total (envInit environmentPort nameServerPort servicePort knownEnvPort) i = 0 := by
    simp [total, envInit, headUses, uses_emptyTable]
  rw [envInit_ports, hlength] at hi
  have hzero : refAt (List.replicate maxPortEnt ⟨0, 0⟩) i = 0 := by
    rw [refAt_eq hi]
    simp
  rw [base, htotal, envInit_ports, hcount i hi, hzero, standard]
  simp

end Initial

/-! ## All runs -/

/-- The invariant with the right references from outside the tables gives the right counts. -/
theorem Inv.accounted {s : State} {std : Nat → Nat} (hs : Inv s)
    (hbase : ∀ i < s.ports.length, base s i = std i) : Accounted std s := by
  have hports : ∀ i < s.ports.length, refAt s.ports i = varCount s i + std i := by
    intro i hi
    have hi' := hbase i hi
    rw [base] at hi'
    rw [hs.varCount_eq]
    omega
  refine ⟨hports, fun hh => (hs.counted hh).1, fun i hi hpt => ?_, fun hclosed i hi => ?_⟩
  · have hrefs := hports i hi
    have hentry : s.ports[i].pt ≠ 0 := by
      simpa [ptAt, List.getD_eq_getElem?_getD, hi] using hpt
    rw [refAt_eq hi] at hrefs
    have hafter : ptAt (delPort (fun _ => true) s.ports i) i =
        if s.ports[i].refcnt - 1 = 0 then 0 else s.ports[i].pt := by
      simp only [ptAt, delPort, List.getD_eq_getElem?_getD, List.getElem?_map,
        List.getElem?_modify_eq, List.getElem?_eq_getElem hi]
      by_cases hone : s.ports[i].refcnt - 1 = 0
      · simp [hone]
      · simp [hone]
    rw [hafter]
    constructor
    · intro hzero
      by_cases hone : s.ports[i].refcnt - 1 = 0
      · omega
      · rw [if_neg hone] at hzero
        exact absurd hzero hentry
    · intro hone
      exact if_pos (by omega)
  · rw [hports i hi, varCount_of_closed hclosed i]
    simp

/-- While no call frees a hash table with port variables, all counts are right after every
call. -/
theorem references_accounted (environmentPort nameServerPort servicePort knownEnvPort : Nat)
    (messages : List Message)
    (hrel : ReleasesRun (envInit environmentPort nameServerPort servicePort knownEnvPort)
      messages) :
    Accounted (standard environmentPort nameServerPort servicePort)
      (serveAll false (envInit environmentPort nameServerPort servicePort knownEnvPort)
        messages).1 := by
  have hacc := serveAll_accounts messages (envInit_inv environmentPort nameServerPort servicePort
    knownEnvPort) hrel
  refine hacc.inv.accounted (fun i hi => ?_)
  rw [hacc.length] at hi
  rw [hacc.base i hi]
  exact base_envInit environmentPort nameServerPort servicePort knownEnvPort i hi

/-- A port variable is set, copied and deleted before both contexts are disconnected. -/
def releasedRun : List Message :=
  [⟨.setPort 5 [80] 77, fun _ => true⟩, ⟨.copyConn 5 (.ok 9), fun _ => true⟩,
    ⟨.disconnect 5, fun _ => true⟩, ⟨.delPort 9 [80], fun _ => true⟩,
    ⟨.disconnect 9, fun _ => true⟩]

theorem references_accounted_releasedRun :
    Accounted (standard 1 2 3) (serveAll false (envInit 1 2 3 5) releasedRun).1 := by
  refine references_accounted 1 2 3 5 releasedRun ⟨trivial, trivial, ?_, trivial, ?_, trivial⟩
  · intro cx hp hone
    have hcx : (portToContext (serveAll false (envInit 1 2 3 5) (releasedRun.take 2)).1 5).map
        Prod.fst = some 0 := by decide +kernel
    have htwo : refcntOf (serveAll false (envInit 1 2 3 5) (releasedRun.take 2)).1 0 = 2 := by
      decide +kernel
    have heq : some cx = some 0 := by
      rw [← hcx]
      exact (congrArg (Option.map Prod.fst) hp).symm
    cases heq
    cases htwo.symm.trans hone
  · intro cx hp _
    have hcx : (portToContext (serveAll false (envInit 1 2 3 5) (releasedRun.take 4)).1 9).map
        Prod.fst = some 1 := by decide +kernel
    have hempty : (tableOf (serveAll false (envInit 1 2 3 5) (releasedRun.take 4)).1 1).flatten =
        [] := by decide +kernel
    have heq : some cx = some 1 := by
      rw [← hcx]
      exact (congrArg (Option.map Prod.fst) hp).symm
    cases heq
    rintro ⟨entry, hentry, -⟩
    have hin : entry ∈ (tableOf (serveAll false (envInit 1 2 3 5)
      (releasedRun.take 4)).1 1).flatten := hentry
    rw [hempty] at hin
    cases hin

/-- The only context is disconnected while it has a port variable: its reference stays. -/
theorem disconnect_leaks_reference :
    ¬ Accounted (standard 1 2 3) (serveAll false (envInit 1 2 3 5)
      [⟨.setPort 5 [80] 77, fun _ => true⟩, ⟨.disconnect 5, fun _ => true⟩]).1 := by
  intro hacc
  have hcount := hacc.ports 3 (by decide +kernel)
  revert hcount
  decide +kernel

end MachFormal.EnvMgr
