import MachFormal.Nanny.Once

/-!
# Servers that are no longer configured

When the configuration is loaded again, `Check_cnfg` first makes the entries invalid that are
not in it any more, and leaves it to `LifeChecks` to kill their processes.  But `kill_srv` does
not kill for an entry that is invalid.  It also looks for the entry of a name without asking
whether the entry is valid.

What is left holds in runs whose configurations keep all servers that run and do not meet
invalid entries; that `fork` may fail makes no difference to it.
-/

namespace MachFormal.Nanny.Reload

open Library

/-! ## What is to hold -/

def names (newList : List (Basis × Bool)) : List String := newList.map fun entry => entry.1.name

/-- The server is not in the new configuration, or is not to run on this host any more. -/
def Removed (newList : List (Basis × Bool)) (srv : Server) : Prop :=
  srv.basis.name ∉ names newList ∨
    ∃ basis, (basis, false) ∈ newList ∧ basis.name = srv.basis.name

/-- What a reload that turns `st` into `st'` does, with the `LifeChecks` after it. -/
structure Reloaded (newList : List (Basis × Bool)) (st st' : State) : Prop where
  /-- Processes of servers that are removed are sent `SIGKILL`. -/
  killed : ∀ srv ∈ st.servers, Removed newList srv → srv.Active → Gone srv.pid st'.children
  /-- A server whose profile has not changed keeps its process. -/
  kept : ∀ srv ∈ st.servers, srv.valid = true → (srv.basis, true) ∈ newList → srv ∈ st'.servers ∧
    (0 < srv.pid → ∀ c ∈ st.children, c.pid = srv.pid → c.Unreaped → c ∈ st'.children)
  /-- Only valid entries are left, and only servers that are in the new list: those that are
  removed have been freed. -/
  freed : ∀ answers st'', st'.dying = false → lifeChecks answers st' = some st'' →
    ∀ srv ∈ st''.servers, srv.valid = true ∧ (srv.basis, true) ∈ newList
  /-- There is one entry for each name, with its profile. -/
  loaded : ∀ answers st'', st'.dying = false → lifeChecks answers st' = some st'' →
    ∀ basis, (basis, true) ∈ newList → ∃ srv ∈ st''.servers, srv.basis = basis ∧
      ∀ other ∈ st''.servers, other.basis.name = basis.name → other = srv

/-- A configuration names no server twice, and none of which an entry that is no longer valid is
in the list, and all that are running. -/
def Orderly (st : State) : Label → Prop
  | .checkCnfg newList => (names newList).Nodup ∧
      (∀ srv ∈ st.servers, srv.basis.name ∈ names newList → srv.valid = true) ∧
      ∀ srv ∈ st.servers, srv.Active → srv.basis.name ∈ names newList
  | _ => True

/-! ## What `LifeChecks` leaves -/

variable {next : Nat} {servers : List Server} {children children' : List Child}

/-- What the loop of `LifeChecks` leaves are the entries that are valid, with their profiles,
and entries that are not and are active. -/
theorem lifeLoop_spec {answers : Answers} {clock : Nat} {servers' : List Server}
    (ran : Nanny.lifeLoop answers clock servers children = some (servers', children')) :
    (∀ srv' ∈ servers', ∃ srv ∈ servers, (srv.valid = true ∨ srv.Active) ∧
      srv'.serial = srv.serial ∧ srv'.basis = srv.basis ∧ srv'.valid = srv.valid) ∧
    ∀ srv ∈ servers, srv.valid = true →
      ∃ srv' ∈ servers', srv'.serial = srv.serial ∧ srv'.basis = srv.basis := by
  induction servers generalizing children servers' with
  | nil =>
      obtain ⟨rfl, rfl⟩ := Prod.mk.inj (Option.some.inj ran)
      exact ⟨fun _ inside => absurd inside List.not_mem_nil, fun _ inside => absurd inside List.not_mem_nil⟩
  | cons srv rest ih =>
      -- an entry that stays
      have stays {srv' : Server} {children₁ : List Child} {rest₁ : List Server}
          (reason : srv.valid = true ∨ srv.Active)
          (same : srv'.serial = srv.serial ∧ srv'.basis = srv.basis ∧ srv'.valid = srv.valid)
          (mapped : (Nanny.lifeLoop answers clock rest children₁).map
            (fun result => (srv' :: result.1, result.2)) = some (rest₁, children')) :
          (∀ s' ∈ rest₁, ∃ s ∈ srv :: rest, (s.valid = true ∨ s.Active) ∧
            s'.serial = s.serial ∧ s'.basis = s.basis ∧ s'.valid = s.valid) ∧
          ∀ s ∈ srv :: rest, s.valid = true → ∃ s' ∈ rest₁, s'.serial = s.serial ∧ s'.basis = s.basis := by
        obtain ⟨⟨rest₂, children₂⟩, looped, equal⟩ := Option.map_eq_some_iff.mp mapped
        obtain ⟨rfl, rfl⟩ := Prod.mk.inj equal
        obtain ⟨from_, kept⟩ := ih looped
        constructor
        · refine List.forall_mem_cons.mpr ⟨⟨srv, List.mem_cons_self, reason, same⟩, fun s' inside => ?_⟩
          obtain ⟨s, member, rest⟩ := from_ s' inside
          exact ⟨s, List.mem_cons_of_mem _ member, rest⟩
        · refine List.forall_mem_cons.mpr
            ⟨fun _ => ⟨srv', List.mem_cons_self, same.1, same.2.1⟩, fun s inside isValid => ?_⟩
          obtain ⟨s', member, rest⟩ := kept s inside isValid
          exact ⟨s', List.mem_cons_of_mem _ member, rest⟩
      rw [Nanny.lifeLoop] at ran
      split at ran
      next isValid =>
        split at ran
        · obtain ⟨⟨srv', children₁⟩, started, ran⟩ := Option.bind_eq_some_iff.mp ran
          exact stays (.inl isValid) (runServer_same started) ran
        · exact stays (.inl isValid) ⟨rfl, rfl, rfl⟩ ran
      next isInvalid =>
        have killed : killSrv .operator srv children = (srv, children) := if_pos (by simpa using isInvalid)
        split at ran
        next active =>
          rw [killed] at ran
          exact stays (.inr active) ⟨rfl, rfl, rfl⟩ ran
        next =>
          obtain ⟨from_, kept⟩ := ih ran
          constructor
          · intro s' inside
            obtain ⟨s, member, rest⟩ := from_ s' inside
            exact ⟨s, List.mem_cons_of_mem _ member, rest⟩
          · exact List.forall_mem_cons.mpr ⟨fun isValid => absurd isValid isInvalid, kept⟩

/-! ## Configurations -/

section Configurations

/-- What loading one entry of the new list does. -/
structure Added (basis : Basis) (valid : Bool) (st st' : State) : Prop where
  listed : Listed st'.nextSerial st'.servers st'.children
  dying : st'.dying = st.dying
  frame : ∀ srv, srv.basis.name ≠ basis.name → (srv ∈ st'.servers ↔ srv ∈ st.servers)
  entries : ∀ srv ∈ st'.servers, srv.basis.name = basis.name →
    srv.valid = true ∧ srv.basis = basis ∧ valid = true ∨ srv.valid = false ∧ ¬srv.Active
  there : valid = true → ∃ srv ∈ st'.servers, srv.valid = true ∧ srv.basis = basis
  same : valid = true → ∀ srv ∈ st.servers, srv.basis = basis →
    st'.servers = st.servers ∧ st'.children = st.children
  killed : ∀ srv ∈ st.servers, srv.basis.name = basis.name → valid = false ∨ srv.basis ≠ basis →
    srv.Active → Gone srv.pid st'.children
  marks : Marks st.children st'.children
  spared : ∀ srv ∈ st.servers, srv.basis.name ≠ basis.name → 0 < srv.pid →
    ∀ c ∈ st.children, c.pid = srv.pid → c.Unreaped → c ∈ st'.children

/-- After `kill_srv` on a valid entry it is not active and its process is sent the signal. -/
theorem killSrv_valid {srv : Server} (valid : srv.valid = true) (pids : ∀ c ∈ children, 3 ≤ c.pid) :
    ¬(killSrv .operator srv children).1.Active ∧
      (srv.Active → Gone srv.pid (killSrv .operator srv children).2) ∧
      ((killSrv .operator srv children).2 = children ∨
        (killSrv .operator srv children).2 = sendKill srv.pid children) := by
  have off (s : Server) (status : s.status = .killed) : ¬s.Active := by
    rw [Server.Active, status]
    decide
  rw [killSrv, comKillSrv, if_neg (by rw [valid]; decide)]
  split
  next idle =>
    refine ⟨off _ rfl, fun active => ?_, .inl rfl⟩
    rcases active with running | stopped
    · exact absurd running idle.1
    · exact absurd stopped idle.2
  next =>
    split
    next low =>
      refine ⟨off _ rfl, fun _ c child same => ?_, .inl rfl⟩
      have bound := pids c child
      omega
    next => exact ⟨off _ rfl, fun _ => sendKill_gone _ _, .inr rfl⟩

/-- The new entry is not active. -/
theorem newSrv_inactive (serial clock : Nat) (basis : Basis) (valid : Bool) :
    ¬(newSrv serial clock basis valid).Active := by
  change ¬(Status.dead = .running ∨ Status.dead = .stopped)
  decide

section Loading

variable {st : State} {basis : Basis} {valid : Bool}

theorem mem_queued (new : Server) {srv : Server} (other : srv.basis.name ≠ new.basis.name) :
    srv ∈ servers ++ [new] ↔ srv ∈ servers := by
  rw [List.mem_append, List.mem_singleton, or_iff_left]
  rintro rfl
  exact other rfl

/-- Behind entries of its name that are off, the new entry is the one of its name that counts. -/
theorem entries_queued {serial clock : Nat} (off : ∀ srv ∈ servers, srv.basis.name = basis.name →
      srv.valid = false ∧ ¬srv.Active) :
    ∀ srv ∈ servers ++ [newSrv serial clock basis valid], srv.basis.name = basis.name →
      srv.valid = true ∧ srv.basis = basis ∧ valid = true ∨ srv.valid = false ∧ ¬srv.Active := by
  intro srv member name
  rcases List.mem_append.mp member with before | new
  · exact .inr (off srv before name)
  · rw [List.mem_singleton.mp new]
    cases valid with
    | true => exact .inl ⟨rfl, rfl, rfl⟩
    | false => exact .inr ⟨rfl, newSrv_inactive _ _ _ _⟩

theorem there_queued {serial clock : Nat} (runs : valid = true) :
    ∃ srv ∈ servers ++ [newSrv serial clock basis valid], srv.valid = true ∧ srv.basis = basis :=
  ⟨_, List.mem_append_right _ List.mem_cons_self, runs, rfl⟩

/-- The name is not in the list yet. -/
theorem added_unused (listed : Listed st.nextSerial st.servers st.children)
    (unused : ∀ srv ∈ st.servers, srv.basis.name ≠ basis.name) :
    Added basis valid st { st with
      nextSerial := st.nextSerial + 1
      servers := st.servers ++ [newSrv st.nextSerial st.clock basis valid] } where
  listed := listed.queueTail _ _ _ fun srv member name => absurd name (unused srv member)
  dying := rfl
  frame _ := mem_queued (newSrv _ _ basis valid)
  entries := entries_queued fun srv member name => absurd name (unused srv member)
  there := there_queued
  same _ srv member same := absurd (congrArg Basis.name same) (unused srv member)
  killed srv member name := absurd name (unused srv member)
  marks := Marks.refl _
  spared _ _ _ _ _ child _ _ := child

/-- The entry of the name differs, is killed and becomes invalid. -/
theorem added_changed {oldsrv killed : Server}
    (listed : Listed st.nextSerial st.servers st.children) (member : oldsrv ∈ st.servers)
    (name : oldsrv.basis.name = basis.name) (isValid : oldsrv.valid = true)
    (only : ∀ srv ∈ st.servers, srv.basis.name = basis.name → srv = oldsrv)
    (differs : valid = true → oldsrv.basis ≠ basis)
    (shape : killed = { (killSrv .operator oldsrv st.children).1 with valid := false }) :
    Added basis valid st { st with
      nextSerial := st.nextSerial + 1
      servers := replace killed st.servers ++ [newSrv st.nextSerial st.clock basis valid]
      children := (killSrv .operator oldsrv st.children).2 } := by
  obtain ⟨off, gone, sent⟩ := killSrv_valid isValid listed.pids
  obtain ⟨marks, adjusted⟩ := killSrv_harmless .operator oldsrv st.children
  have isInvalid : killed.valid = false := shape ▸ rfl
  have isOff : ¬killed.Active := shape ▸ off
  have withdrawn : Adjusted (killSrv .operator oldsrv st.children).2 oldsrv killed := by
    subst shape
    exact ⟨⟨adjusted.serial, adjusted.basis, adjusted.pid, fun valid => by cases valid⟩,
      adjusted.active, adjusted.gone, fun _ _ => off, adjusted.reasons⟩
  have replaced := listed.adjust marks (listed.adjusts_replace member withdrawn)
  have mem (srv : Server) : srv ∈ replace killed st.servers ↔ _ :=
    listed.mem_replace member withdrawn.serial
  have named : killed.basis.name = basis.name := withdrawn.basis ▸ name
  have unused (srv : Server) (inside : srv ∈ replace killed st.servers)
      (name' : srv.basis.name = basis.name) : srv = killed := by
    rcases (mem srv).mp inside with same | ⟨before, differs⟩
    · exact same
    · exact absurd (only srv before name') differs
  refine ⟨?_, rfl, ?_, ?_, there_queued, ?_, ?_, marks, ?_⟩
  · exact replaced.queueTail _ _ _ fun srv inside name' => unused srv inside name' ▸ isInvalid
  · intro srv other
    refine (mem_queued _ other).trans ((mem srv).trans ⟨?_, fun before => .inr ⟨before, ?_⟩⟩)
    · rintro (rfl | ⟨before, -⟩)
      · exact absurd named other
      · exact before
    · rintro rfl
      exact other name
  · refine entries_queued fun srv inside name' => ?_
    rw [unused srv inside name']
    exact ⟨isInvalid, isOff⟩
  · intro runs srv inside same
    rw [only srv inside (congrArg _ same)] at same
    exact absurd same (differs runs)
  · intro srv inside name' _ active
    rw [only srv inside name'] at active ⊢
    exact gone active
  · intro srv inside other positive c child pid unreaped
    have apart : c.pid ≠ oldsrv.pid := by
      intro same
      have equal := listed.eq_of_pid inside member positive (pid.symm.trans same)
      exact other (equal ▸ name)
    change c ∈ (killSrv .operator oldsrv st.children).2
    rcases sent with same | same
    · rw [same]
      exact child
    · rw [same]
      exact List.mem_map.mpr ⟨c, child, if_neg fun hit => apart hit.1⟩

/-- The entry of the name is as it was. -/
theorem added_unchanged {oldsrv : Server} (listed : Listed st.nextSerial st.servers st.children)
    (member : oldsrv ∈ st.servers) (isValid : oldsrv.valid = true)
    (only : ∀ srv ∈ st.servers, srv.basis.name = basis.name → srv = oldsrv)
    (alike : oldsrv.basis = basis ∧ valid = true) :
    Added basis valid st { st with nextSerial := st.nextSerial + 1 } where
  listed := listed.later
  dying := rfl
  frame _ _ := Iff.rfl
  entries srv inside name := only srv inside name ▸ .inl ⟨isValid, alike⟩
  there _ := ⟨oldsrv, member, isValid, alike.1⟩
  same _ _ _ _ := ⟨rfl, rfl⟩
  killed srv inside name changed := by
    rw [only srv inside name] at changed
    rcases changed with invalid | other
    · exact absurd (invalid.symm.trans alike.2) (by decide)
    · exact absurd alike.1 other
  marks := Marks.refl _
  spared _ _ _ _ _ child _ _ := child

theorem addServer_spec (listed : Listed st.nextSerial st.servers st.children)
    (current : ∀ srv ∈ st.servers, srv.basis.name = basis.name → srv.valid = true) :
    Added basis valid st (addServer st (basis, valid)) := by
  rw [addServer]
  dsimp only
  cases found : fetchSrv basis.name st.servers with
  | none =>
      refine added_unused listed fun srv member => ?_
      simpa using List.find?_eq_none.mp found srv member
  | some oldsrv =>
      obtain ⟨member, name⟩ := fetchSrv_mem found
      have isValid := current oldsrv member name
      have only (srv : Server) (inside : srv ∈ st.servers) (name' : srv.basis.name = basis.name) :
          srv = oldsrv :=
        listed.eq_of_serial inside member
          (listed.single srv inside oldsrv member (current srv inside name') isValid
            (name'.trans name.symm))
      dsimp only
      split
      next differs =>
        refine added_changed listed member name isValid only (fun runs same => ?_) rfl
        rw [servercmp, newSrv, same, isValid, runs] at differs
        simp at differs
      next unchanged =>
        refine added_unchanged listed member isValid only ?_
        rw [servercmp, Bool.or_eq_true, not_or] at unchanged
        obtain ⟨sameBasis, sameValid⟩ := unchanged
        rw [decide_eq_true_eq, not_not] at sameBasis
        rw [isValid] at sameValid
        refine ⟨sameBasis.symm, ?_⟩
        cases valid with
        | true => rfl
        | false => exact absurd rfl sameValid

end Loading

/-- What loading all entries of the new list does. -/
structure AddedAll (newList : List (Basis × Bool)) (st st' : State) : Prop where
  listed : Listed st'.nextSerial st'.servers st'.children
  dying : st'.dying = st.dying
  frame : ∀ srv, srv.basis.name ∉ names newList → (srv ∈ st'.servers ↔ srv ∈ st.servers)
  entries : ∀ srv ∈ st'.servers, srv.basis.name ∈ names newList →
    srv.valid = true ∧ (srv.basis, true) ∈ newList ∨ srv.valid = false ∧ ¬srv.Active
  there : ∀ basis, (basis, true) ∈ newList → ∃ srv ∈ st'.servers, srv.valid = true ∧ srv.basis = basis
  kept : ∀ srv ∈ st.servers, (srv.basis, true) ∈ newList → srv ∈ st'.servers ∧
    (0 < srv.pid → ∀ c ∈ st.children, c.pid = srv.pid → c.Unreaped → c ∈ st'.children)
  killed : ∀ srv ∈ st.servers, (∃ basis, (basis, false) ∈ newList ∧ basis.name = srv.basis.name) →
    srv.Active → Gone srv.pid st'.children
  marks : Marks st.children st'.children
  spared : ∀ srv ∈ st.servers, srv.basis.name ∉ names newList → 0 < srv.pid →
    ∀ c ∈ st.children, c.pid = srv.pid → c.Unreaped → c ∈ st'.children

theorem name_mem {newList : List (Basis × Bool)} {entry : Basis × Bool} (member : entry ∈ newList) :
    entry.1.name ∈ names newList :=
  List.mem_map_of_mem member

theorem AddedAll.cons {basis : Basis} {valid : Bool} {rest : List (Basis × Bool)} {st middle st' : State}
    (new : basis.name ∉ names rest) (first : Added basis valid st middle)
    (others : AddedAll rest middle st') : AddedAll ((basis, valid) :: rest) st st' := by
  have apart {name : String} (later : name ∈ names rest) : name ≠ basis.name := by
    rintro rfl
    exact new later
  refine ⟨others.listed, others.dying.trans first.dying, ?_, ?_, ?_, ?_, ?_,
    first.marks.trans others.marks, ?_⟩
  · intro srv other
    obtain ⟨differs, later⟩ := not_or.mp (mt List.mem_cons.mpr other)
    exact (others.frame srv later).trans (first.frame srv differs)
  · intro srv inside named
    rcases List.mem_cons.mp named with here | later
    · have before := (others.frame srv (here ▸ new)).mp inside
      rcases first.entries srv before here with ⟨isValid, same, runs⟩ | off
      · refine .inl ⟨isValid, ?_⟩
        rw [same, runs]
        exact List.mem_cons_self
      · exact .inr off
    · rcases others.entries srv inside later with ⟨isValid, listed⟩ | off
      · exact .inl ⟨isValid, List.mem_cons_of_mem _ listed⟩
      · exact .inr off
  · intro profile listed
    rcases List.mem_cons.mp listed with here | later
    · obtain ⟨rfl, runs⟩ := Prod.mk.inj here
      obtain ⟨srv, inside, isValid, same⟩ := first.there runs.symm
      exact ⟨srv, (others.frame srv (same ▸ new)).mpr inside, isValid, same⟩
    · exact others.there profile later
  · intro srv inside listed
    rcases List.mem_cons.mp listed with here | later
    · obtain ⟨same, runs⟩ := Prod.mk.inj here
      obtain ⟨servers, children⟩ := first.same runs.symm srv inside same
      have other : srv.basis.name ∉ names rest := same ▸ new
      rw [← servers] at inside
      refine ⟨(others.frame srv other).mpr inside, fun positive c child => ?_⟩
      rw [← children] at child
      exact others.spared srv inside other positive c child
    · have differs := apart (name_mem later)
      obtain ⟨stays, process⟩ := others.kept srv ((first.frame srv differs).mpr inside) later
      refine ⟨stays, fun positive c child pid unreaped => ?_⟩
      exact process positive c (first.spared srv inside differs positive c child pid unreaped) pid
        unreaped
  · rintro srv inside ⟨profile, listed, name⟩ active
    rcases List.mem_cons.mp listed with here | later
    · obtain ⟨rfl, off⟩ := Prod.mk.inj here
      exact (first.killed srv inside name.symm (.inl off.symm) active).marks others.marks
    · have differs : srv.basis.name ≠ basis.name := name ▸ apart (name_mem later)
      exact others.killed srv ((first.frame srv differs).mpr inside) ⟨profile, later, name⟩ active
  · intro srv inside other positive c child pid unreaped
    obtain ⟨differs, later⟩ := not_or.mp (mt List.mem_cons.mpr other)
    exact others.spared srv ((first.frame srv differs).mpr inside) later positive c
      (first.spared srv inside differs positive c child pid unreaped) pid unreaped

theorem addServers_spec {newList : List (Basis × Bool)} {st : State}
    (listed : Listed st.nextSerial st.servers st.children) (distinct : (names newList).Nodup)
    (current : ∀ srv ∈ st.servers, srv.basis.name ∈ names newList → srv.valid = true) :
    AddedAll newList st (newList.foldl addServer st) := by
  induction newList generalizing st with
  | nil =>
      refine ⟨listed, rfl, fun _ _ => Iff.rfl, ?_, ?_, ?_, ?_, Marks.refl _,
        fun _ _ _ _ c child _ _ => child⟩
      · exact fun _ _ named => absurd named List.not_mem_nil
      · exact fun _ listed => absurd listed List.not_mem_nil
      · exact fun _ _ listed => absurd listed List.not_mem_nil
      · rintro _ _ ⟨_, listed, _⟩
        exact absurd listed List.not_mem_nil
  | cons entry rest ih =>
      obtain ⟨basis, valid⟩ := entry
      obtain ⟨new, distinct⟩ : basis.name ∉ names rest ∧ (names rest).Nodup :=
        List.nodup_cons.mp distinct
      have first : Added basis valid st (addServer st (basis, valid)) :=
        addServer_spec listed fun srv inside name => current srv inside (name ▸ List.mem_cons_self)
      refine AddedAll.cons new first (ih first.listed distinct fun srv inside later => ?_)
      have differs : srv.basis.name ≠ basis.name := fun same => new (same ▸ later)
      exact current srv ((first.frame srv differs).mp inside) (List.mem_cons_of_mem _ later)

variable {newList : List (Basis × Bool)} {st : State}

/-- An entry that is valid and listed stays as it is when entries become invalid. -/
theorem mem_invalidate {srv : Server} (member : srv ∈ servers) (isValid : srv.valid = true)
    (named : srv.basis.name ∈ names newList) : srv ∈ invalidate (names newList) servers := by
  refine List.mem_map.mpr ⟨srv, member, ?_⟩
  rw [if_neg (by rw [isValid]; decide), decide_eq_true named, ← isValid]

theorem invalidate_other (orderly : Orderly st (.checkCnfg newList)) {srv : Server}
    (member : srv ∈ invalidate (names newList) st.servers) (other : srv.basis.name ∉ names newList) :
    srv.valid = false ∧ ¬srv.Active := by
  obtain ⟨old, before, same⟩ := List.mem_map.mp member
  change withdrawn (names newList) old = srv at same
  obtain ⟨valid, _, given⟩ := withdrawn_spec (names newList) old
  have basis : srv.basis = old.basis := by rw [← same, given]
  have active : srv.Active ↔ old.Active := by rw [← same, given]; exact Iff.rfl
  rw [basis] at other
  refine ⟨?_, fun on => other (orderly.2.2 old before (active.mp on))⟩
  rw [Bool.eq_false_iff, Ne, ← same, valid]
  exact fun both => other both.2

theorem checkCnfg_spec (listed : Listed st.nextSerial st.servers st.children)
    (orderly : Orderly st (.checkCnfg newList)) (read : newList ≠ []) :
    AddedAll newList { st with servers := invalidate (names newList) st.servers }
      (checkCnfg newList st) := by
  rw [checkCnfg, if_neg read]
  refine addServers_spec (listed.invalidate _) orderly.1 fun srv member named => ?_
  obtain ⟨old, before, same⟩ := List.mem_map.mp member
  change withdrawn (names newList) old = srv at same
  obtain ⟨valid, _, given⟩ := withdrawn_spec (names newList) old
  have basis : srv.basis = old.basis := by rw [← same, given]
  rw [basis] at named
  rw [← same, valid]
  exact ⟨orderly.2.1 old before named, named⟩

end Configurations

/-! ## Runs -/

section Runs

variable {st : State}

theorem listed_of_orderly (reached : machine.Reachable Orderly st) :
    Listed st.nextSerial st.servers st.children := by
  refine reached.invariant (P := fun st => Listed st.nextSerial st.servers st.children) ?_ ?_
  · rintro _ ⟨clock, rfl⟩
    exact ⟨List.nodup_nil, nofun, .nil, nofun, nofun, nofun⟩
  · intro st label st' listed orderly stepped
    refine listed_lasting.step listed (fun _ _ => trivial) ?_ stepped
    rintro newList rfl
    by_cases read : newList = []
    · rw [checkCnfg, if_pos read]
      exact listed
    · exact (checkCnfg_spec listed orderly read).listed

/-- In every orderly run each reload does what is asked of it. -/
theorem reloaded_of_orderly {newList : List (Basis × Bool)} (reached : machine.Reachable Orderly st)
    (orderly : Orderly st (.checkCnfg newList)) (read : newList ≠ []) :
    Reloaded newList st (checkCnfg newList st) := by
  have spec := checkCnfg_spec (listed_of_orderly reached) orderly read
  -- what is valid or active after the reload
  have current {srv : Server} (member : srv ∈ (checkCnfg newList st).servers)
      (on : srv.valid = true ∨ srv.Active) : srv.valid = true ∧ (srv.basis, true) ∈ newList := by
    by_cases named : srv.basis.name ∈ names newList
    · rcases spec.entries srv member named with valid | ⟨invalid, off⟩
      · exact valid
      · rcases on with valid | active
        · exact absurd (valid.symm.trans invalid) (by decide)
        · exact absurd active off
    · obtain ⟨invalid, off⟩ := invalidate_other orderly ((spec.frame srv named).mp member) named
      rcases on with valid | active
      · exact absurd (valid.symm.trans invalid) (by decide)
      · exact absurd active off
  have looped {answers : Answers} {st'' : State} (alive : (checkCnfg newList st).dying = false)
      (ran : lifeChecks answers (checkCnfg newList st) = some st'') :
      ∃ servers children, lifeLoop answers (checkCnfg newList st).clock
        (checkCnfg newList st).servers (checkCnfg newList st).children = some (servers, children) ∧
        st''.servers = servers := by
    rw [lifeChecks, if_neg (by rw [alive]; decide)] at ran
    obtain ⟨⟨servers, children⟩, looped, rfl⟩ := Option.map_eq_some_iff.mp ran
    exact ⟨servers, children, looped, rfl⟩
  refine ⟨?_, ?_, ?_, ?_⟩
  · rintro srv member removed active
    have named := orderly.2.2 srv member active
    have stays := mem_invalidate member (orderly.2.1 srv member named) named
    rcases removed with other | off
    · exact absurd named other
    · exact spec.killed srv stays off active
  · intro srv member valid listed
    exact spec.kept srv (mem_invalidate member valid (name_mem listed)) listed
  · intro answers st'' alive ran srv member
    obtain ⟨servers, children, loops, rfl⟩ := looped alive ran
    obtain ⟨old, before, on, -, basis, valid⟩ := (lifeLoop_spec loops).1 srv member
    rw [valid, basis]
    exact current before on
  · intro answers st'' alive ran basis listed
    have after := listed_lasting.lifeChecks spec.listed trivial ran
    obtain ⟨servers, children, loops, rfl⟩ := looped alive ran
    obtain ⟨old, before, valid, rfl⟩ := spec.there basis listed
    obtain ⟨srv, member, serial, same⟩ := (lifeLoop_spec loops).2 old before valid
    refine ⟨srv, member, same, fun other member' name => ?_⟩
    obtain ⟨old', before', on, serial', same', -⟩ := (lifeLoop_spec loops).1 other member'
    have equal := spec.listed.single old' before' old before (current before' on).1 valid
      (by rw [← same', name])
    exact after.eq_of_serial member' member (by rw [serial, serial', equal])

/-- A server is loaded and started. -/
def started : List Label := [.checkCnfg [(logger, true)], .lifeChecks (allThere 10)]

/-- Its profile changes. -/
theorem reloaded_changed : ∃ st, machine.run (start 1000) started = some st ∧
    Reloaded [({ logger with nice := 5 }, true)] st
      (checkCnfg [({ logger with nice := 5 }, true)] st) := by
  refine ⟨_, rfl, reloaded_of_orderly (.of_run started (.init ⟨1000, rfl⟩) rfl ?_) ?_ (by decide)⟩
  · exact ⟨⟨by decide, nofun, nofun⟩, trivial, trivial⟩
  · exact ⟨by decide, by decide, by decide⟩

/-- Its name is taken out of the configuration, and its process goes on. -/
theorem removed_goes_on : ¬∀ st, machine.Reachable Machine.always st → ∀ newList answers st'',
    lifeChecks answers (checkCnfg newList st) = some st'' → ∀ srv ∈ st.servers,
      srv.basis.name ∉ names newList → srv.Active → Gone srv.pid st''.children := by
  intro all
  obtain ⟨st, ran, state⟩ : ∃ st, machine.run (start 1000) started = some st ∧
      ∃ st'', lifeChecks (allThere 11) (checkCnfg [({ logger with name := "other" }, true)] st) =
        some st'' ∧ ∃ srv ∈ st.servers, srv.basis.name ∉ ["other"] ∧ srv.Active ∧ srv.pid = 10 ∧
          st''.children.map (fun c => (c.pid, c.life, c.sentKill)) =
            [(11, .alive, false), (10, .alive, false)] :=
    ⟨_, rfl, _, rfl, _, List.mem_cons_self, by decide, by decide, rfl, rfl⟩
  obtain ⟨st'', loops, srv, member, other, active, pid, children⟩ := state
  have gone := all st (.of_run started (.init ⟨1000, rfl⟩) ran ⟨trivial, trivial, trivial⟩) _ _ st''
    loops srv member other active
  have inside : ((10 : Int), Life.alive, false) ∈
      st''.children.map fun c => (c.pid, c.life, c.sentKill) := by
    rw [children]
    decide
  obtain ⟨c, child, same⟩ := List.mem_map.mp inside
  obtain ⟨number, alive, unsent⟩ : c.pid = 10 ∧ c.life = .alive ∧ c.sentKill = false := by
    simpa using same
  have sent := gone c child (number.trans pid.symm) (by rw [Child.Unreaped, alive]; decide)
  exact absurd (sent.symm.trans unsent) (by decide)

end Runs

end MachFormal.Nanny.Reload
