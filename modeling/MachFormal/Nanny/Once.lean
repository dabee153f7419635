import Mathlib.Tactic.Set
import MachFormal.Nanny.Listed

/-!
# Each server at most once

A child that was not sent `SIGKILL` belongs to an entry in the list that is running or
stopped, and no two valid entries have the same name; so a valid entry that is started
finds no such child of its name.  Two things break this: a `fork` that fails, whose
result is taken for a running server, and a configuration that names a server of which
an entry that is no longer valid is still in the list, since `fetch_srv` finds that one
and `com_kill_srv` does nothing to it.
-/

namespace MachFormal.Nanny

open MachFormal.Library

/-! ## What is to hold -/

/-- An older child of the same name that is still alive has been sent `SIGKILL`. -/
def Superseded (newer older : Child) : Prop :=
  older.name = newer.name → older.life = .alive → newer.life = .alive → older.sentKill = true

/-- Each server runs at most once, and is started again when it is dead, unless it was
withdrawn for one of the reasons. -/
structure RunsOnce (excused : Reason → Prop) (st : State) : Prop where
  active : ∀ srv ∈ st.servers, srv.Active →
    ∃ c ∈ st.children, c.owner = srv.serial ∧ c.pid = srv.pid ∧ c.Unreaped
  once : st.children.Pairwise Superseded
  restarted : ∀ srv ∈ st.servers, srv.valid = true →
    (∀ c ∈ st.children, c.owner = srv.serial → ¬c.Unreaped) →
    (∀ reason, srv.reason = some reason → ¬excused reason) → srv.status = .dead

/-- `fork` does not fail, and a configuration names no server twice and none of which an entry
that is no longer valid is in the list. -/
def Regular (st : State) : Label → Prop
  | .lifeChecks answers => ∀ serial, answers.fork serial ≠ none
  | .checkCnfg newList => (newList.map fun entry => entry.1.name).Nodup ∧
      ∀ entry ∈ newList, ∀ srv ∈ st.servers, srv.basis.name = entry.1.name → srv.valid = true
  | _ => True

/-! ## The invariant -/

/-- The invariant of the list and the table. -/
structure Inv (next : Nat) (servers : List Server) (children : List Child) : Prop
    extends Listed next servers children where
  owned : ∀ c ∈ children, c.Unreaped → ∀ srv ∈ servers, srv.serial = c.owner →
    srv.pid = c.pid ∧ srv.basis.name = c.name
  loose : ∀ c ∈ children, c.Unreaped → c.sentKill = false →
    ∃ srv ∈ servers, srv.serial = c.owner ∧ srv.Active
  active : ∀ srv ∈ servers, srv.Active → 0 < srv.pid
  dropped : ∀ srv ∈ servers, ∀ other ∈ servers, srv.valid = false → srv.Active →
    other.valid = true → srv.basis.name ≠ other.basis.name
  reasons : ∀ srv ∈ servers, srv.reason = none → srv.Active ∨ srv.status = .dead
  once : children.Pairwise Superseded
  ownersBelow : ∀ c ∈ children, c.owner < next

variable {next : Nat} {servers servers' : List Server} {children children' : List Child}

/-- The invariant gives what is to hold, with every reason an excuse. -/
theorem Inv.runsOnce {st : State} (inv : Inv st.nextSerial st.servers st.children) :
    RunsOnce (fun _ => True) st := by
  refine ⟨?_, inv.once, ?_⟩
  · intro srv member active
    exact inv.held srv member (inv.active srv member active)
  · intro srv member _ reaped unexcused
    have unreasoned : srv.reason = none := by
      cases given : srv.reason with
      | none => rfl
      | some reason => exact absurd trivial (unexcused reason given)
    rcases inv.reasons srv member unreasoned with active | dead
    · obtain ⟨c, child, owner, _, unreaped⟩ := inv.held srv member (inv.active srv member active)
      exact absurd unreaped (reaped c child owner)
    · exact dead

/-- The invariant is kept by signals, exits and changes of status. -/
theorem Inv.adjust (inv : Inv next servers children) (marks : Marks children children')
    (adjusts : Adjusts children' servers servers') : Inv next servers' children' := by
  have listed := inv.toListed.adjust marks adjusts
  obtain ⟨mark, marked, rfl⟩ := marks
  refine ⟨listed, ?_, ?_, ?_, ?_, ?_, ?_, ?_⟩
  · intro c' member unreaped srv' member' owner
    obtain ⟨c, child, rfl⟩ := List.mem_map.mp member
    obtain ⟨srv, before, adjusted⟩ := exists_before adjusts member'
    rw [adjusted.pid, adjusted.basis, (marked c).pid, (marked c).name]
    refine inv.owned c child ((marked c).unreaped.mp unreaped) srv before ?_
    rw [← adjusted.serial, owner, (marked c).owner]
  · intro c' member unreaped unsent
    obtain ⟨c, child, rfl⟩ := List.mem_map.mp member
    have unsent' : c.sentKill = false := by
      rw [Bool.eq_false_iff]
      intro sent
      exact absurd ((marked c).sentKill sent) (by rw [unsent]; decide)
    have unreaped' := (marked c).unreaped.mp unreaped
    obtain ⟨srv, before, owner, active⟩ := inv.loose c child unreaped' unsent'
    obtain ⟨srv', after, adjusted⟩ := exists_after adjusts before
    refine ⟨srv', after, ?_, ?_⟩
    · rw [adjusted.serial, owner, (marked c).owner]
    · by_contra inactive
      have own := (inv.owned c child unreaped' srv before owner).1
      have range : 3 ≤ srv.pid := own ▸ inv.pids c child
      have gone := adjusted.gone range active inactive _ member ((marked c).pid.trans own.symm)
        unreaped
      exact absurd gone (by rw [unsent]; decide)
  · intro srv' member active
    obtain ⟨srv, before, adjusted⟩ := exists_before adjusts member
    rw [adjusted.pid]
    exact inv.active srv before (adjusted.active active)
  · intro srv' member other' member' invalid active valid name
    obtain ⟨srv, before, adjusted⟩ := exists_before adjusts member
    obtain ⟨other, before', adjusted'⟩ := exists_before adjusts member'
    rw [adjusted.basis, adjusted'.basis] at name
    cases earlier : srv.valid with
    | true => exact adjusted.withdrawn earlier invalid active
    | false =>
        exact inv.dropped srv before other before' earlier (adjusted.active active)
          (adjusted'.valid valid) name
  · intro srv' member unreasoned
    obtain ⟨srv, before, adjusted⟩ := exists_before adjusts member
    exact adjusted.reasons (inv.reasons srv before) unreasoned
  · refine List.pairwise_map.mpr (inv.once.imp fun {newer older} superseded => ?_)
    intro name first second
    rw [(marked newer).name, (marked older).name] at name
    exact (marked older).sentKill
      (superseded name ((marked older).alive first) ((marked newer).alive second))
  · intro c' member
    obtain ⟨c, child, rfl⟩ := List.mem_map.mp member
    rw [(marked c).owner]
    exact inv.ownersBelow c child

/-- The order of the list plays no part in the invariant. -/
theorem Inv.perm (inv : Inv next servers children) (perm : servers.Perm servers') :
    Inv next servers' children where
  toListed := inv.toListed.perm perm
  owned := fun c child unreaped srv member => inv.owned c child unreaped srv (perm.mem_iff.mpr member)
  loose := by
    intro c child unreaped unsent
    obtain ⟨srv, member, active⟩ := inv.loose c child unreaped unsent
    exact ⟨srv, perm.mem_iff.mp member, active⟩
  active := fun srv member => inv.active srv (perm.mem_iff.mpr member)
  dropped := fun srv member other member' =>
    inv.dropped srv (perm.mem_iff.mpr member) other (perm.mem_iff.mpr member')
  reasons := fun srv member => inv.reasons srv (perm.mem_iff.mpr member)
  once := inv.once
  ownersBelow := inv.ownersBelow

/-- An entry that has no process is freed. -/
theorem Inv.free {srv : Server} (inv : Inv next (srv :: servers) children)
    (inactive : ¬srv.Active) : Inv next servers children where
  toListed := inv.toListed.free
  owned := fun c child unreaped other member =>
    inv.owned c child unreaped other (List.mem_cons_of_mem srv member)
  loose := by
    intro c child unreaped unsent
    obtain ⟨other, member, owner, active⟩ := inv.loose c child unreaped unsent
    rcases List.mem_cons.mp member with rfl | member
    · exact absurd active inactive
    · exact ⟨other, member, owner, active⟩
  active := fun other member => inv.active other (List.mem_cons_of_mem srv member)
  dropped := fun a member b member' =>
    inv.dropped a (List.mem_cons_of_mem srv member) b (List.mem_cons_of_mem srv member')
  reasons := fun other member => inv.reasons other (List.mem_cons_of_mem srv member)
  once := inv.once
  ownersBelow := inv.ownersBelow

/-- A child of an entry's name that was not sent `SIGKILL` keeps a valid dead entry from being
there: its own entry would be another valid one, or one that was dropped. -/
theorem Inv.unrivalled {srv : Server} {c : Child} (inv : Inv next servers children)
    (member : srv ∈ servers) (valid : srv.valid = true) (inactive : ¬srv.Active)
    (child : c ∈ children) (alive : c.life = .alive) (name : c.name = srv.basis.name) :
    c.sentKill = true := by
  by_contra unsent
  have unreaped : c.Unreaped := by
    rw [Child.Unreaped, alive]
    decide
  obtain ⟨owner, found, own, active⟩ :=
    inv.loose c child unreaped (Bool.eq_false_iff.mpr unsent)
  have same : owner.basis.name = srv.basis.name :=
    (inv.owned c child unreaped owner found own).2.trans name
  cases status : owner.valid with
  | true =>
      have entry := inv.eq_of_serial found member (inv.single owner found srv member status valid same)
      exact inactive (entry ▸ active)
  | false => exact inv.dropped owner found srv member status active valid same

/-- An entry without a process gets one. -/
theorem Inv.start {srv srv' : Server} {pid : Int} (inv : Inv next (srv :: servers) children)
    (listed : Listed next (srv' :: servers)
      (⟨pid, srv.serial, srv.basis.name, .alive, false⟩ :: children))
    (valid : srv.valid = true) (inactive : ¬srv.Active) (idle : srv.pid ≤ 0)
    (serial : srv'.serial = srv.serial) (basis : srv'.basis = srv.basis) (number : srv'.pid = pid)
    (running : srv'.status = .running) (valid' : srv'.valid = true) :
    Inv next (srv' :: servers) (⟨pid, srv.serial, srv.basis.name, .alive, false⟩ :: children) := by
  have own : ∀ c ∈ children, c.Unreaped → srv.serial ≠ c.owner := by
    intro c child unreaped owner
    have bound := inv.pids c child
    have same := (inv.owned c child unreaped srv List.mem_cons_self owner).1
    omega
  have unique := (List.nodup_cons.mp inv.serials).1
  refine ⟨listed, ?_, ?_, ?_, ?_, ?_, ?_, ?_⟩
  · refine List.forall_mem_cons.mpr ⟨fun _ => ?_, fun c child unreaped => ?_⟩
    · refine List.forall_mem_cons.mpr ⟨fun _ => ⟨number, by rw [basis]⟩, fun other member owner => ?_⟩
      have given : other.serial = srv.serial := owner
      exact absurd (given ▸ List.mem_map_of_mem member) unique
    · refine List.forall_mem_cons.mpr ⟨fun owner => ?_, fun other member => ?_⟩
      · exact absurd (serial ▸ owner) (own c child unreaped)
      · exact inv.owned c child unreaped other (List.mem_cons_of_mem srv member)
  · refine List.forall_mem_cons.mpr ⟨fun _ _ => ?_, fun c child unreaped unsent => ?_⟩
    · exact ⟨srv', List.mem_cons_self, serial, Or.inl running⟩
    · obtain ⟨other, member, owner, active⟩ := inv.loose c child unreaped unsent
      rcases List.mem_cons.mp member with rfl | member
      · exact absurd active inactive
      · exact ⟨other, List.mem_cons_of_mem srv' member, owner, active⟩
  · refine List.forall_mem_cons.mpr ⟨fun _ => ?_, fun other member => ?_⟩
    · rw [number]
      exact Int.lt_of_lt_of_le (by decide) (listed.pids _ List.mem_cons_self)
    · exact inv.active other (List.mem_cons_of_mem srv member)
  · refine List.forall_mem_cons.mpr ⟨fun _ _ invalid => ?_, fun a member => ?_⟩
    · exact absurd (valid'.symm.trans invalid) (by decide)
    · refine List.forall_mem_cons.mpr ⟨fun invalid active _ => ?_, fun b member' => ?_⟩
      · rw [basis]
        exact inv.dropped a (List.mem_cons_of_mem srv member) srv List.mem_cons_self invalid active
          valid
      · exact inv.dropped a (List.mem_cons_of_mem srv member) b (List.mem_cons_of_mem srv member')
  · refine List.forall_mem_cons.mpr ⟨fun _ => Or.inl (Or.inl running), fun other member => ?_⟩
    exact inv.reasons other (List.mem_cons_of_mem srv member)
  · refine List.pairwise_cons.mpr ⟨fun c child name alive _ => ?_, inv.once⟩
    exact inv.unrivalled List.mem_cons_self valid inactive child alive name
  · exact List.forall_mem_cons.mpr ⟨inv.below srv List.mem_cons_self, inv.ownersBelow⟩

/-- `RunServer` on an entry without a process keeps the invariant, if `fork` succeeds. -/
theorem Inv.runServer {answers : Answers} {clock : Nat} {srv srv' : Server}
    (inv : Inv next (srv :: servers) children) (idle : srv.pid ≤ 0)
    (forks : answers.fork srv.serial ≠ none)
    (ran : Nanny.runServer answers clock srv children = some (srv', children')) :
    Inv next (srv' :: servers) children' := by
  have listed := inv.toListed.runServer idle ran
  rw [Nanny.runServer] at ran
  split at ran
  next =>
    obtain ⟨rfl, rfl⟩ := Prod.mk.inj (Option.some.inj ran)
    exact inv
  next startable =>
    obtain ⟨dead, valid⟩ := not_or.mp startable
    have status : srv.status = .dead := not_not.mp dead
    have inactive : ¬srv.Active := by
      rw [Server.Active, status]
      decide
    split at ran
    next =>
      obtain ⟨rfl, rfl⟩ := Prod.mk.inj (Option.some.inj ran)
      exact inv
    next =>
      simp only at ran
      split at ran
      next =>
        obtain ⟨rfl, rfl⟩ := Prod.mk.inj (Option.some.inj ran)
        refine inv.adjust (Marks.refl _) (.cons ⟨⟨rfl, rfl, rfl, id⟩, ?_, ?_, ?_, ?_⟩
          (Adjusts.refl _ _))
        · rintro (running | stopped)
          · cases running
          · cases stopped
        · exact fun _ active => absurd active inactive
        · exact fun _ invalid => absurd invalid valid
        · exact fun _ unreasoned => by cases unreasoned
      next =>
        cases result : answers.fork srv.serial with
        | none => exact absurd result forks
        | some pid =>
            simp only [result] at ran
            split at ran
            next =>
              obtain ⟨rfl, rfl⟩ := Prod.mk.inj (Option.some.inj ran)
              exact inv.start listed (Bool.not_eq_false _ ▸ valid) inactive idle rfl rfl rfl rfl
                (Bool.not_eq_false _ ▸ valid)
            next => cases ran

/-- A dead child is collected, and the entry with its number, if there is one, is told. -/
theorem Inv.collect (inv : Inv next servers children) (dead : Int) (retcode : Nat) :
    Inv next (servers.map (told dead retcode)) (children.map (collected dead)) := by
  have kept : ∀ d ∈ children, d.Unreaped → d.pid ≠ dead → ∀ srv ∈ servers,
      srv.serial = d.owner → told dead retcode srv = srv := by
    intro d child unreaped other srv member owner
    refine told_of_ne ?_ retcode
    rw [(inv.owned d child unreaped srv member owner).1]
    exact other
  refine ⟨inv.toListed.collect dead retcode, ?_, ?_, ?_, ?_, ?_, ?_, ?_⟩
  · refine List.forall_mem_map.mpr fun d child still => List.forall_mem_map.mpr fun srv member => ?_
    obtain ⟨pid, own, name, _, unreaped, _⟩ := collected_spec dead d
    obtain ⟨unreaped, other⟩ := unreaped.mp still
    rw [(told_spec dead retcode srv).1, own, pid, name]
    intro owner
    rw [kept d child unreaped other srv member owner]
    exact inv.owned d child unreaped srv member owner
  · refine List.forall_mem_map.mpr fun d child still unsent => ?_
    obtain ⟨_, own, _, sent, unreaped, _⟩ := collected_spec dead d
    obtain ⟨unreaped, other⟩ := unreaped.mp still
    obtain ⟨srv, member, owner, active⟩ := inv.loose d child unreaped (sent ▸ unsent)
    refine ⟨srv, ?_, owner.trans own.symm, active⟩
    exact List.mem_map.mpr ⟨srv, member, kept d child unreaped other srv member owner⟩
  · refine List.forall_mem_map.mpr fun srv member active => ?_
    have same := (told_eq_self (Or.inr active)).2
    rw [same] at active ⊢
    exact inv.active srv member active
  · refine List.forall_mem_map.mpr fun a member => List.forall_mem_map.mpr fun b member' => ?_
    obtain ⟨_, basis', valid'⟩ := told_spec dead retcode b
    intro invalid active
    have same := (told_eq_self (Or.inr active)).2
    rw [same] at invalid active ⊢
    rw [basis', valid']
    exact inv.dropped a member b member' invalid active
  · refine List.forall_mem_map.mpr fun srv member unreasoned => ?_
    rw [told] at unreasoned ⊢
    split at unreasoned
    next hit =>
      rw [if_pos hit]
      exact Or.inr ((noteDeath_spec retcode srv).2.2.2.2.2 (inv.reasons srv member) unreasoned)
    next miss =>
      rw [if_neg miss]
      exact inv.reasons srv member unreasoned
  · refine List.pairwise_map.mpr (inv.once.imp fun {newer older} superseded name first second => ?_)
    obtain ⟨_, _, named, sent, _, alive⟩ := collected_spec dead older
    obtain ⟨_, _, named', _, _, alive'⟩ := collected_spec dead newer
    rw [named, named'] at name
    rw [sent]
    exact superseded name (alive first) (alive' second)
  · refine List.forall_mem_map.mpr fun d child => ?_
    rw [(collected_spec dead d).2.1]
    exact inv.ownersBelow d child

/-! ## Configurations -/

/-- Entries that no longer exist become invalid, whatever their processes do. -/
theorem Inv.invalidate (inv : Inv next servers children) (names : List String) :
    Inv next (invalidate names servers) children := by
  show Inv next (servers.map (withdrawn names)) children
  have same : ∀ srv, (withdrawn names srv).serial = srv.serial ∧
      (withdrawn names srv).basis = srv.basis ∧ (withdrawn names srv).pid = srv.pid ∧
      ((withdrawn names srv).Active ↔ srv.Active) ∧ (withdrawn names srv).status = srv.status ∧
      (withdrawn names srv).reason = srv.reason := by
    intro srv
    obtain ⟨_, valid, given⟩ := withdrawn_spec names srv
    rw [given]
    exact ⟨rfl, rfl, rfl, Iff.rfl, rfl, rfl⟩
  refine ⟨inv.toListed.invalidate names, ?_, ?_, ?_, ?_, ?_, inv.once, inv.ownersBelow⟩
  · refine fun c child unreaped => List.forall_mem_map.mpr fun srv member => ?_
    rw [(same srv).1, (same srv).2.1, (same srv).2.2.1]
    exact inv.owned c child unreaped srv member
  · intro c child unreaped unsent
    obtain ⟨srv, member, owner, active⟩ := inv.loose c child unreaped unsent
    exact ⟨_, List.mem_map_of_mem member, (same srv).1.trans owner, (same srv).2.2.2.1.mpr active⟩
  · refine List.forall_mem_map.mpr fun srv member active => ?_
    rw [(same srv).2.2.1]
    exact inv.active srv member ((same srv).2.2.2.1.mp active)
  · refine List.forall_mem_map.mpr fun a member => List.forall_mem_map.mpr fun b member' => ?_
    rw [(same a).2.1, (same b).2.1]
    intro invalid active valid name
    obtain ⟨valid, listed⟩ := (withdrawn_spec names b).1.mp valid
    cases before : a.valid with
    | true =>
        have still := (withdrawn_spec names a).1.mpr ⟨before, name ▸ listed⟩
        exact absurd (still.symm.trans invalid) (by decide)
    | false =>
        exact inv.dropped a member b member' before ((same a).2.2.2.1.mp active) valid name
  · refine List.forall_mem_map.mpr fun srv member => ?_
    rw [(same srv).2.2.2.1, (same srv).2.2.2.2.1, (same srv).2.2.2.2.2]
    exact inv.reasons srv member

theorem Inv.weaken (inv : Inv next servers children) : Inv (next + 1) servers children :=
  { inv with
    toListed := inv.toListed.later
    ownersBelow := fun c child => Nat.lt_succ_of_lt (inv.ownersBelow c child) }

/-- A new entry is queued; those of its name that are in the list are neither valid nor
active. -/
theorem Inv.queueTail (inv : Inv next servers children) (clock : Nat) (basis : Basis)
    (valid : Bool) (unused : ∀ srv ∈ servers, srv.basis.name = basis.name →
      srv.valid = false ∧ ¬srv.Active) :
    Inv (next + 1) (servers ++ [newSrv next clock basis valid]) children := by
  have inactive : ¬(newSrv next clock basis valid).Active := fun active => active.elim nofun nofun
  have listed := inv.toListed.queueTail clock basis valid fun srv member name =>
    (unused srv member name).1
  refine Inv.perm ?_ (List.perm_append_singleton _ _).symm
  refine ⟨listed.perm (List.perm_append_singleton _ _), ?_, ?_, ?_, ?_, ?_, inv.once,
    inv.weaken.ownersBelow⟩
  · refine fun c child unreaped => List.forall_mem_cons.mpr
      ⟨fun owner => ?_, inv.owned c child unreaped⟩
    exact absurd (inv.ownersBelow c child) (owner ▸ Nat.lt_irrefl _)
  · intro c child unreaped unsent
    obtain ⟨srv, member, rest⟩ := inv.loose c child unreaped unsent
    exact ⟨srv, List.mem_cons_of_mem _ member, rest⟩
  · exact List.forall_mem_cons.mpr ⟨fun active => absurd active inactive, inv.active⟩
  · refine List.forall_mem_cons.mpr ⟨fun b member _ active => absurd active inactive, ?_⟩
    refine fun a member => List.forall_mem_cons.mpr ⟨fun _ active _ name => ?_, inv.dropped a member⟩
    exact (unused a member name).2 active
  · exact List.forall_mem_cons.mpr ⟨fun _ => Or.inr rfl, inv.reasons⟩

/-- Every entry of a name that is still to be loaded is valid. -/
def Current (names : List String) (servers : List Server) : Prop :=
  ∀ srv ∈ servers, srv.basis.name ∈ names → srv.valid = true

/-- One entry of the new list is loaded. -/
theorem Inv.addServer {st : State} {entry : Basis × Bool} {names : List String}
    (inv : Inv st.nextSerial st.servers st.children)
    (current : Current (entry.1.name :: names) st.servers) (new : entry.1.name ∉ names) :
    Inv (Nanny.addServer st entry).nextSerial (Nanny.addServer st entry).servers
        (Nanny.addServer st entry).children ∧ Current names (Nanny.addServer st entry).servers := by
  have later : Current names st.servers :=
    fun srv member listed => current srv member (List.mem_cons_of_mem _ listed)
  have added : ∀ {servers}, Current names servers →
      Current names (servers ++ [newSrv st.nextSerial st.clock entry.1 entry.2]) := by
    intro servers before srv member listed
    rcases List.mem_append.mp member with member | member
    · exact before srv member listed
    · rw [List.mem_singleton.mp member] at listed
      exact absurd listed new
  simp only [Nanny.addServer]
  cases found : fetchSrv entry.1.name st.servers with
  | none =>
      refine ⟨inv.queueTail st.clock entry.1 entry.2 fun srv member name => ?_, added later⟩
      have differs := List.find?_eq_none.mp found srv member
      exact absurd name (by simpa using differs)
  | some oldsrv =>
      obtain ⟨member, name⟩ := fetchSrv_mem found
      have valid : oldsrv.valid = true :=
        current oldsrv member (name ▸ List.mem_cons_self)
      simp only
      split
      next =>
        obtain ⟨marks, adjusted⟩ := killSrv_harmless .operator oldsrv st.children
        have killed : ¬(killSrv .operator oldsrv st.children).1.Active := by
          have off (s : Server) (status : s.status = .killed) : ¬s.Active := by
            rw [Server.Active, status]
            decide
          rw [killSrv, comKillSrv, if_neg (by rw [valid]; decide)]
          split
          · exact off _ rfl
          · split <;> exact off _ rfl
        have withdrawn : Adjusted (killSrv .operator oldsrv st.children).2 oldsrv
            { (killSrv .operator oldsrv st.children).1 with valid := false } :=
          ⟨⟨adjusted.serial, adjusted.basis, adjusted.pid, fun valid => by cases valid⟩, adjusted.active, adjusted.gone,
            fun _ _ => killed, adjusted.reasons⟩
        have after := inv.adjust marks (inv.adjusts_replace member withdrawn)
        constructor
        · refine after.queueTail st.clock entry.1 entry.2 fun srv found' named => ?_
          obtain ⟨old, before, rfl⟩ := List.mem_map.mp found'
          by_cases own : old.serial = (killSrv .operator oldsrv st.children).1.serial
          · rw [if_pos own]
            exact ⟨rfl, killed⟩
          · rw [if_neg own] at named
            have listed : old.basis.name ∈ entry.1.name :: names := named ▸ List.mem_cons_self
            have single := inv.single old before oldsrv member (current old before listed) valid
              (named.trans name.symm)
            exact absurd (single.trans adjusted.serial.symm) own
        · refine added fun srv found' listed => ?_
          obtain ⟨old, before, rfl⟩ := List.mem_map.mp found'
          by_cases own : old.serial = (killSrv .operator oldsrv st.children).1.serial
          · rw [if_pos own] at listed
            have named : oldsrv.basis.name ∈ names := adjusted.basis ▸ listed
            exact absurd (name ▸ named) new
          · rw [if_neg own] at listed ⊢
            exact later old before listed
      next => exact ⟨inv.weaken, later⟩

theorem Inv.addServers {newList : List (Basis × Bool)} {st : State}
    (inv : Inv st.nextSerial st.servers st.children)
    (distinct : (newList.map fun entry => entry.1.name).Nodup)
    (current : Current (newList.map fun entry => entry.1.name) st.servers) :
    Inv (newList.foldl Nanny.addServer st).nextSerial (newList.foldl Nanny.addServer st).servers
      (newList.foldl Nanny.addServer st).children := by
  induction newList generalizing st with
  | nil => exact inv
  | cons entry rest ih =>
      obtain ⟨new, distinct⟩ := List.nodup_cons.mp distinct
      obtain ⟨inv', current'⟩ := inv.addServer current new
      exact ih inv' distinct current'

theorem Inv.checkCnfg {st : State} {newList : List (Basis × Bool)}
    (inv : Inv st.nextSerial st.servers st.children)
    (regular : Regular st (.checkCnfg newList)) :
    Inv (Nanny.checkCnfg newList st).nextSerial (Nanny.checkCnfg newList st).servers
      (Nanny.checkCnfg newList st).children := by
  rw [Nanny.checkCnfg]
  split
  next => exact inv
  next =>
    refine Inv.addServers (inv.invalidate _) regular.1 ?_
    refine List.forall_mem_map.mpr fun srv member listed => ?_
    obtain ⟨iff, valid, given⟩ :=
      withdrawn_spec (newList.map fun entry => entry.1.name) srv
    have listed' : srv.basis.name ∈ newList.map fun entry => entry.1.name := by
      have kept : (withdrawn (newList.map fun entry => entry.1.name) srv).basis = srv.basis := by
        rw [given]
      exact kept ▸ listed
    obtain ⟨entry, entered, name⟩ := List.mem_map.mp listed'
    exact iff.mpr ⟨regular.2 entry entered srv member name.symm, listed'⟩

/-! ## Runs -/

theorem start_inv (clock : Nat) : Inv 0 (start clock).servers (start clock).children :=
  ⟨⟨List.nodup_nil, nofun, .nil, nofun, nofun, nofun⟩, nofun, nofun, nofun, nofun, nofun, .nil, nofun⟩

theorem inv_lasting : Lasting (fun answers => ∀ serial, answers.fork serial ≠ none) Inv where
  listed := Inv.toListed
  adjust := Inv.adjust
  perm := Inv.perm
  free := Inv.free
  runServer := fun forks inv idle => inv.runServer idle (forks _)
  collect := Inv.collect

/-- In every run of regular steps each server runs at most once, and a valid entry without a
process is dead, unless it was withdrawn. -/
theorem runsOnce_of_regular {st : State} (reached : machine.Reachable Regular st) :
    RunsOnce (fun _ => True) st := by
  refine Inv.runsOnce
    (reached.invariant (P := fun st => Inv st.nextSerial st.servers st.children) ?_ ?_)
  · rintro _ ⟨clock, rfl⟩
    exact start_inv clock
  · intro st label st' inv regular stepped
    refine inv_lasting.step inv ?_ ?_ stepped
    · rintro answers rfl
      exact regular
    · rintro newList rfl
      exact inv.checkCnfg regular

/-- A server with one file. -/
def logger : Basis := ⟨"logger", ["/etc/logger"], ["/etc/logger"], ["root"], ["system"], [], 0⟩

/-- All files are there and `fork` returns the number. -/
def allThere (pid : Int) : Answers := ⟨fun _ => true, fun _ => some pid⟩

/-- A server is loaded and started, its configuration changes, and it is started again. -/
def updatedRun : List Label :=
  [.checkCnfg [(logger, true)], .lifeChecks (allThere 10),
    .checkCnfg [({ logger with nice := 5 }, true)], .lifeChecks (allThere 11)]

theorem runsOnce_updatedRun :
    ∃ st, machine.run (start 1000) updatedRun = some st ∧
      (st.children.map fun c => (c.pid, c.sentKill)) = [(11, false), (10, true)] ∧
      RunsOnce (fun _ => True) st := by
  obtain ⟨st, ran, children⟩ : ∃ st, machine.run (start 1000) updatedRun = some st ∧
      (st.children.map fun c => (c.pid, c.sentKill)) = [(11, false), (10, true)] :=
    ⟨_, rfl, rfl⟩
  have meets : machine.Meets Regular (start 1000) updatedRun :=
    ⟨⟨by decide, nofun⟩, nofun, ⟨by decide, by decide⟩, nofun, trivial⟩
  exact ⟨st, ran, children, runsOnce_of_regular (.of_run updatedRun (.init ⟨1000, rfl⟩) ran meets)⟩

/-- The server's child has been collected, and neither an operator nor an exit code has
withdrawn it; but its file is gone when it is to be started again, and it is given up. -/
def fileGoneRun : List Label :=
  [.checkCnfg [(logger, true)], .lifeChecks (allThere 10), .exits 10 0, .checkDeaths [10],
    .pass RESTARTMAX, .lifeChecks ⟨fun _ => false, fun _ => some 11⟩]

theorem given_up_without_file :
    ∃ st, machine.run (start 1000) fileGoneRun = some st ∧
      ¬RunsOnce (fun reason => reason = .operator ∨ reason = .exitCode) st := by
  refine ⟨_, rfl, fun once => ?_⟩
  have dead := once.restarted _ List.mem_cons_self rfl ?_ ?_
  · exact absurd dead nofun
  · refine List.forall_mem_singleton.mpr fun _ unreaped => unreaped rfl
  · rintro _ ⟨⟩
    decide

end MachFormal.Nanny
