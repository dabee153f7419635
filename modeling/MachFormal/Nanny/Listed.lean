import Mathlib.Data.List.Forall2
import Mathlib.Data.List.Pairwise
import MachFormal.Nanny.Servers

/-!
# The list of servers and the table of processes

The entries of the list have serial numbers of their own, an entry with a process number has
a child that was not collected, and no two valid entries have the same name.  Whatever the nanny
does keeps this, and what it does to an entry is told by what the entry is before and after.
-/

namespace MachFormal.Nanny

open MachFormal.Library

/-- The entry is taken to have a process. -/
def Server.Active (srv : Server) : Prop := srv.status = .running ∨ srv.status = .stopped

instance (srv : Server) : Decidable srv.Active := inferInstanceAs (Decidable (_ ∨ _))

/-- The child has not been collected by `wait3`. -/
def Child.Unreaped (c : Child) : Prop := c.life ≠ .reaped

instance (c : Child) : Decidable c.Unreaped := inferInstanceAs (Decidable (_ ≠ _))

/-- Two children that were not collected have different numbers. -/
def Apart (a b : Child) : Prop := a.Unreaped → b.Unreaped → a.pid ≠ b.pid

instance : Std.Symm Apart := ⟨fun _ _ apart first second same => apart second first same.symm⟩

/-- Serial numbers are given out below `next`. -/
structure Listed (next : Nat) (servers : List Server) (children : List Child) : Prop where
  serials : (servers.map Server.serial).Nodup
  below : ∀ srv ∈ servers, srv.serial < next
  apart : children.Pairwise Apart
  pids : ∀ c ∈ children, 3 ≤ c.pid
  held : ∀ srv ∈ servers, 0 < srv.pid →
    ∃ c ∈ children, c.owner = srv.serial ∧ c.pid = srv.pid ∧ c.Unreaped
  single : ∀ srv ∈ servers, ∀ other ∈ servers, srv.valid = true → other.valid = true →
    srv.basis.name = other.basis.name → srv.serial = other.serial

variable {next : Nat} {servers servers' : List Server} {children children' : List Child}

namespace Listed

theorem eq_of_serial (listed : Listed next servers children) {srv other : Server}
    (member : srv ∈ servers) (member' : other ∈ servers) (same : srv.serial = other.serial) :
    srv = other :=
  List.inj_on_of_nodup_map listed.serials member member' same

theorem child_eq (listed : Listed next servers children) {a b : Child} (first : a ∈ children)
    (second : b ∈ children) (unreaped : a.Unreaped) (unreaped' : b.Unreaped)
    (same : a.pid = b.pid) : a = b := by
  by_contra differ
  exact listed.apart.forall first second differ unreaped unreaped' same

theorem eq_of_pid (listed : Listed next servers children) {srv other : Server}
    (member : srv ∈ servers) (member' : other ∈ servers) (positive : 0 < srv.pid)
    (same : srv.pid = other.pid) : srv = other := by
  obtain ⟨c, child, owner, pid, unreaped⟩ := listed.held srv member positive
  obtain ⟨d, child', owner', pid', unreaped'⟩ := listed.held other member' (same ▸ positive)
  have equal := listed.child_eq child child' unreaped unreaped' (by rw [pid, pid', same])
  exact listed.eq_of_serial member member' (by rw [← owner, ← owner', equal])

theorem perm (listed : Listed next servers children) (perm : servers.Perm servers') :
    Listed next servers' children where
  serials := (perm.map _).nodup_iff.mp listed.serials
  below := fun srv member => listed.below srv (perm.mem_iff.mpr member)
  apart := listed.apart
  pids := listed.pids
  held := fun srv member => listed.held srv (perm.mem_iff.mpr member)
  single := fun srv member other member' =>
    listed.single srv (perm.mem_iff.mpr member) other (perm.mem_iff.mpr member')

theorem free {srv : Server} (listed : Listed next (srv :: servers) children) :
    Listed next servers children where
  serials := (List.nodup_cons.mp listed.serials).2
  below := fun other member => listed.below other (List.mem_cons_of_mem srv member)
  apart := listed.apart
  pids := listed.pids
  held := fun other member => listed.held other (List.mem_cons_of_mem srv member)
  single := fun a member b member' =>
    listed.single a (List.mem_cons_of_mem srv member) b (List.mem_cons_of_mem srv member')

theorem later (listed : Listed next servers children) : Listed (next + 1) servers children :=
  { listed with below := fun srv member => Nat.lt_succ_of_lt (listed.below srv member) }

end Listed

theorem fetchSrv_mem {name : String} {srv : Server} (found : fetchSrv name servers = some srv) :
    srv ∈ servers ∧ srv.basis.name = name := by
  rw [fetchSrv] at found
  exact ⟨List.mem_of_find?_eq_some found, by simpa using List.find?_some found⟩

/-! ## Signals -/

/-- A child as before, or exited, or sent `SIGKILL`. -/
structure Marked (c c' : Child) : Prop where
  pid : c'.pid = c.pid
  owner : c'.owner = c.owner
  name : c'.name = c.name
  unreaped : c'.Unreaped ↔ c.Unreaped
  alive : c'.life = .alive → c.life = .alive
  sentKill : c.sentKill = true → c'.sentKill = true

/-- The children after signals and exits. -/
def Marks (children children' : List Child) : Prop :=
  ∃ mark : Child → Child, (∀ c, Marked c (mark c)) ∧ children' = children.map mark

/-- The process with this number has been sent `SIGKILL`, if it exists. -/
def Gone (pid : Int) (children : List Child) : Prop :=
  ∀ c ∈ children, c.pid = pid → c.Unreaped → c.sentKill = true

theorem Marked.refl (c : Child) : Marked c c := ⟨rfl, rfl, rfl, Iff.rfl, id, id⟩

theorem Marked.trans {a b c : Child} (first : Marked a b) (second : Marked b c) : Marked a c where
  pid := second.pid.trans first.pid
  owner := second.owner.trans first.owner
  name := second.name.trans first.name
  unreaped := second.unreaped.trans first.unreaped
  alive := first.alive ∘ second.alive
  sentKill := second.sentKill ∘ first.sentKill

theorem Marks.refl (children : List Child) : Marks children children :=
  ⟨id, Marked.refl, (List.map_id children).symm⟩

theorem Marks.trans {middle : List Child} (first : Marks children middle)
    (second : Marks middle children') : Marks children children' := by
  obtain ⟨mark, marked, rfl⟩ := first
  obtain ⟨mark', marked', rfl⟩ := second
  exact ⟨mark' ∘ mark, fun c => (marked c).trans (marked' _), List.map_map⟩

theorem Gone.marks {pid : Int} (gone : Gone pid children) (marks : Marks children children') :
    Gone pid children' := by
  obtain ⟨mark, marked, rfl⟩ := marks
  intro c' member same unreaped
  obtain ⟨c, child, rfl⟩ := List.mem_map.mp member
  have kept := marked c
  exact kept.sentKill (gone c child (kept.pid ▸ same) (kept.unreaped.mp unreaped))

theorem sendKill_marks (pid : Int) (children : List Child) :
    Marks children (sendKill pid children) := by
  refine ⟨_, fun c => ?_, rfl⟩
  split
  · exact ⟨rfl, rfl, rfl, Iff.rfl, id, fun _ => rfl⟩
  · exact Marked.refl c

theorem sendKill_gone (pid : Int) (children : List Child) : Gone pid (sendKill pid children) := by
  intro c' member same unreaped
  obtain ⟨c, child, rfl⟩ := List.mem_map.mp member
  split at same
  next hit => rw [if_pos hit]
  next miss =>
    rw [if_neg miss] at unreaped
    exact absurd ⟨same, unreaped⟩ miss

/-- A process that exits is marked so. -/
theorem exits_marks (pid : Int) (retcode : Nat) (children : List Child) :
    Marks children (children.map fun c =>
      if c.pid = pid ∧ c.life = .alive then { c with life := .exited retcode } else c) := by
  refine ⟨_, fun c => ?_, rfl⟩
  split
  next hit =>
    exact ⟨rfl, rfl, rfl, iff_of_true nofun (by rw [Child.Unreaped, hit.2]; decide), nofun, id⟩
  next => exact Marked.refl c

/-! ## Changes of status -/

/-- The entry is the same one, with its profile and its process, and not valid again. -/
structure Kept (srv srv' : Server) : Prop where
  serial : srv'.serial = srv.serial
  basis : srv'.basis = srv.basis
  pid : srv'.pid = srv.pid
  valid : srv'.valid = true → srv.valid = true

/-- Its process is sent `SIGKILL` when the entry is not active any more. -/
structure Adjusted (children : List Child) (srv srv' : Server) : Prop extends Kept srv srv' where
  active : srv'.Active → srv.Active
  gone : 3 ≤ srv.pid → srv.Active → ¬srv'.Active → Gone srv.pid children
  withdrawn : srv.valid = true → srv'.valid = false → ¬srv'.Active
  reasons : (srv.reason = none → srv.Active ∨ srv.status = .dead) →
    srv'.reason = none → srv'.Active ∨ srv'.status = .dead

/-- The entries after changes of status, place by place. -/
def Adjusts (children : List Child) : List Server → List Server → Prop :=
  List.Forall₂ (Adjusted children)

theorem Kept.refl (srv : Server) : Kept srv srv := ⟨rfl, rfl, rfl, id⟩

theorem Adjusted.refl (srv : Server) : Adjusted children srv srv :=
  ⟨Kept.refl srv, id, fun _ active inactive => absurd active inactive,
    fun valid invalid => absurd (valid.symm.trans invalid) (by decide), id⟩

theorem Adjusted.marks {srv srv' : Server} (adjusted : Adjusted children srv srv')
    (marks : Marks children children') : Adjusted children' srv srv' :=
  { adjusted with
    gone := fun range active inactive => (adjusted.gone range active inactive).marks marks }

/-- Setting the time of a server's files leaves it adjusted. -/
theorem Adjusted.setTim {srv srv' : Server} (tim : Nat)
    (adjusted : Adjusted children { srv with tim := tim } srv') : Adjusted children srv srv' :=
  ⟨⟨adjusted.serial, adjusted.basis, adjusted.pid, adjusted.valid⟩, adjusted.active,
    adjusted.gone, adjusted.withdrawn, adjusted.reasons⟩

theorem Adjusted.trans {a b c : Server} (first : Adjusted children a b)
    (second : Adjusted children b c) : Adjusted children a c where
  serial := second.serial.trans first.serial
  basis := second.basis.trans first.basis
  pid := second.pid.trans first.pid
  active := first.active ∘ second.active
  gone := by
    intro range active inactive
    by_cases middle : b.Active
    · rw [← first.pid] at range ⊢
      exact second.gone range middle inactive
    · exact first.gone range active middle
  valid := first.valid ∘ second.valid
  withdrawn := by
    intro valid invalid
    cases middle : b.valid with
    | true => exact second.withdrawn middle invalid
    | false => exact fun active => first.withdrawn valid middle (second.active active)
  reasons := fun before => second.reasons (first.reasons before)

theorem Adjusts.refl (children : List Child) (servers : List Server) :
    Adjusts children servers servers :=
  List.forall₂_same.mpr fun srv _ => Adjusted.refl srv

section Places

variable {R : Server → Server → Prop}

theorem exists_before (all : List.Forall₂ R servers servers') {srv' : Server}
    (member : srv' ∈ servers') : ∃ srv ∈ servers, R srv srv' := by
  obtain ⟨i, inside, rfl⟩ := List.mem_iff_getElem.mp member
  have inside' : i < servers.length := all.length_eq ▸ inside
  exact ⟨_, List.getElem_mem inside', all.get inside' inside⟩

theorem exists_after (all : List.Forall₂ R servers servers') {srv : Server}
    (member : srv ∈ servers) : ∃ srv' ∈ servers', R srv srv' := by
  obtain ⟨i, inside, rfl⟩ := List.mem_iff_getElem.mp member
  have inside' : i < servers'.length := all.length_eq ▸ inside
  exact ⟨_, List.getElem_mem inside', all.get inside inside'⟩

end Places

namespace Listed

theorem of_kept (listed : Listed next servers children) (marks : Marks children children')
    (kept : List.Forall₂ Kept servers servers') : Listed next servers' children' := by
  obtain ⟨mark, marked, rfl⟩ := marks
  have serials : servers'.map Server.serial = servers.map Server.serial := by
    induction kept with
    | nil => rfl
    | cons one _ ih => rw [List.map_cons, List.map_cons, one.serial, ih listed.free]
  refine ⟨serials ▸ listed.serials, ?_, ?_, ?_, ?_, ?_⟩
  · intro srv' member
    obtain ⟨srv, member, one⟩ := exists_before kept member
    exact one.serial ▸ listed.below srv member
  · refine List.pairwise_map.mpr (listed.apart.imp fun {a b} apart first second => ?_)
    rw [(marked a).pid, (marked b).pid]
    exact apart ((marked a).unreaped.mp first) ((marked b).unreaped.mp second)
  · refine List.forall_mem_map.mpr fun c child => ?_
    rw [(marked c).pid]
    exact listed.pids c child
  · intro srv' member positive
    obtain ⟨srv, member, one⟩ := exists_before kept member
    rw [one.pid] at positive
    obtain ⟨c, child, owner, pid, unreaped⟩ := listed.held srv member positive
    refine ⟨mark c, List.mem_map_of_mem child, ?_, ?_, (marked c).unreaped.mpr unreaped⟩
    · rw [(marked c).owner, one.serial, owner]
    · rw [(marked c).pid, one.pid, pid]
  · intro a member b member' valid valid' name
    obtain ⟨a₀, member, one⟩ := exists_before kept member
    obtain ⟨b₀, member', one'⟩ := exists_before kept member'
    rw [one.serial, one'.serial]
    rw [one.basis, one'.basis] at name
    exact listed.single a₀ member b₀ member' (one.valid valid) (one'.valid valid') name

theorem adjust (listed : Listed next servers children) (marks : Marks children children')
    (adjusts : Adjusts children' servers servers') : Listed next servers' children' :=
  listed.of_kept marks (adjusts.imp fun _ _ one => one.toKept)

/-- One entry of the list is adjusted and written back. -/
theorem adjusts_replace (listed : Listed next servers children) {srv srv' : Server}
    (member : srv ∈ servers) (adjusted : Adjusted children' srv srv') :
    Adjusts children' servers (replace srv' servers) := by
  refine List.forall₂_map_right_iff.mpr (List.forall₂_same.mpr fun old found => ?_)
  split
  next same =>
    rw [listed.eq_of_serial found member (same.trans adjusted.serial)]
    exact adjusted
  next => exact Adjusted.refl old

theorem mem_replace (listed : Listed next servers children) {srv srv' other : Server}
    (member : srv ∈ servers) (serial : srv'.serial = srv.serial) :
    other ∈ replace srv' servers ↔ other = srv' ∨ other ∈ servers ∧ other ≠ srv := by
  rw [replace, List.mem_map]
  constructor
  · rintro ⟨old, found, rfl⟩
    split
    next => exact .inl rfl
    next differs => exact .inr ⟨found, fun same => differs (same ▸ serial.symm)⟩
  · rintro (rfl | ⟨found, differs⟩)
    · exact ⟨srv, member, if_pos serial.symm⟩
    · refine ⟨other, found, if_neg fun same => differs ?_⟩
      exact listed.eq_of_serial found member (same.trans serial)

end Listed

/-! ## Routines that send signals -/

/-- A routine that may change the entry and send signals does no harm. -/
def Harmless (children : List Child) (srv : Server) (result : Server × List Child) : Prop :=
  Marks children result.2 ∧ Adjusted result.2 srv result.1

theorem Harmless.refl (children : List Child) (srv : Server) :
    Harmless children srv (srv, children) :=
  ⟨Marks.refl _, Adjusted.refl _⟩

/-- `com_kill_srv` marks the entry as not running, and its process is sent the signal. -/
theorem comKillSrv_harmless {newstat : Status} {reason : Option Reason}
    (inactive : newstat = .killed ∨ newstat = .dead) (reasoned : reason = none → newstat = .dead)
    (srv : Server) (children : List Child) :
    Harmless children srv (comKillSrv newstat reason srv children) := by
  have marked : ∀ children', (3 ≤ srv.pid → srv.Active → Gone srv.pid children') →
      Adjusted children' srv { srv with resttim := 0, status := newstat, reason := reason } := by
    intro children' gone
    have off : ¬({ srv with resttim := 0, status := newstat, reason := reason } : Server).Active := by
      rintro (running | stopped)
      · rcases inactive with rfl | rfl <;> exact absurd running nofun
      · rcases inactive with rfl | rfl <;> exact absurd stopped nofun
    exact ⟨⟨rfl, rfl, rfl, id⟩, fun active => absurd active off,
      fun range active _ => gone range active, fun _ _ => off,
      fun _ unreasoned => Or.inr (reasoned unreasoned)⟩
  rw [comKillSrv]
  split
  next => exact Harmless.refl _ _
  next =>
    split
    next idle =>
      refine ⟨Marks.refl _, marked children fun _ active => ?_⟩
      rcases active with running | stopped
      · exact absurd running idle.1
      · exact absurd stopped idle.2
    next =>
      split
      next low => exact ⟨Marks.refl _, marked children fun range => absurd range (Int.not_le.mpr low)⟩
      next => exact ⟨sendKill_marks _ _, marked _ fun _ _ => sendKill_gone _ _⟩

theorem killSrv_harmless (reason : Reason) (srv : Server) (children : List Child) :
    Harmless children srv (killSrv reason srv children) :=
  @comKillSrv_harmless .killed (some reason) (Or.inl rfl) nofun srv children

theorem restartSrv_harmless (srv : Server) (children : List Child) :
    Harmless children srv (restartSrv srv children) :=
  comKillSrv_harmless (Or.inr rfl) (fun _ => rfl) srv children

/-- Between running and stopped the entry keeps its process. -/
theorem adjusted_of_active {srv : Server} {status : Status} (active : srv.Active)
    (still : status = .running ∨ status = .stopped) :
    Adjusted children srv { srv with status := status } :=
  ⟨⟨rfl, rfl, rfl, id⟩, fun _ => active, fun _ _ inactive => absurd still inactive,
    fun valid invalid => absurd (valid.symm.trans invalid) (by decide), fun _ _ => Or.inl still⟩

theorem stopSrv_adjusted (sent : Bool) (srv : Server) :
    Adjusted children srv (stopSrv sent srv) := by
  rw [stopSrv]
  split
  next => exact Adjusted.refl srv
  next =>
    split
    next => exact Adjusted.refl srv
    next running =>
      split
      · exact Adjusted.refl srv
      · exact adjusted_of_active (Or.inl (not_not.mp running)) (Or.inr rfl)

theorem contSrv_adjusted (sent : Bool) (srv : Server) :
    Adjusted children srv (contSrv sent srv) := by
  rw [contSrv]
  split
  next => exact Adjusted.refl srv
  next =>
    split
    next => exact Adjusted.refl srv
    next stopped =>
      split
      · exact Adjusted.refl srv
      · exact adjusted_of_active (Or.inr (not_not.mp stopped)) (Or.inl rfl)

theorem Request.harmless (request : Request) (srv : Server) (children : List Child) :
    Harmless children srv (request.apply srv children) := by
  cases request with
  | kill => exact killSrv_harmless _ srv children
  | restart => exact restartSrv_harmless srv children
  | stop sent => exact ⟨Marks.refl _, stopSrv_adjusted sent srv⟩
  | cont sent => exact ⟨Marks.refl _, contSrv_adjusted sent srv⟩

/-- `killAll` adjusts every entry. -/
theorem killAll_harmless (servers : List Server) (children : List Child) :
    Marks children (killAll servers children).2 ∧
      Adjusts (killAll servers children).2 servers (killAll servers children).1 := by
  induction servers generalizing children with
  | nil => exact ⟨Marks.refl _, .nil⟩
  | cons srv rest ih =>
      have first : Harmless children srv
          (if srv.valid then killSrv .operator srv children else (srv, children)) := by
        split
        · exact killSrv_harmless _ srv children
        · exact Harmless.refl _ _
      obtain ⟨marks, adjusted⟩ := first
      obtain ⟨marks', adjusts⟩ :=
        ih (if srv.valid then killSrv .operator srv children else (srv, children)).2
      exact ⟨marks.trans marks', .cons (adjusted.marks marks') adjusts⟩

/-- What `ck_depend` does to one server does no harm. -/
theorem ckDependOne_harmless (lastMod : String → Option Nat) (srv : Server)
    (children : List Child) : Harmless children srv
      ((ckDependOne lastMod srv children).1, (ckDependOne lastMod srv children).2.1) := by
  rw [ckDependOne]
  split
  next =>
    cases latestChange lastMod srv.basis.runfile 0 with
    | mk tim checked =>
        have first : Harmless children srv
            (if checked then (srv, children) else killSrv .dependency srv children) := by
          split
          · exact Harmless.refl _ _
          · exact killSrv_harmless _ srv children
        simp only
        cases result : (if checked then (srv, children) else killSrv .dependency srv children) with
        | mk srv' children' =>
            rw [result] at first
            obtain ⟨marks, adjusted⟩ := first
            simp only
            split
            next =>
              obtain ⟨marks', adjusted'⟩ := restartSrv_harmless { srv' with tim := tim } children'
              exact ⟨marks.trans marks', (adjusted.marks marks').trans (adjusted'.setTim tim)⟩
            next => exact ⟨marks, adjusted⟩
  next => exact Harmless.refl _ _

theorem ckDepend_harmless (lastMod : String → Option Nat) (servers : List Server)
    (children : List Child) : Marks children (ckDepend lastMod servers children).2 ∧
      Adjusts (ckDepend lastMod servers children).2 servers
        (ckDepend lastMod servers children).1 := by
  induction servers generalizing children with
  | nil => exact ⟨Marks.refl _, .nil⟩
  | cons srv rest ih =>
      have first := ckDependOne_harmless lastMod srv children
      rw [ckDepend]
      cases result : ckDependOne lastMod srv children with
      | mk srv' rest' =>
          obtain ⟨children', on⟩ := rest'
          rw [result] at first
          obtain ⟨marks, adjusted⟩ := first
          cases on with
          | true =>
              obtain ⟨marks', adjusts⟩ := ih children'
              exact ⟨marks.trans marks', .cons (adjusted.marks marks') adjusts⟩
          | false => exact ⟨marks, .cons adjusted (Adjusts.refl _ _)⟩

/-! ## Starts -/

section Starts

variable {srv srv' : Server} {answers : Answers} {clock : Nat}

theorem runServer_same (ran : runServer answers clock srv children = some (srv', children')) :
    srv'.serial = srv.serial ∧ srv'.basis = srv.basis ∧ srv'.valid = srv.valid := by
  rw [runServer] at ran
  split at ran
  · obtain ⟨rfl, rfl⟩ := Prod.mk.inj (Option.some.inj ran)
    exact ⟨rfl, rfl, rfl⟩
  split at ran
  · obtain ⟨rfl, rfl⟩ := Prod.mk.inj (Option.some.inj ran)
    exact ⟨rfl, rfl, rfl⟩
  dsimp only at ran
  split at ran
  · obtain ⟨rfl, rfl⟩ := Prod.mk.inj (Option.some.inj ran)
    exact ⟨rfl, rfl, rfl⟩
  split at ran
  · obtain ⟨rfl, rfl⟩ := Prod.mk.inj (Option.some.inj ran)
    exact ⟨rfl, rfl, rfl⟩
  split at ran
  · obtain ⟨rfl, rfl⟩ := Prod.mk.inj (Option.some.inj ran)
    exact ⟨rfl, rfl, rfl⟩
  · cases ran

/-- What `RunServer` does: nothing to the children, or one of them is new. -/
theorem runServer_pid (idle : srv.pid ≤ 0)
    (ran : runServer answers clock srv children = some (srv', children')) :
    srv'.pid ≤ 0 ∧ children' = children ∨
      (3 ≤ srv'.pid ∧ ∀ c ∈ children, c.pid = srv'.pid → c.life = .reaped) ∧
        children' = ⟨srv'.pid, srv.serial, srv.basis.name, .alive, false⟩ :: children := by
  rw [runServer] at ran
  split at ran
  · obtain ⟨rfl, rfl⟩ := Prod.mk.inj (Option.some.inj ran)
    exact .inl ⟨idle, rfl⟩
  split at ran
  · obtain ⟨rfl, rfl⟩ := Prod.mk.inj (Option.some.inj ran)
    exact .inl ⟨idle, rfl⟩
  dsimp only at ran
  split at ran
  · obtain ⟨rfl, rfl⟩ := Prod.mk.inj (Option.some.inj ran)
    exact .inl ⟨idle, rfl⟩
  split at ran
  · obtain ⟨rfl, rfl⟩ := Prod.mk.inj (Option.some.inj ran)
    exact .inl ⟨show (-1 : Int) ≤ 0 by decide, rfl⟩
  split at ran
  next possible =>
    obtain ⟨rfl, rfl⟩ := Prod.mk.inj (Option.some.inj ran)
    exact .inr ⟨possible, rfl⟩
  · cases ran

theorem Listed.runServer (listed : Listed next (srv :: servers) children) (idle : srv.pid ≤ 0)
    (ran : runServer answers clock srv children = some (srv', children')) :
    Listed next (srv' :: servers) children' := by
  obtain ⟨serial, basis, valid⟩ := runServer_same ran
  have serials : ((srv' :: servers).map Server.serial).Nodup := by
    rw [List.map_cons, serial]
    exact listed.serials
  have below : ∀ other ∈ srv' :: servers, other.serial < next := by
    refine List.forall_mem_cons.mpr ⟨?_, listed.free.below⟩
    exact serial ▸ listed.below srv List.mem_cons_self
  have single : ∀ a ∈ srv' :: servers, ∀ b ∈ srv' :: servers, a.valid = true → b.valid = true →
      a.basis.name = b.basis.name → a.serial = b.serial := by
    have own := listed.single
    simp only [List.forall_mem_cons] at own ⊢
    rw [serial, basis, valid]
    exact own
  rcases runServer_pid idle ran with ⟨still, rfl⟩ | ⟨⟨range, fresh⟩, rfl⟩
  · refine ⟨serials, below, listed.apart, listed.pids, ?_, single⟩
    exact List.forall_mem_cons.mpr ⟨fun positive => absurd positive (by omega), listed.free.held⟩
  · refine ⟨serials, below, ?_, List.forall_mem_cons.mpr ⟨range, listed.pids⟩, ?_, single⟩
    · refine List.pairwise_cons.mpr ⟨fun c child _ unreaped same => ?_, listed.apart⟩
      exact unreaped (fresh c child same.symm)
    · refine List.forall_mem_cons.mpr ⟨fun _ => ?_, fun other member positive => ?_⟩
      · exact ⟨_, List.mem_cons_self, serial.symm, rfl, fun dead => by cases dead⟩
      · obtain ⟨c, child, rest⟩ := listed.free.held other member positive
        exact ⟨c, List.mem_cons_of_mem _ child, rest⟩

end Starts

/-! ## Deaths -/

/-- The entry after the death of its process. -/
theorem noteDeath_spec (retcode : Nat) (srv : Server) :
    (noteDeath retcode srv).serial = srv.serial ∧ (noteDeath retcode srv).basis = srv.basis ∧
      (noteDeath retcode srv).pid = -1 ∧ (noteDeath retcode srv).valid = srv.valid ∧
      ¬(noteDeath retcode srv).Active ∧
      ((srv.reason = none → srv.Active ∨ srv.status = .dead) →
        (noteDeath retcode srv).reason = none → (noteDeath retcode srv).status = .dead) := by
  rw [noteDeath]
  by_cases code : retcode = 2
  · simp only [code, if_true]
    refine ⟨?_, ?_, ?_, ?_, fun active => active.elim nofun nofun, fun _ => nofun⟩
    all_goals split <;> rfl
  · simp only [code, if_false]
    split
    next => exact ⟨rfl, rfl, rfl, rfl, fun active => active.elim nofun nofun, fun _ _ => rfl⟩
    next inactive =>
      refine ⟨rfl, rfl, rfl, rfl, inactive, fun before unreasoned => ?_⟩
      exact (before unreasoned).resolve_left inactive

/-- What becomes of an entry when the process `pid` is dead. -/
def told (pid : Int) (retcode : Nat) (srv : Server) : Server :=
  if srv.pid = pid then noteDeath retcode srv else srv

/-- What becomes of a child when the process `pid` is collected. -/
def collected (pid : Int) (c : Child) : Child :=
  if c.pid = pid ∧ c.life ≠ .reaped then { c with life := .reaped } else c

theorem told_spec (pid : Int) (retcode : Nat) (srv : Server) :
    (told pid retcode srv).serial = srv.serial ∧ (told pid retcode srv).basis = srv.basis ∧
      (told pid retcode srv).valid = srv.valid := by
  rw [told]
  split
  · obtain ⟨serial, basis, _, valid, _⟩ := noteDeath_spec retcode srv
    exact ⟨serial, basis, valid⟩
  · exact ⟨rfl, rfl, rfl⟩

theorem told_of_ne {pid : Int} {srv : Server} (other : srv.pid ≠ pid) (retcode : Nat) :
    told pid retcode srv = srv := if_neg other

/-- An entry that still has a process, or is active, was not told. -/
theorem told_eq_self {pid : Int} {retcode : Nat} {srv : Server}
    (unaffected : 0 < (told pid retcode srv).pid ∨ (told pid retcode srv).Active) :
    srv.pid ≠ pid ∧ told pid retcode srv = srv := by
  by_cases hit : srv.pid = pid
  · obtain ⟨_, _, number, _, inactive, _⟩ := noteDeath_spec retcode srv
    rw [told, if_pos hit] at unaffected
    rcases unaffected with positive | active
    · rw [number] at positive
      exact absurd positive (by decide)
    · exact absurd active inactive
  · exact ⟨hit, if_neg hit⟩

theorem collected_spec (pid : Int) (c : Child) :
    (collected pid c).pid = c.pid ∧ (collected pid c).owner = c.owner ∧
      (collected pid c).name = c.name ∧ (collected pid c).sentKill = c.sentKill ∧
      ((collected pid c).Unreaped ↔ c.Unreaped ∧ c.pid ≠ pid) ∧
      ((collected pid c).life = .alive → c.life = .alive) := by
  rw [collected]
  split
  next hit =>
    refine ⟨rfl, rfl, rfl, rfl, iff_of_false (fun un => un rfl) (fun un => un.2 hit.1), nofun⟩
  next miss =>
    refine ⟨rfl, rfl, rfl, rfl, ⟨fun un => ⟨un, fun same => miss ⟨same, un⟩⟩, fun un => un.1⟩, id⟩

namespace Listed

/-- The entry with the number of an uncollected child is the only one. -/
theorem findDeath_eq {c : Child} (listed : Listed next servers children) (child : c ∈ children)
    (retcode : Nat) : findDeath c.pid retcode servers = servers.map (told c.pid retcode) := by
  have positive : 0 < c.pid := Int.lt_of_lt_of_le (by decide) (listed.pids c child)
  rw [findDeath]
  cases found : servers.find? fun srv => srv.pid = c.pid with
  | none =>
      refine (List.map_id servers).symm.trans (List.map_congr_left fun srv member => ?_)
      have other := List.find?_eq_none.mp found srv member
      exact (told_of_ne (by simpa using other) retcode).symm
  | some srv =>
      have member := List.mem_of_find?_eq_some found
      have number : srv.pid = c.pid := by simpa using List.find?_some found
      refine List.map_congr_left fun old member' => ?_
      obtain ⟨serial, _⟩ := noteDeath_spec retcode srv
      by_cases same : old.serial = srv.serial
      · rw [listed.eq_of_serial member' member same, if_pos serial.symm, told, if_pos number]
      · have other : old.pid ≠ c.pid := fun given =>
          same (congrArg _ (listed.eq_of_pid member' member (given ▸ positive)
            (given.trans number.symm)))
        rw [if_neg (fun given => same (given.trans serial)), told_of_ne other]

/-- A dead child is collected, and the entry with its number, if there is one, is told. -/
theorem collect (listed : Listed next servers children) (pid : Int) (retcode : Nat) :
    Listed next (servers.map (told pid retcode)) (children.map (collected pid)) := by
  refine ⟨?_, ?_, ?_, ?_, ?_, ?_⟩
  · rw [List.map_map]
    refine (List.map_congr_left fun srv _ => ?_) ▸ listed.serials
    exact ((told_spec pid retcode srv).1).symm
  · refine List.forall_mem_map.mpr fun srv member => ?_
    rw [(told_spec pid retcode srv).1]
    exact listed.below srv member
  · refine List.pairwise_map.mpr (listed.apart.imp fun {a b} apart first second => ?_)
    rw [(collected_spec pid a).1, (collected_spec pid b).1]
    exact apart ((collected_spec pid a).2.2.2.2.1.mp first).1
      ((collected_spec pid b).2.2.2.2.1.mp second).1
  · refine List.forall_mem_map.mpr fun d child => ?_
    rw [(collected_spec pid d).1]
    exact listed.pids d child
  · refine List.forall_mem_map.mpr fun srv member positive => ?_
    obtain ⟨other, same⟩ := told_eq_self (Or.inl positive)
    rw [same] at positive ⊢
    obtain ⟨d, child, owner, number, unreaped⟩ := listed.held srv member positive
    obtain ⟨same', own, _, _, still, _⟩ := collected_spec pid d
    refine ⟨_, List.mem_map_of_mem child, own.trans owner, same'.trans number, ?_⟩
    exact still.mpr ⟨unreaped, number.symm ▸ other⟩
  · refine List.forall_mem_map.mpr fun a member => List.forall_mem_map.mpr fun b member' => ?_
    obtain ⟨serial, basis, valid⟩ := told_spec pid retcode a
    obtain ⟨serial', basis', valid'⟩ := told_spec pid retcode b
    rw [serial, serial', basis, basis', valid, valid']
    exact listed.single a member b member'

end Listed

/-! ## Configurations -/

/-- What becomes of an entry when a configuration with these names is loaded. -/
def withdrawn (names : List String) (srv : Server) : Server :=
  if srv.valid = false then srv else { srv with valid := decide (srv.basis.name ∈ names) }

theorem withdrawn_spec (names : List String) (srv : Server) :
    ((withdrawn names srv).valid = true ↔ srv.valid = true ∧ srv.basis.name ∈ names) ∧
      ∃ valid, withdrawn names srv = { srv with valid := valid } := by
  rw [withdrawn]
  split
  next invalid =>
    refine ⟨iff_of_false ?_ fun both => ?_, srv.valid, rfl⟩
    · rw [invalid]
      decide
    · exact absurd (both.1.symm.trans invalid) (by decide)
  next valid =>
    refine ⟨?_, _, rfl⟩
    rw [decide_eq_true_iff, and_iff_right (Bool.not_eq_false _ ▸ valid)]

/-- Entries that no longer exist become invalid, whatever their processes do. -/
theorem Listed.invalidate (listed : Listed next servers children) (names : List String) :
    Listed next (invalidate names servers) children := by
  refine listed.of_kept (Marks.refl _) (List.forall₂_map_right_iff.mpr
    (List.forall₂_same.mpr fun srv _ => ?_))
  obtain ⟨valid, _, given⟩ := withdrawn_spec names srv
  change Kept srv (withdrawn names srv)
  refine ⟨?_, ?_, ?_, fun still => (valid.mp still).1⟩
  all_goals rw [given]

/-- A new entry is queued; those of its name that are in the list are not valid. -/
theorem Listed.queueTail (listed : Listed next servers children) (clock : Nat) (basis : Basis)
    (valid : Bool) (unused : ∀ srv ∈ servers, srv.basis.name = basis.name → srv.valid = false) :
    Listed (next + 1) (servers ++ [newSrv next clock basis valid]) children := by
  refine Listed.perm ?_ (List.perm_append_singleton _ _).symm
  refine ⟨?_, ?_, listed.apart, listed.pids, ?_, ?_⟩
  · refine List.nodup_cons.mpr ⟨fun member => ?_, listed.serials⟩
    obtain ⟨srv, member, serial⟩ := List.mem_map.mp member
    exact absurd (listed.below srv member) (serial ▸ Nat.lt_irrefl _)
  · exact List.forall_mem_cons.mpr ⟨Nat.lt_succ_self _, listed.later.below⟩
  · exact List.forall_mem_cons.mpr
      ⟨fun positive => absurd positive (show ¬(0 : Int) < -1 by decide), listed.held⟩
  · refine List.forall_mem_cons.mpr ⟨?_, fun a member => ?_⟩
    · refine List.forall_mem_cons.mpr ⟨fun _ _ _ => rfl, fun b member _ validB name => ?_⟩
      exact absurd (validB.symm.trans (unused b member name.symm)) (by decide)
    · refine List.forall_mem_cons.mpr ⟨fun validA _ name => ?_, listed.single a member⟩
      exact absurd (validA.symm.trans (unused a member name)) (by decide)

/-! ## What holds over runs -/

/-- What the nanny keeps between two configurations, if the answers of the system to `LifeChecks`
are of a kind. -/
structure Lasting (answered : Answers → Prop)
    (P : Nat → List Server → List Child → Prop) : Prop where
  listed : ∀ {next servers children}, P next servers children → Listed next servers children
  adjust : ∀ {next servers servers' children children'}, P next servers children →
    Marks children children' → Adjusts children' servers servers' → P next servers' children'
  perm : ∀ {next servers servers' children}, P next servers children → servers.Perm servers' →
    P next servers' children
  free : ∀ {next srv servers children}, P next (srv :: servers) children → ¬srv.Active →
    P next servers children
  runServer : ∀ {next srv srv' servers children children' answers clock}, answered answers →
    P next (srv :: servers) children → srv.pid ≤ 0 →
    runServer answers clock srv children = some (srv', children') → P next (srv' :: servers) children'
  collect : ∀ {next servers children}, P next servers children → ∀ pid retcode,
    P next (servers.map (told pid retcode)) (children.map (collected pid))

theorem listed_lasting : Lasting (fun _ => True) Listed where
  listed := id
  adjust := Listed.adjust
  perm := Listed.perm
  free := fun listed _ => listed.free
  runServer := fun _ => Listed.runServer
  collect := Listed.collect

namespace Lasting

variable {answered : Answers → Prop} {P : Nat → List Server → List Child → Prop}
  {answers : Answers} {st st' : State}

/-- The loop of `LifeChecks`; `kept` are the entries it has queued. -/
theorem lifeLoop (lasting : Lasting answered P) {clock : Nat} {rest rest' kept : List Server}
    (given : answered answers) (holds : P next (rest ++ kept) children)
    (ran : lifeLoop answers clock rest children = some (rest', children')) :
    P next (rest' ++ kept) children' := by
  induction rest generalizing kept children rest' with
  | nil =>
      obtain ⟨rfl, rfl⟩ := Prod.mk.inj (Option.some.inj ran)
      exact holds
  | cons srv rest ih =>
      -- an entry that stays is queued behind the others
      have queued {srv' : Server} {children₁ : List Child} {rest₁ : List Server}
          (holds' : P next (srv' :: (rest ++ kept)) children₁)
          (mapped : (Nanny.lifeLoop answers clock rest children₁).map
            (fun result => (srv' :: result.1, result.2)) = some (rest₁, children')) :
          P next (rest₁ ++ kept) children' := by
        obtain ⟨⟨rest₂, children₂⟩, looped, same⟩ := Option.map_eq_some_iff.mp mapped
        obtain ⟨rfl, rfl⟩ := Prod.mk.inj same
        exact lasting.perm (ih (lasting.perm holds' List.perm_middle.symm) looped) List.perm_middle
      rw [Nanny.lifeLoop] at ran
      split at ran
      · split at ran
        next idle =>
          obtain ⟨⟨srv', children₁⟩, started, ran⟩ := Option.bind_eq_some_iff.mp ran
          exact queued (lasting.runServer given holds idle started) ran
        next => exact queued holds ran
      · split at ran
        next =>
          obtain ⟨marks, adjusted⟩ := killSrv_harmless .operator srv children
          exact queued (lasting.adjust holds marks (.cons adjusted (Adjusts.refl _ _))) ran
        next inactive => exact ih (lasting.free holds inactive) ran

theorem lifeChecks (lasting : Lasting answered P) (holds : P st.nextSerial st.servers st.children)
    (given : answered answers) (ran : lifeChecks answers st = some st') :
    P st'.nextSerial st'.servers st'.children := by
  rw [Nanny.lifeChecks] at ran
  split at ran
  · obtain rfl := Option.some.inj ran
    exact holds
  · obtain ⟨⟨servers, children⟩, looped, rfl⟩ := Option.map_eq_some_iff.mp ran
    rw [← List.append_nil st.servers] at holds
    have after := lasting.lifeLoop given holds looped
    rw [List.append_nil] at after
    exact after

theorem reap (lasting : Lasting answered P) {pid : Int}
    (holds : P st.nextSerial st.servers st.children) (ran : reap pid st = some st') :
    P st'.nextSerial st'.servers st'.children := by
  rw [Nanny.reap] at ran
  cases found : st.children.find? fun c => c.pid = pid ∧ c.life ≠ .reaped with
  | none =>
      rw [found] at ran
      cases ran
  | some c =>
      simp only [found] at ran
      have child : c ∈ st.children := List.mem_of_find?_eq_some found
      obtain ⟨rfl, _⟩ : c.pid = pid ∧ ¬c.life = .reaped := by simpa using List.find?_some found
      split at ran
      next retcode _ =>
        obtain rfl := Option.some.inj ran
        change P _ (findDeath c.pid retcode st.servers) (st.children.map (collected c.pid))
        rw [(lasting.listed holds).findDeath_eq child]
        exact lasting.collect holds c.pid retcode
      · cases ran

theorem checkDeaths (lasting : Lasting answered P) {pids : List Int}
    (holds : P st.nextSerial st.servers st.children) (ran : checkDeaths pids st = some st') :
    P st'.nextSerial st'.servers st'.children := by
  induction pids generalizing st with
  | nil =>
      obtain rfl := Option.some.inj ran
      exact holds
  | cons pid rest ih =>
      obtain ⟨middle, reaped, ran⟩ := Option.bind_eq_some_iff.mp ran
      exact ih (lasting.reap holds reaped) ran

/-- It is kept by every step, if it is by loading a configuration. -/
theorem step (lasting : Lasting answered P) {label : Label}
    (holds : P st.nextSerial st.servers st.children)
    (given : ∀ answers, label = .lifeChecks answers → answered answers)
    (loads : ∀ newList, label = .checkCnfg newList → P (checkCnfg newList st).nextSerial
      (checkCnfg newList st).servers (checkCnfg newList st).children)
    (stepped : step st label = some st') : P st'.nextSerial st'.servers st'.children := by
  cases label with
  | pass seconds =>
      obtain rfl := Option.some.inj stepped
      exact holds
  | exits pid retcode =>
      obtain rfl := Option.some.inj stepped
      exact lasting.adjust holds (exits_marks pid retcode st.children) (Adjusts.refl _ _)
  | request request name =>
      obtain rfl := Option.some.inj stepped
      rw [rcvReq]
      split
      · exact holds
      next srv found =>
        obtain ⟨marks, adjusted⟩ := request.harmless srv st.children
        exact lasting.adjust holds marks
          ((lasting.listed holds).adjusts_replace (fetchSrv_mem found).1 adjusted)
  | die =>
      obtain rfl := Option.some.inj stepped
      obtain ⟨marks, adjusts⟩ := killAll_harmless st.servers st.children
      exact lasting.adjust holds marks adjusts
  | checkCnfg newList =>
      obtain rfl := Option.some.inj stepped
      exact loads newList rfl
  | ckDepend lastMod =>
      obtain rfl := Option.some.inj stepped
      obtain ⟨marks, adjusts⟩ := ckDepend_harmless lastMod st.servers st.children
      exact lasting.adjust holds marks adjusts
  | checkDeaths pids => exact lasting.checkDeaths holds stepped
  | lifeChecks answers => exact lasting.lifeChecks holds (given answers rfl) stepped

end Lasting

end MachFormal.Nanny
