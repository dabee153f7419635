import Mathlib.Data.List.Chain
import Mathlib.Data.List.Nodup
import MachFormal.Sup.Scan

/-!
# No update is lost between upgrades

A change made after the scan of one upgrade has read the file must be listed as new by
the first later upgrade whose scan reads the file after the change. The program decides
newness by comparing the time of the last change with the scan time of the upgrade before,
so a change is safe exactly as long as it is later than that time. It need not be: the
comparison is strict, the clock counts whole seconds, and the time is the one the last
release of the chain happened to leave, not the earliest.

`InTime` says of a step that no change falls into that gap; then nothing is lost.
-/

namespace MachFormal.Sup.Scan

open Library Library.ChangeLog

section Property

variable {ρ ν : Type} [DecidableEq ρ] [DecidableEq ν]

/-- The time the scan gives for a name, if it lists it. -/
def Scanned.entry (sc : Scanned ρ ν) (n : ν) : Option Nat := (sc.snapshot n).bind Sight.ctime

/-- One of the scans read the file at this point. -/
def ReadsAt (scans : List (Scanned ρ ν)) (f : File ρ ν) (position : Nat) : Prop :=
  ∃ sc ∈ scans, sc.release = f.1 ∧ ∃ ctime, sc.snapshot f.2 = some ⟨position, ctime⟩

/-- The release whose file a name stands for: the last one scanned that lists it. -/
def supplier (scans : List (Scanned ρ ν)) (n : ν) : Option (Scanned ρ ν) :=
  scans.find? fun sc => (sc.entry n).isSome

/-- The name stands for this file and for no other release's. -/
def Supplies (scans : List (Scanned ρ ν)) (f : File ρ ν) : Prop :=
  ∃ sc, supplier scans f.2 = some sc ∧ sc.release = f.1

/-- The list has the name with `FNEW`, so that the client asks for it whatever it has. -/
def Requested (list : Listing ν) (n : ν) : Prop :=
  ∃ t, list n = some t ∧ t.isNew = true ∧
    ∀ cfall cfold update, needone cfall cfold t.isNew update = true

/-- Of any two upgrades: a change made after the scan of the first had read the file, and
before the scan of the second did, is requested by the second, if no upgrade between them
has read the file after the change. -/
def NoLoss (s : State ρ ν) : Prop :=
  ∀ after second between first before,
    s.done = after ++ second :: (between ++ first :: before) →
    ∀ i f t, s.log[i]? = some (f, t) →
      (∃ p, ReadsAt first.scans f p ∧ p ≤ i) →
      (∀ u ∈ between, ∀ p, ReadsAt u.scans f p → p ≤ i) →
      (∃ p, ReadsAt second.scans f p ∧ i < p) →
      Supplies second.scans f → Requested second.list f.2

/-! ## The condition -/

/-- The scan time a release would leave. -/
def scanTime (s : State ρ ν) (r : ρ) : Nat :=
  match s.scanfiles r with
  | some sf => sf.mtime
  | none => s.clock

/-- A file already read is not changed in the second that will stand for the scan. -/
def ChangeInTime (s : State ρ ν) (f : File ρ ν) : Prop :=
  (∀ up, s.upgrade = some up → (∃ p, ReadsAt up.listTL f p) → up.queue = [] →
    up.scantime < s.clock) ∧
  (∀ last, s.done.head? = some last → (∃ p, ReadsAt last.scans f p) →
    (∀ up, s.upgrade = some up → ∀ p, ¬ReadsAt up.listTL f p) → s.lasttime < s.clock)

/-- The last release of the chain does not leave a time that a change made since one of the
scans in use had read the file does not exceed. -/
def LastInTime (s : State ρ ν) (up : Upgrade ρ ν) (r : ρ) : Prop :=
  (∀ f p, ReadsAt up.listTL f p → ChangedAfter s.log f p (scanTime s r)) ∧
  (∀ sf, s.scanfiles r = some sf → ∀ n p ctime, sf.snapshot n = some ⟨p, ctime⟩ →
    ChangedAfter s.log (r, n) p sf.mtime)

/-- A scan file that is passed over because its time is the client's lists nothing newer. -/
def PassedOver (s : State ρ ν) (up : Upgrade ρ ν) (r : ρ) : Prop :=
  ∀ sf, s.scanfiles r = some sf → up.newonly = true → sf.mtime = up.lasttime →
    ∀ n ctime, sf.entry n = some ctime → ctime ≤ up.lasttime

/-- No change falls into the gap between what a scan read and the time that stands for it. -/
def InTime (s : State ρ ν) : Label ρ ν → Prop
  | .change f => ChangeInTime s f
  | .getscan => ∀ up r rest, s.upgrade = some up → up.queue = r :: rest →
      (rest = [] → LastInTime s up r) ∧ PassedOver s up r
  | _ => True

end Property

/-! ## Sights and scans -/

section Scans

variable {ρ ν : Type} [DecidableEq ρ] [DecidableEq ν] {C : Collection ρ ν}
  {log : List (File ρ ν × Nat)} {lasttime : Nat}

/-- A scan of a release comes to its names only, and saw of each what the log said then. -/
structure SnapshotOf (C : Collection ρ ν) (log : List (File ρ ν × Nat)) (r : ρ)
    (snapshot : Snapshot ν) : Prop where
  within : ∀ n p ctime, snapshot n = some ⟨p, ctime⟩ → n ∈ C.names r
  bounded : ∀ n p ctime, snapshot n = some ⟨p, ctime⟩ → p ≤ log.length
  sighted : ∀ n p ctime, snapshot n = some ⟨p, ctime⟩ → ctime = stamp C.base (log.take p) (r, n)

theorem SnapshotOf.empty (r : ρ) : SnapshotOf C log r (fun _ => none) :=
  ⟨fun _ _ _ h => absurd h nofun, fun _ _ _ h => absurd h nofun, fun _ _ _ h => absurd h nofun⟩

theorem SnapshotOf.append {r : ρ} {snapshot : Snapshot ν} (h : SnapshotOf C log r snapshot)
    (change : File ρ ν × Nat) : SnapshotOf C (log ++ [change]) r snapshot where
  within := h.within
  bounded n p ctime seen := by
    rw [List.length_append]
    exact Nat.le_add_right_of_le (h.bounded n p ctime seen)
  sighted n p ctime seen := by
    rw [List.take_append_of_le_length (h.bounded n p ctime seen)]
    exact h.sighted n p ctime seen

theorem update_some {κ β : Type} [DecidableEq κ] {table : κ → Option β} {key other : κ}
    {value : Option β} {found : β} (h : Function.update table key value other = some found) :
    other = key ∧ value = some found ∨ table other = some found := by
  by_cases same : other = key
  · subst same
    rw [Function.update_self] at h
    exact .inl ⟨rfl, h⟩
  · rw [Function.update_of_ne same] at h
    exact .inr h

theorem SnapshotOf.read {r : ρ} {snapshot : Snapshot ν} (h : SnapshotOf C log r snapshot) {n : ν}
    (listed : n ∈ C.names r) :
    SnapshotOf C log r
      (Function.update snapshot n (some ⟨log.length, stamp C.base log (r, n)⟩)) where
  within m p ctime found := by
    rcases update_some found with ⟨rfl, _⟩ | old
    · exact listed
    · exact h.within m p ctime old
  bounded m p ctime found := by
    rcases update_some found with ⟨_, now⟩ | old
    · exact Nat.le_of_eq (congrArg Sight.position (Option.some.inj now)).symm
    · exact h.bounded m p ctime old
  sighted m p ctime found := by
    rcases update_some found with ⟨rfl, now⟩ | old
    · obtain ⟨rfl, rfl⟩ := Sight.mk.inj (Option.some.inj now)
      rw [List.take_length]
    · exact h.sighted m p ctime old

/-- What is new by its time is marked as new in the tree of the release that supplies it. -/
def KeptAt (lasttime : Nat) (scans : List (Scanned ρ ν)) (n : ν) : Prop :=
  ∀ sc ctime, supplier scans n = some sc → sc.entry n = some ctime → lasttime < ctime →
    ∃ t, sc.tree n = some t ∧ t.isNew = true

/-- What holds of the scans of an upgrade; `last` is the upgrade before. -/
structure ScansOf (C : Collection ρ ν) (log : List (File ρ ν × Nat)) (lasttime : Nat)
    (last : Option (Record ρ ν)) (scans : List (Scanned ρ ν)) : Prop where
  snapshots : ∀ sc ∈ scans, SnapshotOf C log sc.release sc.snapshot
  grounded : ∀ sc ∈ scans, ∀ n, (sc.tree n).isSome → (sc.entry n).isSome
  since : ∀ u, last = some u → ∀ f p q, ReadsAt u.scans f p → ReadsAt scans f q →
    ∀ i t, p ≤ i → i < q → log[i]? = some (f, t) → lasttime < t
  kept : ∀ n, KeptAt lasttime scans n

omit [DecidableEq ρ] [DecidableEq ν] in
theorem readsAt_map_clearNew (old : ν → Bool) (scans : List (Scanned ρ ν)) (f : File ρ ν) (p : Nat) :
    ReadsAt (scans.map (Scanned.clearNew old)) f p ↔ ReadsAt scans f p := by
  constructor
  · rintro ⟨_, member, seen⟩
    obtain ⟨sc, inside, rfl⟩ := List.mem_map.mp member
    exact ⟨sc, inside, seen⟩
  · rintro ⟨sc, member, seen⟩
    exact ⟨sc.clearNew old, List.mem_map_of_mem member, seen⟩

omit [DecidableEq ρ] [DecidableEq ν] in
theorem readsAt_cons (sc : Scanned ρ ν) (scans : List (Scanned ρ ν)) (f : File ρ ν) (p : Nat) :
    ReadsAt (sc :: scans) f p ↔
      (sc.release = f.1 ∧ ∃ ctime, sc.snapshot f.2 = some ⟨p, ctime⟩) ∨ ReadsAt scans f p := by
  simp only [ReadsAt, List.mem_cons, exists_eq_or_imp]

omit [DecidableEq ρ] [DecidableEq ν] in
theorem supplier_map_clearNew (old : ν → Bool) (scans : List (Scanned ρ ν)) (n : ν) :
    supplier (scans.map (Scanned.clearNew old)) n =
      (supplier scans n).map (Scanned.clearNew old) := by
  rw [supplier, List.find?_map]
  rfl

omit [DecidableEq ρ] [DecidableEq ν] in
theorem map_clearNew_nothing (scans : List (Scanned ρ ν)) :
    scans.map (Scanned.clearNew fun _ => false) = scans :=
  (List.map_congr_left fun _ _ => rfl).trans (List.map_id scans)

omit [DecidableEq ρ] [DecidableEq ν] in
theorem map_release_clearNew (old : ν → Bool) (scans : List (Scanned ρ ν)) :
    (scans.map (Scanned.clearNew old)).map Scanned.release = scans.map Scanned.release := by
  rw [List.map_map]
  rfl

omit [DecidableEq ρ] [DecidableEq ν] in
theorem Scanned.isSome_clearNew (old : ν → Bool) (sc : Scanned ρ ν) (n : ν) :
    ((sc.clearNew old).tree n).isSome = (sc.tree n).isSome := by
  simp only [clearNew]
  split
  · rw [Option.isSome_map]
  · rfl

omit [DecidableEq ρ] [DecidableEq ν] in
theorem supplier_cons_of_lists {sc : Scanned ρ ν} {scans : List (Scanned ρ ν)} {n : ν}
    (lists : (sc.entry n).isSome) : supplier (sc :: scans) n = some sc :=
  List.find?_cons_of_pos lists

omit [DecidableEq ρ] [DecidableEq ν] in
theorem supplier_cons_of_not {sc : Scanned ρ ν} {scans : List (Scanned ρ ν)} {n : ν}
    (absent : ¬(sc.entry n).isSome) : supplier (sc :: scans) n = supplier scans n :=
  List.find?_cons_of_neg absent

/-- A scan is put before others. What it clears in them it lists itself, so they keep what
they still supply. -/
theorem ScansOf.cons {last : Option (Record ρ ν)} {sc : Scanned ρ ν} {scans : List (Scanned ρ ν)}
    {old : ν → Bool}
    (snapshots : ∀ x ∈ scans, SnapshotOf C log x.release x.snapshot)
    (grounded : ∀ x ∈ scans, ∀ n, (x.tree n).isSome → (x.entry n).isSome)
    (since : ∀ u, last = some u → ∀ f p q, ReadsAt u.scans f p → ReadsAt scans f q →
      ∀ i t, p ≤ i → i < q → log[i]? = some (f, t) → lasttime < t)
    (snapshot : SnapshotOf C log sc.release sc.snapshot)
    (ground : ∀ n, (sc.tree n).isSome → (sc.entry n).isSome)
    (sinceHead : ∀ u, last = some u → ∀ n p q ctime, ReadsAt u.scans (sc.release, n) p →
      sc.snapshot n = some ⟨q, ctime⟩ →
      ∀ i t, p ≤ i → i < q → log[i]? = some ((sc.release, n), t) → lasttime < t)
    (keptHead : ∀ n ctime, sc.entry n = some ctime → lasttime < ctime →
      ∃ t, sc.tree n = some t ∧ t.isNew = true)
    (keptTail : ∀ n, ¬(sc.entry n).isSome → KeptAt lasttime scans n)
    (clears : ∀ n, old n = true → (sc.entry n).isSome) :
    ScansOf C log lasttime last (sc :: scans.map (Scanned.clearNew old)) where
  snapshots x member := by
    rcases List.mem_cons.mp member with rfl | inside
    · exact snapshot
    · obtain ⟨y, mem, rfl⟩ := List.mem_map.mp inside
      exact snapshots y mem
  grounded x member n := by
    rcases List.mem_cons.mp member with rfl | inside
    · exact ground n
    · obtain ⟨y, mem, rfl⟩ := List.mem_map.mp inside
      rw [y.isSome_clearNew old]
      exact grounded y mem n
  since u before f p q first second := by
    rcases (readsAt_cons _ _ _ _).mp second with ⟨here, ctime, seen⟩ | later
    · obtain ⟨r, n⟩ := f
      obtain rfl : sc.release = r := here
      exact sinceHead u before n p q ctime first seen
    · exact since u before f p q first ((readsAt_map_clearNew old scans f q).mp later)
  kept n := by
    intro x ctime supplied entry newer
    by_cases lists : (sc.entry n).isSome
    · rw [supplier_cons_of_lists lists, Option.some.injEq] at supplied
      subst supplied
      exact keptHead n ctime entry newer
    · rw [supplier_cons_of_not lists, supplier_map_clearNew] at supplied
      obtain ⟨y, found, rfl⟩ := Option.map_eq_some_iff.mp supplied
      obtain ⟨t, here, isNew⟩ := keptTail n lists y ctime found entry newer
      refine ⟨t, ?_, isNew⟩
      have unchanged : old n = false := by
        by_contra cleared
        exact lists (clears n (by simpa using cleared))
      simpa only [Scanned.clearNew, unchanged, Bool.false_eq_true, if_false] using here

theorem ScansOf.append {last : Option (Record ρ ν)} {scans : List (Scanned ρ ν)}
    (h : ScansOf C log lasttime last scans) (change : File ρ ν × Nat) :
    ScansOf C (log ++ [change]) lasttime last scans where
  snapshots sc member := (h.snapshots sc member).append change
  grounded := h.grounded
  since u before f p q first second i t late early made := by
    obtain ⟨sc, member, _, ctime, seen⟩ := second
    have bound := (h.snapshots sc member).bounded _ _ _ seen
    rw [getElem?_append_of_lt (by omega)] at made
    exact h.since u before f p q first ⟨sc, member, ‹_›, ctime, seen⟩ i t late early made
  kept := h.kept

end Scans

/-! ## The invariant -/

section Invariant

variable {ρ ν : Type} [DecidableEq ρ] [DecidableEq ν] {C : Collection ρ ν}

/-- What holds of an upgrade in progress. -/
structure UpgradeOf (C : Collection ρ ν) (log : List (File ρ ν × Nat)) (lasttime : Nat)
    (last : Option (Record ρ ν)) (up : Upgrade ρ ν) : Prop where
  told : up.lasttime = lasttime
  order : (up.listTL.map Scanned.release).reverse ++ up.queue = C.releases
  scans : ScansOf C log lasttime last up.listTL
  earlier : ∀ sc ∈ up.listTL.tail, Complete C sc.release sc.snapshot
  complete : up.scanning = false → ∀ sc ∈ up.listTL, Complete C sc.release sc.snapshot
  late : up.queue = [] → ∀ f p, ReadsAt up.listTL f p → ChangedAfter log f p up.scantime

/-- What holds of an upgrade that is over: its scans read every name of the chain. -/
structure RecordOf (C : Collection ρ ν) (log : List (File ρ ν × Nat)) (u : Record ρ ν) : Prop where
  covers : ∀ f : File ρ ν, f.1 ∈ C.releases → f.2 ∈ C.names f.1 → ∃ p, ReadsAt u.scans f p
  within : ∀ f p, ReadsAt u.scans f p → f.1 ∈ C.releases ∧ f.2 ∈ C.names f.1 ∧ p ≤ log.length

/-- Nothing is lost between an upgrade and the one before it. -/
def PairSafe (log : List (File ρ ν × Nat)) (second first : Record ρ ν) : Prop :=
  ∀ f p q i t, ReadsAt first.scans f p → ReadsAt second.scans f q → p ≤ i → i < q →
    log[i]? = some (f, t) → Supplies second.scans f → Requested second.list f.2

/-- The invariant of every run in time. -/
structure Inv (C : Collection ρ ν) (s : State ρ ν) : Prop where
  ordered : Ordered s.log
  past : ∀ change ∈ s.log, change.2 ≤ s.clock
  scanfiles : ∀ r sf, s.scanfiles r = some sf →
    SnapshotOf C s.log r sf.snapshot ∧ Complete C r sf.snapshot
  supscans : ∀ pid p, s.supscans pid = some p → SnapshotOf C s.log p.release p.snapshot
  upgrade : ∀ up, s.upgrade = some up → UpgradeOf C s.log s.lasttime s.done.head? up
  records : ∀ u ∈ s.done, RecordOf C s.log u
  pairs : s.done.IsChain (PairSafe s.log)
  late : ∀ u, s.done.head? = some u → ∀ f p, ReadsAt u.scans f p →
    (∀ up, s.upgrade = some up → ∀ q, ¬ReadsAt up.listTL f q) →
    ChangedAfter s.log f p s.lasttime

theorem Inv.start (clock : Nat) : Inv C (start clock) where
  ordered := List.Pairwise.nil
  past _ member := absurd member List.not_mem_nil
  scanfiles _ _ h := absurd h nofun
  supscans _ _ h := absurd h nofun
  upgrade _ h := absurd h nofun
  records _ member := absurd member List.not_mem_nil
  pairs := .nil
  late _ h := absurd h nofun

theorem Inv.tick {s : State ρ ν} (inv : Inv C s) : Inv C { s with clock := s.clock + 1 } :=
  { inv with past := fun change member => Nat.le_succ_of_le (inv.past change member) }

omit [DecidableEq ρ] [DecidableEq ν] in
theorem PairSafe.append {log : List (File ρ ν × Nat)} {second first : Record ρ ν}
    (safe : PairSafe log second first)
    (bounded : ∀ f q, ReadsAt second.scans f q → q ≤ log.length) (change : File ρ ν × Nat) :
    PairSafe (log ++ [change]) second first := by
  intro f p q i t before after late early made
  have bound := bounded f q after
  rw [getElem?_append_of_lt (by omega)] at made
  exact safe f p q i t before after late early made

theorem Inv.change {s : State ρ ν} (inv : Inv C s) (f : File ρ ν) (inTime : ChangeInTime s f) :
    Inv C { s with log := s.log ++ [(f, s.clock)] } where
  ordered := inv.ordered.append inv.past f
  past change member := by
    rcases List.mem_append.mp member with old | new
    · exact inv.past change old
    · exact Nat.le_of_eq (congrArg Prod.snd (List.mem_singleton.mp new))
  scanfiles r sf h :=
    ⟨(inv.scanfiles r sf h).1.append _, (inv.scanfiles r sf h).2⟩
  supscans pid p h := (inv.supscans pid p h).append _
  upgrade up h := by
    have old := inv.upgrade up h
    refine ⟨old.told, old.order, old.scans.append _, old.earlier, old.complete, ?_⟩
    intro ended g p reads
    refine (old.late ended g p reads).append _ (fun same => ?_)
    obtain rfl : f = g := same
    exact inTime.1 up h ⟨p, reads⟩ ended
  records u member := by
    have old := inv.records u member
    refine ⟨old.covers, fun g p reads => ?_⟩
    obtain ⟨release, name, bound⟩ := old.within g p reads
    refine ⟨release, name, ?_⟩
    rw [List.length_append]
    exact Nat.le_add_right_of_le bound
  pairs := by
    refine inv.pairs.imp_of_mem_imp ?_
    intro second first member _ safe
    exact safe.append (fun g q reads => ((inv.records second member).within g q reads).2.2) _
  late u last g p reads unread := by
    refine (inv.late u last g p reads unread).append _ (fun same => ?_)
    obtain rfl : f = g := same
    exact inTime.2 u last ⟨p, reads⟩ unread

theorem Inv.supscanStart {s : State ρ ν} (inv : Inv C s) (pid : Nat) (r : ρ) :
    Inv C { s with
      supscans := Function.update s.supscans pid (some ⟨s.clock, r, fun _ => none⟩) } := by
  refine { inv with supscans := fun other p h => ?_ }
  rcases update_some h with ⟨_, new⟩ | old
  · obtain rfl := Option.some.inj new
    exact .empty r
  · exact inv.supscans other p old

theorem Inv.supscanRead {s s' : State ρ ν} (inv : Inv C s) {pid : Nat} {n : ν}
    (stepped : Scan.supscanRead C s pid n = some s') : Inv C s' := by
  rw [Scan.supscanRead] at stepped
  cases running : s.supscans pid with
  | none =>
      rw [running] at stepped
      exact absurd stepped nofun
  | some p =>
      rw [running] at stepped
      obtain ⟨⟨listed, _⟩, same⟩ := Option.ite_none_right_eq_some.mp stepped
      obtain rfl := Option.some.inj same
      refine { inv with supscans := fun other q h => ?_ }
      rcases update_some h with ⟨_, new⟩ | old
      · obtain rfl := Option.some.inj new
        exact (inv.supscans pid p running).read listed
      · exact inv.supscans other q old

theorem Inv.supscanWrite {s s' : State ρ ν} (inv : Inv C s) {pid : Nat} {next : Option ρ}
    (stepped : Scan.supscanWrite C s pid next = some s') : Inv C s' := by
  rw [Scan.supscanWrite] at stepped
  cases running : s.supscans pid with
  | none =>
      rw [running] at stepped
      exact absurd stepped nofun
  | some p =>
      rw [running] at stepped
      obtain ⟨whole, same⟩ := Option.ite_none_right_eq_some.mp stepped
      obtain rfl := Option.some.inj same
      refine { inv with scanfiles := fun r sf h => ?_, supscans := fun other q h => ?_ }
      · rcases update_some h with ⟨rfl, new⟩ | old
        · obtain rfl := Option.some.inj new
          exact ⟨inv.supscans pid p running, whole⟩
        · exact inv.scanfiles r sf old
      · rcases update_some h with ⟨_, new⟩ | old
        · obtain ⟨r, _, rfl⟩ := Option.map_eq_some_iff.mp new
          exact .empty r
        · exact inv.supscans other q old

theorem Inv.upgradeStart {s : State ρ ν} (inv : Inv C s) (idle : s.upgrade = none) (newonly : Bool) :
    Inv C { s with upgrade := some ⟨s.lasttime, newonly, C.releases, 0, [], false⟩ } := by
  refine { inv with upgrade := fun up h => ?_, late := fun u last f p reads _ => ?_ }
  · obtain rfl := Option.some.inj h
    refine ⟨rfl, rfl, ⟨nofun, nofun, ?_, ?_⟩, nofun, nofun, ?_⟩
    · rintro u _ f p q _ ⟨sc, member, _⟩
      exact absurd member List.not_mem_nil
    · intro n sc ctime supplied
      exact absurd supplied nofun
    · rintro _ f p ⟨sc, member, _⟩
      exact absurd member List.not_mem_nil
  · exact inv.late u last f p reads (fun up running => absurd (idle.symm.trans running) nofun)

theorem UpgradeOf.nodup {log : List (File ρ ν × Nat)} {lasttime : Nat} {last : Option (Record ρ ν)}
    {up : Upgrade ρ ν} (h : UpgradeOf C log lasttime last up) :
    (up.listTL.map Scanned.release).Nodup := by
  have whole := C.nodup
  rw [← h.order] at whole
  exact List.nodup_reverse.mp whole.of_append_left

theorem UpgradeOf.unread {log : List (File ρ ν × Nat)} {lasttime : Nat} {last : Option (Record ρ ν)}
    {up : Upgrade ρ ν} (h : UpgradeOf C log lasttime last up) {r : ρ} {rest : List ρ}
    (queued : up.queue = r :: rest) (n : ν) (q : Nat) : ¬ReadsAt up.listTL (r, n) q := by
  rintro ⟨sc, member, same, _⟩
  have whole := C.nodup
  rw [← h.order, queued] at whole
  have disjoint := List.disjoint_of_nodup_append whole
  refine disjoint (List.mem_reverse.mpr (List.mem_map_of_mem member)) ?_
  rw [show sc.release = r from same]
  exact List.mem_cons_self

omit [DecidableEq ρ] [DecidableEq ν] in
theorem getscanfile_eq (lasttime : Nat) (newonly : Bool) (r : ρ) (sf : ScanFile ν)
    (earlier : List (Scanned ρ ν)) :
    ∃ tree old, getscanfile lasttime newonly r sf earlier =
        ⟨r, sf.snapshot, tree⟩ :: earlier.map (Scanned.clearNew old) ∧
      (∀ n, (tree n).isSome → (sf.entry n).isSome) ∧
      (∀ n, old n = true → (sf.entry n).isSome) ∧
      ((newonly = true → sf.mtime = lasttime → ∀ n ctime, sf.entry n = some ctime → ctime ≤ lasttime) →
        ∀ n ctime, sf.entry n = some ctime → lasttime < ctime →
          ∃ t, tree n = some t ∧ t.isNew = true) := by
  rw [getscanfile]
  by_cases passed : (newonly && decide (sf.mtime = lasttime)) = true
  · obtain ⟨only, same⟩ := (Bool.and_eq_true _ _).mp passed
    refine ⟨fun _ => none, fun _ => false, ?_, nofun, nofun, ?_⟩
    · rw [if_pos passed, map_clearNew_nothing]
    · intro passedOver n ctime entry newer
      exact absurd (passedOver only (of_decide_eq_true same) n ctime entry) (Nat.not_le_of_lt newer)
  · refine ⟨sf.tree lasttime newonly, sf.notwanted lasttime newonly, by rw [if_neg passed], ?_, ?_, ?_⟩
    · intro n
      cases entry : sf.entry n with
      | none => simp [ScanFile.tree, entry]
      | some ctime => exact fun _ => rfl
    · intro n
      cases entry : sf.entry n with
      | none => simp [ScanFile.notwanted, entry]
      | some ctime => exact fun _ => rfl
    · intro _ n ctime entry newer
      exact ⟨⟨ctime, true⟩, by simp [ScanFile.tree, entry, newer], rfl⟩

theorem Inv.getscan {s s' : State ρ ν} (inv : Inv C s) (inTime : InTime s .getscan)
    (stepped : Scan.getscan s = some s') : Inv C s' := by
  rw [Scan.getscan] at stepped
  cases running : s.upgrade with
  | none =>
      rw [running] at stepped
      exact absurd stepped nofun
  | some up =>
      rw [running] at stepped
      have old := inv.upgrade up running
      obtain ⟨idle, stepped⟩ := Option.ite_none_left_eq_some.mp stepped
      cases queued : up.queue with
      | nil =>
          simp only [queued] at stepped
          exact absurd stepped nofun
      | cons r rest =>
          obtain ⟨lastIn, passedOver⟩ := inTime up r rest running queued
          have complete := old.complete (by simpa using idle)
          have unread := old.unread queued
          have order : (up.listTL.map Scanned.release).reverse ++ [r] ++ rest = C.releases := by
            rw [List.append_assoc, List.singleton_append, ← queued, old.order]
          -- nothing of the release has been read, so the last upgrade's time is still kept
          have sinceHead : ∀ u, s.done.head? = some u → ∀ n p q, ReadsAt u.scans (r, n) p →
              ∀ i t, p ≤ i → i < q → s.log[i]? = some ((r, n), t) → s.lasttime < t := by
            intro u last n p q reads i t late _ made
            refine inv.late u last (r, n) p reads ?_ i t late made
            intro up' same q'
            obtain rfl := Option.some.inj (running.symm.trans same)
            exact unread n q'
          cases scanned : s.scanfiles r with
          | some sf =>
              simp only [queued, scanned] at stepped
              obtain rfl := Option.some.inj stepped
              obtain ⟨tree, cleared, result, ground, clears, keptHead⟩ :=
                getscanfile_eq up.lasttime up.newonly r sf up.listTL
              have time : scanTime s r = sf.mtime := by rw [scanTime, scanned]
              refine { inv with upgrade := fun up' h => ?_, late := fun u last f p reads none => ?_ }
              · obtain rfl := Option.some.inj h
                obtain ⟨snapshot, whole⟩ := inv.scanfiles r sf scanned
                rw [old.told] at keptHead
                refine ⟨old.told, ?_, ?_, ?_, fun _ => ?_, fun ended f p reads => ?_⟩
                · simp only [result, List.map_cons, map_release_clearNew, List.reverse_cons, order]
                · rw [result]
                  refine .cons old.scans.snapshots old.scans.grounded old.scans.since snapshot
                    ground ?_ ?_ (fun n _ => old.scans.kept n) clears
                  · intro u last n p q _ reads _
                    exact sinceHead u last n p q reads
                  · exact keptHead (old.told ▸ passedOver sf scanned)
                · intro sc member
                  rw [result] at member
                  obtain ⟨x, inside, rfl⟩ := List.mem_map.mp member
                  exact complete x inside
                · intro sc member
                  rw [result] at member
                  rcases List.mem_cons.mp member with rfl | member
                  · exact whole
                  · obtain ⟨x, inside, rfl⟩ := List.mem_map.mp member
                    exact complete x inside
                · have ends := lastIn ended
                  rw [result] at reads
                  rcases (readsAt_cons _ _ _ _).mp reads with ⟨here, ctime, seen⟩ | before
                  · obtain ⟨r', n⟩ := f
                    obtain rfl : r = r' := here
                    exact ends.2 sf scanned n p ctime seen
                  · rw [readsAt_map_clearNew] at before
                    exact time ▸ ends.1 f p before
              · refine inv.late u last f p reads (fun up' same q earlier => ?_)
                obtain rfl := Option.some.inj (running.symm.trans same)
                refine none _ rfl q ?_
                rw [result]
                exact (readsAt_cons _ _ _ _).mpr (.inr ((readsAt_map_clearNew _ _ _ _).mpr earlier))
          | none =>
              simp only [queued, scanned] at stepped
              obtain rfl := Option.some.inj stepped
              have time : scanTime s r = s.clock := by rw [scanTime, scanned]
              refine { inv with upgrade := fun up' h => ?_, late := fun u last f p reads none => ?_ }
              · obtain rfl := Option.some.inj h
                refine ⟨old.told, ?_, ?_, fun sc member => complete sc member, nofun,
                  fun ended f p reads => ?_⟩
                · simp only [List.map_cons, List.reverse_cons, order]
                · rw [← map_clearNew_nothing up.listTL]
                  exact .cons old.scans.snapshots old.scans.grounded old.scans.since (.empty r)
                    nofun nofun nofun (fun n _ => old.scans.kept n) nofun
                · rcases (readsAt_cons _ _ _ _).mp reads with ⟨_, _, seen⟩ | before
                  · exact absurd seen nofun
                  · exact time ▸ (lastIn ended).1 f p before
              · refine inv.late u last f p reads (fun up' same q earlier => ?_)
                obtain rfl := Option.some.inj (running.symm.trans same)
                exact none _ rfl q ((readsAt_cons _ _ _ _).mpr (.inr earlier))

omit [DecidableEq ρ] in
/-- What reading one name does to the list: the head has a sight more, and its tree differs
at that name only. -/
theorem listentry_eq (lasttime : Nat) (newonly : Bool) (n : ν) (sight : Sight) (cur : Scanned ρ ν)
    (earlier : List (Scanned ρ ν)) (fresh : cur.tree n = none) :
    ∃ tree old,
      listentry lasttime newonly n sight (cur :: earlier) =
        ⟨cur.release, Function.update cur.snapshot n (some sight), tree⟩ ::
          earlier.map (Scanned.clearNew old) ∧
      (∀ m, m ≠ n → tree m = cur.tree m) ∧
      ((tree n).isSome → sight.ctime.isSome) ∧
      (∀ m, old m = true → m = n ∧ sight.ctime.isSome) ∧
      (∀ ctime, sight.ctime = some ctime → lasttime < ctime →
        ∃ t, tree n = some t ∧ t.isNew = true) := by
  rw [listentry]
  cases there : sight.ctime with
  | none =>
      refine ⟨cur.tree, fun _ => false, ?_, fun _ _ => rfl, ?_, nofun, nofun⟩
      · rw [map_clearNew_nothing]
        rfl
      · rw [fresh]
        exact fun h => absurd h nofun
  | some ctime =>
      simp only [sighted, listname]
      by_cases skipped : (newonly && !decide (lasttime < ctime)) = true
      · refine ⟨cur.tree, (· = n), by rw [if_pos skipped], fun _ _ => rfl, fun _ => rfl, ?_, ?_⟩
        · exact fun m same => ⟨of_decide_eq_true same, rfl⟩
        · intro c same newer
          obtain rfl := Option.some.inj same
          simp [newer] at skipped
      · refine ⟨Function.update cur.tree n (some ⟨ctime, lasttime < ctime⟩), fun _ => false, ?_,
          fun m other => Function.update_of_ne other _ _, fun _ => rfl, nofun, ?_⟩
        · rw [if_neg skipped, fresh, map_clearNew_nothing]
          rfl
        · intro c same newer
          obtain rfl := Option.some.inj same
          exact ⟨_, Function.update_self .., by simpa using newer⟩

theorem UpgradeOf.unread_head {log : List (File ρ ν × Nat)} {lasttime : Nat}
    {last : Option (Record ρ ν)} {up : Upgrade ρ ν} (h : UpgradeOf C log lasttime last up)
    {cur : Scanned ρ ν} {earlier : List (Scanned ρ ν)} (current : up.listTL = cur :: earlier) {n : ν}
    (fresh : cur.snapshot n = none) (q : Nat) : ¬ReadsAt up.listTL (cur.release, n) q := by
  have distinct := h.nodup
  rw [current, List.map_cons, List.nodup_cons] at distinct
  rw [current, readsAt_cons]
  rintro (⟨_, ctime, seen⟩ | ⟨sc, member, same, _⟩)
  · exact absurd (fresh.symm.trans seen) nofun
  · refine distinct.1 ?_
    rw [← show sc.release = cur.release from same]
    exact List.mem_map_of_mem member

theorem ScansOf.read {log : List (File ρ ν × Nat)} {lasttime : Nat} {last : Option (Record ρ ν)}
    {cur : Scanned ρ ν} {earlier : List (Scanned ρ ν)}
    (h : ScansOf C log lasttime last (cur :: earlier)) {n : ν} (listed : n ∈ C.names cur.release)
    (fresh : cur.snapshot n = none)
    (safe : ∀ u, last = some u → ∀ p, ReadsAt u.scans (cur.release, n) p →
      ChangedAfter log (cur.release, n) p lasttime)
    {tree : Listing ν} {old : ν → Bool} (same : ∀ m, m ≠ n → tree m = cur.tree m)
    (ground : (tree n).isSome → (stamp C.base log (cur.release, n)).isSome)
    (clears : ∀ m, old m = true → m = n ∧ (stamp C.base log (cur.release, n)).isSome)
    (kept : ∀ ctime, stamp C.base log (cur.release, n) = some ctime → lasttime < ctime →
      ∃ t, tree n = some t ∧ t.isNew = true) :
    ScansOf C log lasttime last
      (⟨cur.release,
        Function.update cur.snapshot n (some ⟨log.length, stamp C.base log (cur.release, n)⟩), tree⟩ ::
        earlier.map (Scanned.clearNew old)) := by
  generalize seen : (⟨cur.release, Function.update cur.snapshot n
    (some ⟨log.length, stamp C.base log (cur.release, n)⟩), tree⟩ : Scanned ρ ν) = sc
  have release : sc.release = cur.release := by rw [← seen]
  have atName : sc.entry n = stamp C.base log (cur.release, n) := by
    simp only [← seen, Scanned.entry, Function.update_self, Option.bind_some]
  have elsewhere : ∀ m, m ≠ n → sc.entry m = cur.entry m := by
    intro m other
    simp only [← seen, Scanned.entry, Function.update_of_ne other]
  have treeOf : sc.tree = tree := by rw [← seen]
  have tail : ∀ x ∈ earlier, x ∈ cur :: earlier := fun x member => List.mem_cons_of_mem _ member
  refine .cons (fun x member => h.snapshots x (tail x member))
    (fun x member => h.grounded x (tail x member)) ?_ ?_ ?_ ?_ ?_ ?_ ?_
  · intro u before f p q first second
    exact h.since u before f p q first ((readsAt_cons _ _ _ _).mpr (.inr second))
  · rw [← seen]
    exact (h.snapshots cur List.mem_cons_self).read listed
  · intro m
    by_cases here : m = n
    · rw [here, atName, treeOf]
      exact ground
    · rw [elsewhere m here, treeOf, same m here]
      exact h.grounded cur List.mem_cons_self m
  · intro u before m p q ctime first second i t late early made
    rw [release] at first made
    rw [← seen] at second
    rcases update_some second with ⟨rfl, _⟩ | old
    · exact safe u before p first i t late made
    · exact h.since u before (cur.release, m) p q first
        ((readsAt_cons _ _ _ _).mpr (.inl ⟨rfl, ctime, old⟩)) i t late early made
  · intro m ctime entry newer
    rw [treeOf]
    by_cases here : m = n
    · rw [here, atName] at entry
      rw [here]
      exact kept ctime entry newer
    · rw [elsewhere m here] at entry
      rw [same m here]
      exact h.kept m cur ctime (supplier_cons_of_lists (by rw [entry]; rfl)) entry newer
  · intro m unlisted x ctime supplied
    have before : ¬(cur.entry m).isSome := by
      by_cases here : m = n
      · rw [here, Scanned.entry, fresh]
        exact nofun
      · rwa [← elsewhere m here]
    exact h.kept m x ctime ((supplier_cons_of_not before).trans supplied)
  · intro m cleared
    obtain ⟨rfl, there⟩ := clears m cleared
    rwa [atName]

omit [DecidableEq ρ] in
theorem readsAt_of_read {cur : Scanned ρ ν} {earlier : List (Scanned ρ ν)} {n : ν} {sight : Sight}
    (fresh : cur.snapshot n = none) {tree : Listing ν} {old : ν → Bool} {f : File ρ ν} {p : Nat}
    (reads : ReadsAt (cur :: earlier) f p) :
    ReadsAt (⟨cur.release, Function.update cur.snapshot n (some sight), tree⟩ ::
      earlier.map (Scanned.clearNew old)) f p := by
  rw [readsAt_cons, readsAt_map_clearNew]
  rcases (readsAt_cons _ _ _ _).mp reads with ⟨here, ctime, seen⟩ | before
  · refine .inl ⟨here, ctime, ?_⟩
    have other : f.2 ≠ n := by
      intro same
      rw [same, fresh] at seen
      exact absurd seen nofun
    exact (Function.update_of_ne other _ _).trans seen
  · exact .inr before

theorem Inv.scanRead {s s' : State ρ ν} (inv : Inv C s) {n : ν}
    (stepped : Scan.scanRead C s n = some s') : Inv C s' := by
  rw [Scan.scanRead] at stepped
  cases running : s.upgrade with
  | none =>
      rw [running] at stepped
      exact absurd stepped nofun
  | some up =>
      rw [running] at stepped
      have old := inv.upgrade up running
      cases scanning : up.scanning with
      | false =>
          simp only [scanning] at stepped
          exact absurd stepped nofun
      | true =>
          cases current : up.listTL with
          | nil =>
              simp only [scanning, current] at stepped
              exact absurd stepped nofun
          | cons cur earlier =>
              simp only [scanning, current] at stepped
              obtain ⟨⟨listed, fresh⟩, stepped⟩ := Option.ite_none_right_eq_some.mp stepped
              obtain rfl := Option.some.inj stepped
              have unread := old.unread_head current fresh
              have scans := old.scans
              rw [current] at scans
              have empty : cur.tree n = none := by
                refine Option.not_isSome_iff_eq_none.mp (fun there => ?_)
                have ground := scans.grounded cur List.mem_cons_self n there
                rw [Scanned.entry, fresh] at ground
                exact absurd ground nofun
              obtain ⟨tree, cleared, result, same, ground, clears, kept⟩ :=
                listentry_eq up.lasttime up.newonly n (s.look C (cur.release, n)) cur earlier empty
              rw [result]
              refine { inv with upgrade := fun up' h => ?_, late := fun u last f p reads none => ?_ }
              · obtain rfl := Option.some.inj h
                refine ⟨old.told, ?_, ?_, fun sc member => ?_, fun idle => ?_,
                  fun ended f p reads => ?_⟩
                · have order := old.order
                  rw [current] at order
                  simpa only [List.map_cons, map_release_clearNew] using order
                · rw [old.told] at kept
                  refine scans.read listed fresh (fun u last p reads => ?_) same ground clears kept
                  refine inv.late u last (cur.release, n) p reads (fun up' same q => ?_)
                  obtain rfl := Option.some.inj (running.symm.trans same)
                  exact unread q
                · obtain ⟨x, inside, rfl⟩ := List.mem_map.mp member
                  exact old.earlier x (by rw [current]; exact inside)
                · exact absurd idle nofun
                · rcases (readsAt_cons _ _ _ _).mp reads with ⟨here, ctime, seen⟩ | before
                  · obtain ⟨r, m⟩ := f
                    obtain rfl : cur.release = r := here
                    rcases update_some seen with ⟨_, now⟩ | earlierSight
                    · obtain ⟨rfl, _⟩ := Sight.mk.inj (Option.some.inj now)
                      exact changedAfter_length s.log _ _
                    · refine old.late ended _ p ?_
                      rw [current]
                      exact (readsAt_cons _ _ _ _).mpr (.inl ⟨rfl, ctime, earlierSight⟩)
                  · rw [readsAt_map_clearNew] at before
                    refine old.late ended f p ?_
                    rw [current]
                    exact (readsAt_cons _ _ _ _).mpr (.inr before)
              · refine inv.late u last f p reads (fun up' same q earlierRead => ?_)
                obtain rfl := Option.some.inj (running.symm.trans same)
                rw [current] at earlierRead
                exact none _ rfl q (readsAt_of_read fresh earlierRead)

theorem Inv.scanDone {s s' : State ρ ν} (inv : Inv C s)
    (stepped : Scan.scanDone C s = some s') : Inv C s' := by
  rw [Scan.scanDone] at stepped
  cases running : s.upgrade with
  | none =>
      rw [running] at stepped
      exact absurd stepped nofun
  | some up =>
      rw [running] at stepped
      have old := inv.upgrade up running
      obtain ⟨lasttime, newonly, queue, scantime, listTL, scanning⟩ := up
      cases scanning with
      | false => exact absurd stepped nofun
      | true =>
          cases listTL with
          | nil => exact absurd stepped nofun
          | cons cur earlier =>
              obtain ⟨whole, stepped⟩ := Option.ite_none_right_eq_some.mp stepped
              obtain rfl := Option.some.inj stepped
              refine { inv with upgrade := fun up' h => ?_, late := fun u last f p reads none => ?_ }
              · obtain rfl := Option.some.inj h
                refine { old with complete := fun _ sc member => ?_ }
                rcases List.mem_cons.mp member with rfl | inside
                · exact whole
                · exact old.earlier sc inside
              · refine inv.late u last f p reads (fun up' same q earlierRead => ?_)
                obtain rfl := Option.some.inj (running.symm.trans same)
                exact none _ rfl q earlierRead

omit [DecidableEq ρ] [DecidableEq ν] in
/-- A name marked as new by the release that supplies it goes into the list so. -/
theorem mergeLists_supplier (newonly : Bool) {scans : List (Scanned ρ ν)} {n : ν} {sc : Scanned ρ ν}
    {t : Node} (grounded : ∀ x ∈ scans, ∀ n, (x.tree n).isSome → (x.entry n).isSome)
    (supplied : supplier scans n = some sc) (here : sc.tree n = some t) (isNew : t.isNew = true) :
    mergeLists newonly scans n = some t := by
  induction scans with
  | nil => exact absurd supplied nofun
  | cons x rest ih =>
      by_cases lists : (x.entry n).isSome
      · rw [supplier_cons_of_lists lists, Option.some.injEq] at supplied
        subst supplied
        simp [mergeLists, here, isNew]
      · have absent : x.tree n = none := Option.not_isSome_iff_eq_none.mp
          (fun there => lists (grounded x List.mem_cons_self n there))
        rw [supplier_cons_of_not lists] at supplied
        have tail := ih (fun y member => grounded y (List.mem_cons_of_mem _ member)) supplied
        simpa [mergeLists, List.findSome?_cons, absent] using tail

theorem UpgradeOf.pairSafe {s : State ρ ν} (inv : Inv C s) {up : Upgrade ρ ν}
    (h : UpgradeOf C s.log s.lasttime s.done.head? up) {u : Record ρ ν} (last : s.done.head? = some u) :
    PairSafe s.log ⟨up.listTL, mergeLists up.newonly up.listTL⟩ u := by
  intro f p q i t before after late early made supplies
  have newer := h.scans.since u last f p q before after i t late early made
  obtain ⟨sc, member, release, ctime, seen⟩ := after
  obtain ⟨sc', supplied, release'⟩ := supplies
  have inside : sc' ∈ up.listTL := List.mem_of_find?_eq_some supplied
  obtain rfl : sc = sc' :=
    List.inj_on_of_nodup_map h.nodup member inside (release.trans release'.symm)
  -- the sight is not older than the change, which was made after the time the client holds
  have sighted := (h.scans.snapshots sc member).sighted f.2 q ctime seen
  have taken : (s.log.take q)[i]? = some (f, t) := by rw [List.getElem?_take_of_lt early, made]
  rw [show (sc.release, f.2) = f by rw [release]] at sighted
  obtain ⟨stamped, same, least⟩ :=
    le_stamp C.base (inv.ordered.sublist (List.take_sublist q s.log)) taken
  rw [same] at sighted
  have entry : sc.entry f.2 = some stamped := by
    rw [Scanned.entry, seen, sighted]
    rfl
  obtain ⟨node, here, isNew⟩ := h.scans.kept f.2 sc stamped supplied entry (by omega)
  refine ⟨node, mergeLists_supplier up.newonly h.scans.grounded supplied here isNew, isNew, ?_⟩
  intro cfall cfold update
  cases cfall <;> simp [needone, isNew]

/-- An upgrade that has scanned every release has read every name of the chain. -/
theorem UpgradeOf.recordOf {log : List (File ρ ν × Nat)} {lasttime : Nat} {last : Option (Record ρ ν)}
    {up : Upgrade ρ ν} (h : UpgradeOf C log lasttime last up) (idle : up.scanning = false)
    (ended : up.queue = []) (list : Listing ν) : RecordOf C log ⟨up.listTL, list⟩ := by
  have order := h.order
  rw [ended, List.append_nil] at order
  refine ⟨fun f release name => ?_, fun f p reads => ?_⟩
  · rw [← order, List.mem_reverse] at release
    obtain ⟨sc, member, same⟩ := List.mem_map.mp release
    have whole := h.complete idle sc member
    rw [same] at whole
    obtain ⟨⟨p, ctime⟩, seen⟩ := Option.isSome_iff_exists.mp (whole f.2 name)
    exact ⟨p, sc, member, same, ctime, seen⟩
  · obtain ⟨sc, member, same, ctime, seen⟩ := reads
    have snapshot := h.scans.snapshots sc member
    rw [same] at snapshot
    refine ⟨?_, snapshot.within _ _ _ seen, snapshot.bounded _ _ _ seen⟩
    rw [← order, List.mem_reverse, ← same]
    exact List.mem_map_of_mem member

theorem Inv.upgradeFinish {s s' : State ρ ν} (inv : Inv C s)
    (stepped : Scan.upgradeFinish s = some s') : Inv C s' := by
  rw [Scan.upgradeFinish] at stepped
  cases running : s.upgrade with
  | none =>
      rw [running] at stepped
      exact absurd stepped nofun
  | some up =>
      rw [running] at stepped
      have old := inv.upgrade up running
      obtain ⟨⟨idle, ended⟩, stepped⟩ := Option.ite_none_right_eq_some.mp stepped
      obtain rfl := Option.some.inj stepped
      refine { inv with
        upgrade := nofun
        records := fun u member => ?_
        pairs := ?_
        late := fun u last f p reads _ => ?_ }
      · rcases List.mem_cons.mp member with rfl | before
        · exact old.recordOf idle ended _
        · exact inv.records u before
      · cases done : s.done with
        | nil => exact .singleton _
        | cons u rest =>
            have chain := inv.pairs
            rw [done] at chain
            exact .cons_cons (old.pairSafe inv (by rw [done]; rfl)) chain
      · obtain rfl := Option.some.inj last
        exact old.late ended f p reads

theorem Inv.step {s s' : State ρ ν} {label : Label ρ ν} (inv : Inv C s) (inTime : InTime s label)
    (stepped : Scan.step C s label = some s') : Inv C s' := by
  cases label with
  | tick =>
      obtain rfl := Option.some.inj stepped
      exact inv.tick
  | change f =>
      obtain rfl := Option.some.inj stepped
      exact inv.change f inTime
  | supscanStart pid r =>
      rw [Scan.step] at stepped
      cases running : s.supscans pid with
      | some p =>
          rw [running] at stepped
          exact absurd stepped nofun
      | none =>
          rw [running] at stepped
          obtain rfl := Option.some.inj stepped
          exact inv.supscanStart pid r
  | supscanRead pid n => exact inv.supscanRead stepped
  | supscanWrite pid next => exact inv.supscanWrite stepped
  | upgradeStart newonly =>
      rw [Scan.step] at stepped
      cases running : s.upgrade with
      | some up =>
          rw [running] at stepped
          exact absurd stepped nofun
      | none =>
          rw [running] at stepped
          obtain rfl := Option.some.inj stepped
          exact inv.upgradeStart running newonly
  | getscan => exact inv.getscan inTime stepped
  | scanRead n => exact inv.scanRead stepped
  | scanDone => exact inv.scanDone stepped
  | upgradeFinish => exact inv.upgradeFinish stepped

theorem inv_of_reachable {s : State ρ ν} (reached : (machine C).Reachable InTime s) : Inv C s := by
  refine reached.invariant (P := Inv C) ?_ ?_
  · rintro _ ⟨clock, rfl⟩
    exact .start clock
  · intro s label s' inv inTime stepped
    exact inv.step inTime stepped

/-- What holds of neighbours in the history holds of any two upgrades: those between read
every name, so the one before the second is a neighbour that read the file too early. -/
theorem Inv.noLoss {s : State ρ ν} (inv : Inv C s) : NoLoss s := by
  intro after second between first before history i f t made ⟨p, reads, early⟩ skipped
    ⟨q, seen, late⟩ supplies
  have chain := inv.pairs
  rw [history] at chain
  have member : first ∈ s.done := by rw [history]; simp
  obtain ⟨release, name, _⟩ := (inv.records first member).within f p reads
  cases between with
  | nil =>
      have pair : PairSafe s.log second first := (List.isChain_append.mp chain).2.1.rel
      exact pair f p q i t reads seen early late made supplies
  | cons u rest =>
      have pair : PairSafe s.log second u := (List.isChain_append.mp chain).2.1.rel
      have inside : u ∈ s.done := by rw [history]; simp
      obtain ⟨p', reads'⟩ := (inv.records u inside).covers f release name
      exact pair f p' q i t reads' seen (skipped u List.mem_cons_self p' reads') late made supplies

/-- In every run whose steps are all in time, no update is lost between upgrades. -/
theorem noLoss_of_inTime {s : State ρ ν} (reached : (machine C).Reachable InTime s) : NoLoss s :=
  (inv_of_reachable reached).noLoss

end Invariant

/-! ## A change within the second of the scan -/

/-- One release with one file. -/
def loneFile : Collection Unit Unit := ⟨[()], by decide, fun _ => [()], fun _ => some 0⟩

theorem inTime_first_getscan {s : State Unit Unit} (unscanned : ∀ r, s.scanfiles r = none)
    (first : ∀ up, s.upgrade = some up → up.listTL = []) : InTime s .getscan := by
  intro up r rest running _
  refine ⟨fun _ => ⟨?_, ?_⟩, ?_⟩
  · rintro f p ⟨sc, member, _⟩
    rw [first up running] at member
    exact absurd member List.not_mem_nil
  · intro sf scanned
    exact absurd ((unscanned r).symm.trans scanned) nofun
  · intro sf scanned
    exact absurd ((unscanned r).symm.trans scanned) nofun

/-- Two upgrades by direct scans, and a change a second after the first. -/
def nextSecondRun : List (Label Unit Unit) :=
  [.upgradeStart true, .getscan, .scanRead (), .scanDone, .upgradeFinish, .tick,
    .change ((), ()), .upgradeStart true, .getscan, .scanRead (), .scanDone, .upgradeFinish]

theorem noLoss_nextSecond :
    ∃ s, (machine loneFile).run (start 5) nextSecondRun = some s ∧ s.done.length = 2 ∧
      NoLoss s := by
  refine ⟨_, rfl, rfl, noLoss_of_inTime (C := loneFile) ?_⟩
  refine .of_run nextSecondRun (.init ⟨5, rfl⟩) rfl ?_
  refine ⟨trivial, inTime_first_getscan (fun _ => rfl) ?_, trivial, trivial, trivial, trivial,
    ⟨nofun, ?_⟩, trivial, inTime_first_getscan (fun _ => rfl) ?_, trivial, trivial, trivial,
    trivial⟩
  · rintro _ ⟨⟩
    rfl
  · intro _ _ _ _
    exact (by decide : 5 < 6)
  · rintro _ ⟨⟩
    rfl

/-- The file is changed after the first scan has read it, within the second that the client
keeps as its scan time: the second upgrade reads the change and does not list it. -/
theorem change_within_second_lost :
    ∃ s, (machine loneFile).run (start 5)
        [.upgradeStart true, .getscan, .scanRead (), .scanDone, .upgradeFinish,
          .change ((), ()), .tick, .upgradeStart true, .getscan, .scanRead (), .scanDone,
          .upgradeFinish] = some s ∧ ¬NoLoss s := by
  refine ⟨_, rfl, fun safe => ?_⟩
  obtain ⟨t, listed, _⟩ := safe [] _ [] _ [] rfl 0 ((), ()) 5 rfl
    ⟨0, ⟨_, List.mem_cons_self, rfl, _, rfl⟩, Nat.le_refl 0⟩ nofun
    ⟨1, ⟨_, List.mem_cons_self, rfl, _, rfl⟩, Nat.one_pos⟩ ⟨_, rfl, rfl⟩
  exact absurd listed nofun

end MachFormal.Sup.Scan
