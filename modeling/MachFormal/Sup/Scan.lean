import Mathlib.Data.List.Induction
import MachFormal.Library.Machine

/-!
# Scanning a collection for what is new

A collection is a chain of releases. `getscan` reads a release either directly from the
disk or from the scan file that an earlier `supscan` left, and `listname` marks as new what
was changed after the client's last upgrade. All scans of one upgrade share the variable
`scantime`: each release overwrites it, and what the last one leaves is what the client
keeps and sends back as `lasttime` the next time.

Scans take time: files change while they run, and several `supscan` processes may be
running beside an upgrade. A sight of a file therefore carries the position in the log of
changes at which it was taken. The program does not know that position; it only sees the
time of the last change, in whole seconds. Writing a scan file and setting its time is one
step here, and so is reading one.
-/

/-!
## Logs of time-stamped changes

Every change of a keyed store is appended to a log with the time at which it was made.
A position in the log is a moment finer than the clock: several changes may carry one
time, but of a change and a position it is always clear which came first. The stamp of a
key is the time of its last change.
-/

namespace MachFormal.Library.ChangeLog

variable {κ : Type} [DecidableEq κ]

/-- The time of the last change of a key, or what it was before the log began. -/
def stamp (base : κ → Option Nat) (log : List (κ × Nat)) (key : κ) : Option Nat :=
  log.foldl (fun last change => if change.1 = key then some change.2 else last) (base key)

/-- Times never decrease along the log. -/
def Ordered (log : List (κ × Nat)) : Prop := log.Pairwise (fun a b => a.2 ≤ b.2)

/-- Every change of `key` from `position` on was made after `time`. -/
def ChangedAfter (log : List (κ × Nat)) (key : κ) (position time : Nat) : Prop :=
  ∀ i t, position ≤ i → log[i]? = some (key, t) → time < t

omit [DecidableEq κ] in
theorem Ordered.append {log : List (κ × Nat)} (ordered : Ordered log) {now : Nat}
    (past : ∀ change ∈ log, change.2 ≤ now) (key : κ) : Ordered (log ++ [(key, now)]) := by
  refine List.pairwise_append.mpr ⟨ordered, List.pairwise_singleton _ _, ?_⟩
  intro a member b last
  rw [List.mem_singleton.mp last]
  exact past a member

theorem stamp_append (base : κ → Option Nat) (log : List (κ × Nat)) (key : κ) (now : Nat) :
    stamp base (log ++ [(key, now)]) key = some now := by
  simp [stamp, List.foldl_append]

theorem stamp_append_of_ne (base : κ → Option Nat) (log : List (κ × Nat)) {key other : κ}
    (differ : other ≠ key) (now : Nat) :
    stamp base (log ++ [(other, now)]) key = stamp base log key := by
  simp [stamp, List.foldl_append, differ]

theorem le_stamp (base : κ → Option Nat) {log : List (κ × Nat)} (ordered : Ordered log) {i t : Nat}
    {key : κ} (made : log[i]? = some (key, t)) : ∃ last, stamp base log key = some last ∧ t ≤ last := by
  induction log using List.reverseRecOn generalizing i t with
  | nil => exact absurd made nofun
  | append_singleton log change ih =>
      obtain ⟨before, _, later⟩ := List.pairwise_append.mp ordered
      obtain ⟨other, now⟩ := change
      by_cases same : other = key
      · subst same
        refine ⟨now, stamp_append base log other now, ?_⟩
        rcases List.mem_append.mp (List.mem_of_getElem? made) with early | last
        · exact later _ early (other, now) (List.mem_singleton_self _)
        · exact Nat.le_of_eq (congrArg Prod.snd (List.mem_singleton.mp last))
      · rw [stamp_append_of_ne base log same]
        have inside : i < log.length := by
          by_contra outside
          have bound := (List.getElem?_eq_some_iff.mp made).1
          rw [List.length_append, List.length_singleton] at bound
          have here : i = log.length := by omega
          rw [here, List.getElem?_concat_length] at made
          exact same (congrArg Prod.fst (Option.some.inj made))
        rw [List.getElem?_append_left inside] at made
        exact ih before made

omit [DecidableEq κ] in
theorem getElem?_append_of_lt {log : List (κ × Nat)} {i : Nat} (inside : i < log.length)
    (change : κ × Nat) : (log ++ [change])[i]? = log[i]? :=
  List.getElem?_append_left inside

omit [DecidableEq κ] in
theorem changedAfter_length (log : List (κ × Nat)) (key : κ) (time : Nat) :
    ChangedAfter log key log.length time := by
  intro i t late made
  have bound := (List.getElem?_eq_some_iff.mp made).1
  omega

omit [DecidableEq κ] in
theorem ChangedAfter.append {log : List (κ × Nat)} {key : κ} {position time : Nat}
    (late : ChangedAfter log key position time) (change : κ × Nat)
    (own : change.1 = key → time < change.2) : ChangedAfter (log ++ [change]) key position time := by
  intro i t after made
  by_cases inside : i < log.length
  · rw [getElem?_append_of_lt inside] at made
    exact late i t after made
  · have bound := (List.getElem?_eq_some_iff.mp made).1
    rw [List.length_append, List.length_singleton] at bound
    have here : i = log.length := by omega
    rw [here, List.getElem?_concat_length] at made
    have entry := Option.some.inj made
    rw [entry] at own
    exact own rfl

end MachFormal.Library.ChangeLog

namespace MachFormal.Sup.Scan

open Library Library.ChangeLog

abbrev File (ρ ν : Type) := ρ × ν

/-- What a scan saw of a file: its `st_ctime`, if it was there. -/
structure Sight where
  position : Nat
  ctime : Option Nat

/-- The sights of a scan so far; `none` for a name it has not come to. -/
abbrev Snapshot (ν : Type) := ν → Option Sight

structure ScanFile (ν : Type) where
  mtime : Nat
  snapshot : Snapshot ν

/-- A `supscan` process at work on a release. -/
structure SupScan (ρ ν : Type) where
  scantime : Nat
  release : ρ
  snapshot : Snapshot ν

/-- What a node of a list tree says about newness: `Tctime` and `FNEW`. -/
structure Node where
  ctime : Nat
  isNew : Bool

abbrev Listing (ν : Type) := ν → Option Node

/-- An element of `listTL`, with the scan its tree was made from. -/
structure Scanned (ρ ν : Type) where
  release : ρ
  snapshot : Snapshot ν
  tree : Listing ν

/-- An upgrade in progress. `queue` holds the releases still to be scanned; the head of
`listTL` is the one scanned last, and is still being scanned while `scanning` is set. -/
structure Upgrade (ρ ν : Type) where
  lasttime : Nat
  newonly : Bool
  queue : List ρ
  scantime : Nat
  listTL : List (Scanned ρ ν)
  scanning : Bool

/-- A successful upgrade: the scans it used and the list it sent. -/
structure Record (ρ ν : Type) where
  scans : List (Scanned ρ ν)
  list : Listing ν

/-- Server and client. `lasttime` is the client's, from its `when` file. -/
structure State (ρ ν : Type) where
  clock : Nat
  log : List (File ρ ν × Nat)
  scanfiles : ρ → Option (ScanFile ν)
  supscans : Nat → Option (SupScan ρ ν)
  upgrade : Option (Upgrade ρ ν)
  lasttime : Nat
  done : List (Record ρ ν)

/-- The collection: its releases in the order in which `getscanlists` comes to them, the
names each one lists, and what was on the disk at the beginning. A chain that came back to
a release would never end, so it has no repetitions. -/
structure Collection (ρ ν : Type) where
  releases : List ρ
  nodup : releases.Nodup
  names : ρ → List ν
  base : File ρ ν → Option Nat

section Model

variable {ρ ν : Type} [DecidableEq ρ] [DecidableEq ν]

/-! ## The list trees -/

/-- `ts->Tflags &= ~FNEW` for the names that turn out to be old. -/
def Scanned.clearNew (old : ν → Bool) (sc : Scanned ρ ν) : Scanned ρ ν :=
  { sc with tree := fun n => if old n then (sc.tree n).map ({ · with isNew := false }) else sc.tree n }

/-- `listname`, on the tree being built and the trees before it. -/
def listname (lasttime : Nat) (newonly : Bool) (n : ν) (ctime : Nat) :
    List (Scanned ρ ν) → List (Scanned ρ ν)
  | [] => []
  | cur :: earlier =>
      let isNew : Bool := lasttime < ctime
      if newonly && !isNew then
        cur :: earlier.map (Scanned.clearNew (· = n))
      else if (cur.tree n).isSome then
        cur :: earlier
      else
        { cur with tree := Function.update cur.tree n (some ⟨ctime, isNew⟩) } :: earlier

/-- The time a scan file gives for a name, if it lists it. -/
def ScanFile.entry (sf : ScanFile ν) (n : ν) : Option Nat := (sf.snapshot n).bind Sight.ctime

/-- The tree `getscanfile` builds; the lines of the file do not depend on each other. -/
def ScanFile.tree (sf : ScanFile ν) (lasttime : Nat) (newonly : Bool) : Listing ν := fun n =>
  (sf.entry n).bind fun ctime =>
    if newonly && !(lasttime < ctime : Bool) then none else some ⟨ctime, lasttime < ctime⟩

/-- A line of the scan file that `getscanfile` does not want. -/
def ScanFile.notwanted (sf : ScanFile ν) (lasttime : Nat) (newonly : Bool) (n : ν) : Bool :=
  match sf.entry n with
  | none => false
  | some ctime => newonly && !(lasttime < ctime : Bool)

/-- `getscanfile`: nothing is read if the client has it all already. -/
def getscanfile (lasttime : Nat) (newonly : Bool) (r : ρ) (sf : ScanFile ν)
    (earlier : List (Scanned ρ ν)) : List (Scanned ρ ν) :=
  if newonly && sf.mtime = lasttime then
    ⟨r, sf.snapshot, fun _ => none⟩ :: earlier
  else
    ⟨r, sf.snapshot, sf.tree lasttime newonly⟩ ::
      earlier.map (Scanned.clearNew (sf.notwanted lasttime newonly))

/-- `scanone`, over all trees in the order of `listTL`: the first to have a name keeps it. -/
def mergeLists (newonly : Bool) (scans : List (Scanned ρ ν)) : Listing ν := fun n =>
  scans.findSome? fun sc =>
    (sc.tree n).bind fun t => if newonly && !t.isNew then none else some t

/-- `needone`: whether the client asks for the file. `update` tells that a file of the same
type, and of the same time if it is regular, is there. -/
def needone (cfall cfold isNew update : Bool) : Bool :=
  if cfall then true
  else if !isNew && !cfold then false
  else if !isNew && update then false
  else true

/-! ## Steps -/

inductive Label (ρ ν : Type) where
  | tick
  | change (f : File ρ ν)
  | supscanStart (pid : Nat) (r : ρ)
  | supscanRead (pid : Nat) (n : ν)
  | supscanWrite (pid : Nat) (next : Option ρ)
  | upgradeStart (newonly : Bool)
  | getscan
  | scanRead (n : ν)
  | scanDone
  | upgradeFinish

variable (C : Collection ρ ν)

/-- What `lstat` tells now. -/
def State.look (s : State ρ ν) (f : File ρ ν) : Sight :=
  ⟨s.log.length, stamp C.base s.log f⟩

def Complete (r : ρ) (snapshot : Snapshot ν) : Prop := ∀ n ∈ C.names r, (snapshot n).isSome

instance (r : ρ) (snapshot : Snapshot ν) : Decidable (Complete C r snapshot) :=
  inferInstanceAs (Decidable (∀ n ∈ C.names r, (snapshot n).isSome))

/-- `supscan` comes to a name. -/
def supscanRead (s : State ρ ν) (pid : Nat) (n : ν) : Option (State ρ ν) :=
  match s.supscans pid with
  | none => none
  | some p =>
      if n ∈ C.names p.release ∧ p.snapshot n = none then
        some { s with supscans := Function.update s.supscans pid (some
          { p with snapshot := Function.update p.snapshot n (some (s.look C (p.release, n))) }) }
      else none

/-- `makescanfile`, and the next release of the same run, if any: all get the time at which
the run began. -/
def supscanWrite (s : State ρ ν) (pid : Nat) (next : Option ρ) : Option (State ρ ν) :=
  match s.supscans pid with
  | none => none
  | some p =>
      if Complete C p.release p.snapshot then
        some { s with
          scanfiles := Function.update s.scanfiles p.release (some ⟨p.scantime, p.snapshot⟩)
          supscans := Function.update s.supscans pid
            (next.map fun r => ⟨p.scantime, r, fun _ => none⟩) }
      else none

/-- `getscan` for the next release. -/
def getscan (s : State ρ ν) : Option (State ρ ν) :=
  match s.upgrade with
  | none => none
  | some up =>
      if up.scanning then none
      else
        match up.queue with
        | [] => none
        | r :: rest =>
            match s.scanfiles r with
            | some sf =>
                some { s with upgrade := some { up with
                  queue := rest
                  scantime := sf.mtime
                  listTL := getscanfile up.lasttime up.newonly r sf up.listTL } }
            | none =>
                some { s with upgrade := some { up with
                  queue := rest
                  scantime := s.clock
                  listTL := ⟨r, fun _ => none, fun _ => none⟩ :: up.listTL
                  scanning := true } }

/-- The head of `listTL` has seen one name more. -/
def sighted (n : ν) (sight : Sight) : List (Scanned ρ ν) → List (Scanned ρ ν)
  | [] => []
  | cur :: earlier =>
      { cur with snapshot := Function.update cur.snapshot n (some sight) } :: earlier

/-- `listentry`: a name that is not there is passed over. -/
def listentry (lasttime : Nat) (newonly : Bool) (n : ν) (sight : Sight)
    (scans : List (Scanned ρ ν)) : List (Scanned ρ ν) :=
  match sight.ctime with
  | none => sighted n sight scans
  | some ctime => listname lasttime newonly n ctime (sighted n sight scans)

/-- A direct scan comes to a name. -/
def scanRead (s : State ρ ν) (n : ν) : Option (State ρ ν) :=
  match s.upgrade with
  | none => none
  | some up =>
      match up.scanning, up.listTL with
      | true, cur :: _ =>
          if n ∈ C.names cur.release ∧ cur.snapshot n = none then
            some { s with upgrade := some { up with
              listTL := listentry up.lasttime up.newonly n (s.look C (cur.release, n)) up.listTL } }
          else none
      | _, _ => none

/-- The end of a direct scan. -/
def scanDone (s : State ρ ν) : Option (State ρ ν) :=
  match s.upgrade with
  | none => none
  | some up =>
      match up.scanning, up.listTL with
      | true, cur :: _ =>
          if Complete C cur.release cur.snapshot then
            some { s with upgrade := some { up with scanning := false } }
          else none
      | _, _ => none

/-- All releases are scanned: the list goes to the client, which completes the upgrade and
keeps the scan time. -/
def upgradeFinish (s : State ρ ν) : Option (State ρ ν) :=
  match s.upgrade with
  | none => none
  | some up =>
      if up.scanning = false ∧ up.queue = [] then
        some { s with
          upgrade := none
          lasttime := up.scantime
          done := ⟨up.listTL, mergeLists up.newonly up.listTL⟩ :: s.done }
      else none

def step (s : State ρ ν) : Label ρ ν → Option (State ρ ν)
  | .tick => some { s with clock := s.clock + 1 }
  | .change f => some { s with log := s.log ++ [(f, s.clock)] }
  | .supscanStart pid r =>
      match s.supscans pid with
      | some _ => none
      | none => some { s with
          supscans := Function.update s.supscans pid (some ⟨s.clock, r, fun _ => none⟩) }
  | .supscanRead pid n => supscanRead C s pid n
  | .supscanWrite pid next => supscanWrite C s pid next
  | .upgradeStart newonly =>
      match s.upgrade with
      | some _ => none
      | none => some { s with upgrade := some ⟨s.lasttime, newonly, C.releases, 0, [], false⟩ }
  | .getscan => getscan s
  | .scanRead n => scanRead C s n
  | .scanDone => scanDone C s
  | .upgradeFinish => upgradeFinish s

/-- Before the first upgrade, at any time. -/
def start (clock : Nat) : State ρ ν := ⟨clock, [], fun _ => none, fun _ => none, none, 0, []⟩

/-- Server and client as a machine. -/
def machine : Machine (State ρ ν) (Label ρ ν) where
  init s := ∃ clock, s = start clock
  step := step C

end Model

end MachFormal.Sup.Scan
