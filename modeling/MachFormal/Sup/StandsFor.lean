import MachFormal.Sup.ScanText
import MachFormal.Sup.Selection

/-!
# A scan file stands for the scan

The entries that are read from a scan file are those of the files that were seen, less the
names that the client refuses.  The scan for a client leaves out in addition what lies in a
refused directory, and that is the same only if every such name is refused itself.
-/

namespace MachFormal.Sup.Lists

open Library Library.Text

section Statements

variable (anyglob : CString → CString → Bool) (list : ListFile)

/-- The tree from which `makescan` writes, at a time. -/
def scanned (lasttime : CInt) : NodeTree := (doscan anyglob ⟨.empty, lasttime, false⟩ list []).listT

/-- What is asked of the names and commands, and that a name is seen always as the same file. -/
structure Presentable (lasttime : CInt) : Prop where
  files : ∀ v ∈ sights anyglob list, Canonical v.name ∧ newline ∉ v.name.data ∧
    ∀ w ∈ sights anyglob list, w.name = v.name → w.st = v.st
  commands : ∀ n t, list.execT.search n = some t →
    ∀ command ∈ names t.exec, Canonical command ∧ newline ∉ command.data
  short : ∀ line ∈ (scanned anyglob list lasttime).toList.flatMap recordLines,
    line.length + 1 < STRINGLENGTH

/-- What is asked of the names and commands for the lines to be read back. -/
structure Legible (lasttime : CInt) : Prop where
  files : ∀ v ∈ sights anyglob list, Canonical v.name ∧ newline ∉ v.name.data
  commands : ∀ n t, list.execT.search n = some t →
    ∀ command ∈ names t.exec, newline ∉ command.data
  short : ∀ line ∈ (scanned anyglob list lasttime).toList.flatMap recordLines,
    line.length + 1 < STRINGLENGTH

/-- Two nodes with the same status and the same commands. -/
structure SameNode (t u : Node) : Prop where
  mode : t.mode = u.mode
  ctime : t.ctime = u.ctime
  mtime : t.mtime = u.mtime
  flags : t.flags = u.flags
  exec : names t.exec = names u.exec

/-- Trees with the same nodes under the same names. -/
def SameEntries (t u : NodeTree) : Prop := ∀ n, Option.Rel SameNode (t.search n) (u.search n)

/-- Reading the scan file that was written at a time gives the entries of a scan. -/
def StandsFor (lasttime : CInt) (q : Request) (mtime : CInt) (listTL : List NodeTree) : Prop :=
  ∃ t listTL', readScanfile q mtime (makescanfile (scanned anyglob list lasttime)) listTL =
      some (some (t, listTL')) ∧
    SameEntries t (doscan anyglob q list listTL).listT

/-- A file that is listed and not refused is seen also on a way on which nothing is refused. -/
def RefusedByName (q : Request) : Prop :=
  ∀ v ∈ sights anyglob list, wanted q v.st = true → Tlookup q.refuseT v.name = none →
    ∃ w ∈ reachedSights anyglob list q.refuseT, w.name = v.name

end Statements

section Flags

theorem and_single (m flag : CInt) (i : Nat) (single : flag = BitVec.twoPow 32 i)
    (nonzero : flag ≠ 0) : (if has m flag then flag else 0) = m &&& flag := by
  have bit : m &&& flag = if m.getLsbD i then flag else 0 := by
    rw [single, BitVec.and_twoPow]
    rfl
  rw [has, bit]
  cases m.getLsbD i with
  | true => exact if_pos (decide_eq_true nonzero)
  | false => rfl

theorem letters_marks (list : ListFile) (n : CString) (extra : CInt)
    (new : extra = 0 ∨ extra = FNEW) :
    letters (has (marks list n ||| extra) FBACKUP) (has (marks list n ||| extra) FNOACCT) =
      marks list n := by
  have only : marks list n &&& ~~~(FBACKUP ||| FNOACCT) = 0 := by
    rw [marks]
    cases found : list.flagsT.search n with
    | none => rfl
    | some ts => exact list.flagsOnly n ts found
  have bit : ∀ flag : CInt, extra &&& flag = 0 →
      has (marks list n ||| extra) flag = has (marks list n) flag := by
    intro flag apart
    have same : (marks list n ||| extra) &&& flag = marks list n &&& flag := by
      rw [BitVec.and_or_distrib_right, apart]
      exact BitVec.or_zero
    rw [has, has, same]
  have whole : marks list n =
      marks list n &&& (FBACKUP ||| FNOACCT) ||| marks list n &&& ~~~(FBACKUP ||| FNOACCT) := by
    rw [← BitVec.and_or_distrib_left, BitVec.or_not_self, BitVec.and_allOnes]
  rw [bit FBACKUP (by rcases new with rfl | rfl <;> decide),
    bit FNOACCT (by rcases new with rfl | rfl <;> decide), letters,
    and_single _ FBACKUP 1 (by decide) (by decide), and_single _ FNOACCT 2 (by decide) (by decide),
    ← BitVec.and_or_distrib_left]
  rw [only] at whole
  exact (whole.trans BitVec.or_zero).symm

end Flags

section Trees

variable {anyglob : CString → CString → Bool} {list : ListFile} {q : Request} {lasttime : CInt}

theorem reached_empty (v : Sight) : v.reached .empty = true := by
  refine List.all_eq_true.mpr fun name _ => ?_
  have none : Tlookup (.empty : NodeTree) name = none :=
    List.findSome?_eq_none_iff.mpr fun _ _ => rfl
  rw [none]
  rfl

theorem doscan_search (presentable : Presentable anyglob list lasttime) (q : Request)
    (listTL : List NodeTree) (n : CString) :
    (doscan anyglob q list listTL).listT.search n =
      (((reachedSights anyglob list q.refuseT).find? fun v => v.name = n).filter fun v =>
        wanted q v.st).map fun v => listed q list n v.st list.execT default := by
  have seen : ∀ v ∈ reachedSights anyglob list q.refuseT, v ∈ sights anyglob list :=
    fun v member => (List.mem_filter.mp member).1
  rw [doscan_eq, fold_search fun v member => (presentable.files v (seen v member)).1,
    SearchTree.search_empty]
  dsimp only
  rw [find?_and]
  intro v member w member' name name'
  have same : v.name = w.name := (of_decide_eq_true name).trans (of_decide_eq_true name').symm
  rw [(presentable.files w (seen w member')).2.2 v (seen v member) same]

theorem Presentable.legible (presentable : Presentable anyglob list lasttime) :
    Legible anyglob list lasttime where
  files := fun v member =>
    ⟨(presentable.files v member).1, (presentable.files v member).2.1⟩
  commands := fun n t found command member => (presentable.commands n t found command member).2
  short := presentable.short

theorem scanned_search (canonical : ∀ v ∈ sights anyglob list, Canonical v.name) (n : CString) :
    (scanned anyglob list lasttime).search n =
      ((sights anyglob list).find? fun v => v.name = n).map fun v =>
        listed ⟨.empty, lasttime, false⟩ list n v.st list.execT default := by
  have all : reachedSights anyglob list .empty = sights anyglob list :=
    List.filter_eq_self.mpr fun v _ => reached_empty v
  have every : (fun v : Sight => decide (v.name = n) && wanted ⟨.empty, lasttime, false⟩ v.st) =
      fun v => decide (v.name = n) := funext fun v => Bool.and_true _
  rw [scanned, doscan_eq, all, fold_search canonical, SearchTree.search_empty]
  exact congrArg (fun found => ((sights anyglob list).find? found).map _) every

/-- The commands of an entry are those that the list file gives for the name. -/
theorem mem_exec_listed {q : Request} {n : CString} {st : FileStat} {execT : NodeTree}
    {command : CString} (member : command ∈ names (listed q list n st execT default).exec) :
    ∃ t, execT.search n = some t ∧ command ∈ names t.exec := by
  rw [listed] at member
  cases found : execT.search n with
  | none =>
      rw [found] at member
      exact absurd member List.not_mem_nil
  | some t =>
      rw [found] at member
      exact ⟨t, rfl, member⟩

theorem sameNode_entryOf (presentable : Presentable anyglob list lasttime) (q : Request)
    (n : CString) (st : FileStat) :
    SameNode ((entryOf (n, listed ⟨.empty, lasttime, false⟩ list n st list.execT default)).node q
      default) (listed q list n st list.execT default) := by
  refine ⟨rfl, rfl, rfl, ?_, ?_⟩
  · have kept : letters
        (has (listed ⟨.empty, lasttime, false⟩ list n st list.execT default).flags FBACKUP)
        (has (listed ⟨.empty, lasttime, false⟩ list n st list.execT default).flags FNOACCT) =
        marks list n := by
      rw [listed_flags, letters_marks]
      split
      · exact Or.inr rfl
      · exact Or.inl rfl
    rw [listed_flags]
    exact congrArg (· ||| (if isNew q st.ctime then FNEW else 0)) kept
  · have rebuilt : ∀ p, ((names (listed q list n st list.execT default).exec).foldl Tinsert
        (.empty : NameTree)).search p = (listed q list n st list.execT default).exec.search p := by
      intro p
      rw [names, List.foldl_map]
      refine (search_rebuild (g := fun _ _ => ()) (fun u e q => search_Tinsert u e.1 q)
        (listed q list n st list.execT default).exec
        (fun command member => ?_) p).trans ?_
      · obtain ⟨t, found, inside⟩ := mem_exec_listed member
        exact (presentable.commands n t found command inside).1
      cases (listed q list n st list.execT default).exec.search p <;> rfl
    exact congrArg (List.map Prod.fst) (SearchTree.toList_eq_of_search rebuilt)

theorem Legible.entry_seen (legible : Legible anyglob list lasttime) {e : CString × Node}
    (inside : e ∈ (scanned anyglob list lasttime).toList) : ∃ v ∈ sights anyglob list,
      v.name = e.1 ∧ listed ⟨.empty, lasttime, false⟩ list e.1 v.st list.execT default = e.2 := by
  have found : (scanned anyglob list lasttime).search e.1 = some e.2 :=
    SearchTree.mem_toList.mp inside
  rw [scanned_search fun v member => (legible.files v member).1] at found
  obtain ⟨v, seen, same⟩ := Option.map_eq_some_iff.mp found
  exact ⟨v, List.mem_of_find?_eq_some seen, by simpa using List.find?_some seen, same⟩

theorem Legible.lines (legible : Legible anyglob list lasttime) :
    versionedLines (makescanfile (scanned anyglob list lasttime)) =
      some ((scanned anyglob list lasttime).toList.flatMap recordLines) := by
  refine versionedLines_makescanfile (fun line inside => ?_) legible.short
  obtain ⟨e, inside, here⟩ := List.mem_flatMap.mp inside
  obtain ⟨v, seen, name, node⟩ := legible.entry_seen inside
  refine clean_recordLines ?_ (fun command inside => ?_) line here
  · rw [← name]
    exact (legible.files v seen).2
  · rw [← node] at inside
    obtain ⟨t, found, inside⟩ := mem_exec_listed inside
    exact legible.commands _ t found command inside

theorem readScanfile_search (legible : Legible anyglob list lasttime) {mtime : CInt}
    (read : ¬(q.newonly = true ∧ mtime = q.lasttime)) (listTL : List NodeTree) :
    ∃ t listTL', readScanfile q mtime (makescanfile (scanned anyglob list lasttime)) listTL =
        some (some (t, listTL')) ∧
      ∀ n, t.search n = (((sights anyglob list).find? fun v => v.name = n).filter fun v =>
        wanted q v.st && (Tlookup q.refuseT n).isNone).map fun v =>
          (entryOf (n, listed ⟨.empty, lasttime, false⟩ list n v.st list.execT default)).node q
            default := by
  have canonical : ∀ e ∈ (scanned anyglob list lasttime).toList.map entryOf, Canonical e.name := by
    intro e inside
    obtain ⟨e', inside', rfl⟩ := List.mem_map.mp inside
    obtain ⟨v, seen, name, -⟩ := legible.entry_seen inside'
    change Canonical e'.1
    rw [← name]
    exact (legible.files v seen).1
  have distinct : (((scanned anyglob list lasttime).toList.map entryOf).map
      ScanEntry.name).Nodup := by
    rw [List.map_map]
    refine List.Pairwise.map _ ?_ (scanned anyglob list lasttime).ordered
    exact fun _ _ less => ne_of_lt less
  obtain ⟨s, ran, -, found⟩ := take_entries (q := q)
    ((scanned anyglob list lasttime).toList.map entryOf) canonical distinct
    ⟨.empty, listTL, none, false⟩
  refine ⟨s.listT, s.listTL, ?_, fun n => ?_⟩
  · have unskipped : ¬(q.newonly && mtime = q.lasttime) = true := by
      rw [Bool.and_eq_true, decide_eq_true_eq]
      exact read
    rw [readScanfile, legible.lines]
    dsimp only
    rw [if_neg unskipped, parse_lines, Option.bind_some, getscanfile, if_neg unskipped, ran]
    rfl
  · rw [found, SearchTree.search_empty, find?_and, List.find?_map]
    · have search : (scanned anyglob list lasttime).toList.find?
          ((fun e : ScanEntry => decide (e.name = n)) ∘ entryOf) =
          ((scanned anyglob list lasttime).search n).map fun t => (n, t) :=
        SearchTree.find?_toList _ n
      rw [search, scanned_search fun v member => (legible.files v member).1]
      cases (sights anyglob list).find? fun v => v.name = n with
      | none => rfl
      | some v =>
          rw [Option.map_some, Option.map_some, Option.map_some, Option.filter_some,
            Option.filter_some]
          have taken : (entryOf (n, listed ⟨.empty, lasttime, false⟩ list n v.st list.execT
              default)).taken q = (wanted q v.st && (Tlookup q.refuseT n).isNone) := rfl
          rw [taken]
          cases wanted q v.st && (Tlookup q.refuseT n).isNone with
          | true => rfl
          | false => rfl
    · intro e inside e' inside' name name'
      have same : e.name = e'.name := (of_decide_eq_true name).trans (of_decide_eq_true name').symm
      rw [List.inj_on_of_nodup_map distinct inside inside' same]

end Trees

/-! ## The theorem -/

section Theorem

variable {anyglob : CString → CString → Bool} {list : ListFile} {q : Request}
  {lasttime mtime : CInt} {listTL : List NodeTree}

theorem find?_of_mem {l : List Sight} {v : Sight} (member : v ∈ l) :
    ∃ w, l.find? (fun w => w.name = v.name) = some w ∧ w ∈ l ∧ w.name = v.name := by
  have some : (l.find? fun w => w.name = v.name).isSome :=
    List.find?_isSome.mpr ⟨v, member, decide_eq_true rfl⟩
  obtain ⟨w, found⟩ := Option.isSome_iff_exists.mp some
  exact ⟨w, found, List.mem_of_find?_eq_some found, by simpa using List.find?_some found⟩

/-- What stands for the scan has no file of which a refused directory was on the way. -/
theorem StandsFor.refusedByName (stands : StandsFor anyglob list lasttime q mtime listTL)
    (presentable : Presentable anyglob list lasttime)
    (read : ¬(q.newonly = true ∧ mtime = q.lasttime)) : RefusedByName anyglob list q := by
  obtain ⟨t, listTL', ran, same⟩ := stands
  obtain ⟨t', listTL'', ran', found⟩ := readScanfile_search presentable.legible read listTL
  obtain ⟨rfl, -⟩ : t = t' ∧ listTL' = listTL'' := by simpa using ran.symm.trans ran'
  intro v member wants unrefused
  obtain ⟨w, first, member', name⟩ := find?_of_mem member
  have entry := same v.name
  rw [found, first, Option.filter_some, (presentable.files v member).2.2 w member' name, wants,
    unrefused, doscan_search presentable] at entry
  cases there : (reachedSights anyglob list q.refuseT).find? fun w => w.name = v.name with
  | none =>
      rw [there] at entry
      exact absurd entry nofun
  | some u => exact ⟨u, List.mem_of_find?_eq_some there, by simpa using List.find?_some there⟩

theorem standsFor_iff {q : Request} {mtime : CInt} (presentable : Presentable anyglob list lasttime)
    (read : ¬(q.newonly = true ∧ mtime = q.lasttime)) (listTL : List NodeTree) :
    StandsFor anyglob list lasttime q mtime listTL ↔ RefusedByName anyglob list q := by
  refine ⟨fun stands => stands.refusedByName presentable read, fun refused => ?_⟩
  obtain ⟨t, listTL', ran, found⟩ := readScanfile_search presentable.legible read listTL
  refine ⟨t, listTL', ran, fun n => ?_⟩
  rw [found, doscan_search presentable]
  have seen : ∀ w ∈ reachedSights anyglob list q.refuseT, w ∈ sights anyglob list :=
    fun w member => (List.mem_filter.mp member).1
  cases first : (sights anyglob list).find? fun v => v.name = n with
  | none =>
      have unreached : (reachedSights anyglob list q.refuseT).find? (fun v => v.name = n) = none :=
        List.find?_eq_none.mpr fun w member => List.find?_eq_none.mp first w (seen w member)
      rw [unreached]
      exact Option.Rel.none
  | some v =>
      have member := List.mem_of_find?_eq_some first
      have name : v.name = n := by simpa using List.find?_some first
      rw [Option.filter_some]
      by_cases wants : wanted q v.st = true
      · cases looked : Tlookup q.refuseT n with
        | none =>
            obtain ⟨w, reached, name'⟩ := refused v member wants (name ▸ looked)
            obtain ⟨u, there, reached', name''⟩ := find?_of_mem reached
            have same : u.st = v.st :=
              (presentable.files v member).2.2 u (seen u reached') (name''.trans name')
            rw [name', name] at there
            rw [there, Option.filter_some, same, wants]
            refine Option.Rel.some ?_
            dsimp only
            rw [same]
            exact sameNode_entryOf presentable q n v.st
        | some node =>
            have unreached : (reachedSights anyglob list q.refuseT).find? (fun v => v.name = n) =
                none := by
              refine List.find?_eq_none.mpr fun w inside name' => ?_
              have passed := List.all_eq_true.mp (List.mem_filter.mp inside).2 w.name
                (List.mem_append_right w.trail List.mem_cons_self)
              rw [of_decide_eq_true name', looked] at passed
              exact absurd passed nofun
            rw [unreached, Option.isNone_some, Bool.and_false]
            exact Option.Rel.none
      · rw [Bool.eq_false_iff.mpr wants, Bool.false_and]
        cases there : (reachedSights anyglob list q.refuseT).find? fun v => v.name = n with
        | none => exact Option.Rel.none
        | some w =>
            have name' : w.name = n := by simpa using List.find?_some there
            have same : w.st = v.st := (presentable.files v member).2.2 w
              (seen w (List.mem_of_find?_eq_some there)) (name'.trans name.symm)
            rw [Option.filter_some, same, Bool.eq_false_iff.mpr wants]
            exact Option.Rel.none

end Theorem

/-! ## Two list files -/

/-- `x`. -/
def nameX : CString := ⟨[120], by decide⟩

/-- `d`. -/
def directoryD : CString := ⟨[100], noNul_d⟩

/-- `d/`. -/
def directorySlash : CString := ⟨[100, 47], by decide⟩

/-- A directory with the file `x` in it. -/
def withX : File :=
  .mk (some ⟨S_IFDIR ||| 0o755, 1, 1⟩) none true
    [(nameX, .mk (some ⟨S_IFREG ||| 0o644, 1, 1⟩) none true [])]

/-- The list file has one line `upgrade`, for a directory with `x` in it. -/
def upgradeDirectory (name : CString) : ListFile where
  upgT := SearchTree.empty.insert name false
  flagsT := .empty
  omitT := .empty
  omanyT := .empty
  execT := .empty
  symT := .empty
  rsymT := .empty
  file _ := withX
  flagsOnly := empty_flagsOnly

/-- A directory and what is in it are refused. -/
def refusing (name : CString) : Request := ⟨Tinsert .empty name, 0, false⟩

theorem presentable_slash :
    Presentable (fun _ _ => false) (upgradeDirectory directorySlash) 0 where
  files := by decide
  commands := fun _ _ found => absurd found nofun
  short := by decide

theorem presentable_plain : Presentable (fun _ _ => false) (upgradeDirectory directoryD) 0 where
  files := by decide
  commands := fun _ _ found => absurd found nofun
  short := by decide

/-- `d` is listed, and `d` is refused. -/
theorem standsFor_plain : StandsFor (fun _ _ => false) (upgradeDirectory directoryD) 0
    (refusing directoryD) 5 [] := by
  refine (standsFor_iff presentable_plain (by decide) []).mpr ?_
  have refused : ∀ v ∈ sights (fun _ _ => false) (upgradeDirectory directoryD),
      (Tlookup (refusing directoryD).refuseT v.name).isSome = true := by decide
  intro v member _ unrefused
  have some := refused v member
  rw [unrefused] at some
  exact absurd some nofun

/-- `d/` is listed and `d/` is refused, but `d/x` is not. -/
theorem refused_slash : ¬StandsFor (fun _ _ => false) (upgradeDirectory directorySlash) 0
    (refusing directorySlash) 5 [] := by
  intro stands
  have refused := stands.refusedByName presentable_slash (by decide)
  have none : reachedSights (fun _ _ => false) (upgradeDirectory directorySlash)
      (refusing directorySlash).refuseT = [] := by
    refine List.filter_eq_nil_iff.mpr ?_
    decide
  have seen : ∃ v ∈ sights (fun _ _ => false) (upgradeDirectory directorySlash),
      wanted (refusing directorySlash) v.st = true ∧
        (Tlookup (refusing directorySlash).refuseT v.name).isNone = true := by decide
  obtain ⟨v, member, wants, unrefused⟩ := seen
  obtain ⟨w, reached, -⟩ := refused v member wants (Option.isNone_iff_eq_none.mp unrefused)
  rw [none] at reached
  exact absurd reached List.not_mem_nil

end MachFormal.Sup.Lists
