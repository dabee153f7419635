import Mathlib.Data.List.Find
import MachFormal.Sup.Lists

/-!
# What a scan of the disk gets to see

The files that the scan comes to, each with the directories it came through, do not
depend on what the client refuses.  The scan for a client lists those of them that are
not refused and that lie in no refused directory on the way.
-/

namespace MachFormal.Sup.Lists

open Library

/-- A file, and the directories through which the scan came to it. -/
structure Sight where
  trail : List CString
  name : CString
  st : FileStat

section Sights

variable (anyglob : CString → CString → Bool) (list : ListFile)

mutual

/-- What `listentry` comes to, with nothing refused. -/
def sightsAt (trail : List CString) (fullname : CString) (always : Bool) : File → List Sight
  | .mk lstat stat usable contents =>
      if omitted anyglob list always fullname then []
      else
        match examine list fullname lstat stat with
        | none => []
        | some (st, true) => [⟨trail, fullname, st⟩]
        | some (st, false) =>
            if !usable then []
            else if fmt st.mode = S_IFDIR then
              ⟨trail, fullname, st⟩ :: sightsIn (trail ++ [fullname]) fullname always contents
            else [⟨trail, fullname, st⟩]

/-- What `listdir` comes to. -/
def sightsIn (trail : List CString) (name : CString) (always : Bool) :
    List (CString × File) → List Sight
  | [] => []
  | (ename, file) :: rest =>
      sightsAt trail (filename name ename) always file ++ sightsIn trail name always rest

end

/-- Everything that the scan comes to. -/
def sights : List Sight :=
  list.upgT.toList.flatMap fun upgrade => sightsAt anyglob list [] upgrade.1 upgrade.2
    (list.file upgrade.1)

/-- Nothing on the way to the file is refused, nor the file itself. -/
def Sight.reached (refuseT : NodeTree) (v : Sight) : Bool :=
  (v.trail ++ [v.name]).all fun name => (Tlookup refuseT name).isNone

/-- What the scan lists for a client. -/
def reachedSights (refuseT : NodeTree) : List Sight :=
  (sights anyglob list).filter (Sight.reached refuseT)

variable {anyglob} {list}

mutual

/-- The way to a file leads through the name that the scan was given. -/
theorem sightsAt_trail {trail : List CString} {fullname : CString} {always : Bool} :
    ∀ (file : File), ∀ v ∈ sightsAt anyglob list trail fullname always file,
      trail ++ [fullname] <+: v.trail ++ [v.name]
  | .mk lstat stat usable contents => by
      intro v member
      rw [sightsAt] at member
      split at member
      · exact absurd member List.not_mem_nil
      split at member
      · exact absurd member List.not_mem_nil
      · obtain rfl := List.mem_singleton.mp member
        exact List.prefix_refl _
      · split at member
        · exact absurd member List.not_mem_nil
        split at member
        · rcases List.mem_cons.mp member with rfl | member
          · exact List.prefix_refl _
          · exact sightsIn_trail contents v member
        · obtain rfl := List.mem_singleton.mp member
          exact List.prefix_refl _

theorem sightsIn_trail {trail : List CString} {name : CString} {always : Bool} :
    ∀ (contents : List (CString × File)), ∀ v ∈ sightsIn anyglob list trail name always contents,
      trail <+: v.trail ++ [v.name]
  | [] => fun v member => absurd member (by rw [sightsIn]; exact List.not_mem_nil)
  | (ename, file) :: rest => by
      intro v member
      rw [sightsIn] at member
      rcases List.mem_append.mp member with member | member
      · exact (List.prefix_append _ _).trans (sightsAt_trail file v member)
      · exact sightsIn_trail rest v member

end

variable {q : Request}

/-- `listname`, for a file that the scan comes to. -/
def Sight.enter (q : Request) (list : ListFile) (s : Scan) (v : Sight) : Scan :=
  listname q list v.name v.st s

theorem filter_reached_of_refused {refuseT : NodeTree} {name : CString} {l : List Sight}
    (refused : (Tlookup refuseT name).isSome) (through : ∀ v ∈ l, name ∈ v.trail ++ [v.name]) :
    l.filter (Sight.reached refuseT) = [] := by
  refine List.filter_eq_nil_iff.mpr fun v member reached => ?_
  have passed := List.all_eq_true.mp reached name (through v member)
  rw [Option.isNone_iff_eq_none] at passed
  rw [passed] at refused
  exact absurd refused nofun

mutual

/-- The scan lists what can be reached. -/
theorem listentry_eq {trail : List CString} {fullname : CString} {always : Bool}
    (passed : ∀ name ∈ trail, (Tlookup q.refuseT name).isNone) :
    ∀ (file : File) (s : Scan), listentry anyglob q list fullname always file s =
      ((sightsAt anyglob list trail fullname always file).filter
        (Sight.reached q.refuseT)).foldl (Sight.enter q list) s
  | .mk lstat stat usable contents, s => by
      by_cases refused : (Tlookup q.refuseT fullname).isSome
      · rw [listentry, if_pos refused, filter_reached_of_refused refused, List.foldl_nil]
        intro v member
        exact (sightsAt_trail _ v member).subset
          (List.mem_append_right trail List.mem_cons_self)
      · have passed' : ∀ name ∈ trail ++ [fullname], (Tlookup q.refuseT name).isNone := by
          intro name member
          rcases List.mem_append.mp member with member | member
          · exact passed name member
          · rw [List.mem_singleton.mp member]
            exact Option.isNone_iff_eq_none.mpr (Option.not_isSome_iff_eq_none.mp refused)
        have reached : ∀ st, Sight.reached q.refuseT ⟨trail, fullname, st⟩ = true :=
          fun st => List.all_eq_true.mpr passed'
        rw [listentry, if_neg refused, sightsAt]
        split
        · rfl
        cases examine list fullname lstat stat with
        | none => rfl
        | some found =>
            obtain ⟨st, linked⟩ := found
            cases linked with
            | true =>
                dsimp only
                rw [List.filter_cons_of_pos (reached st)]
                rfl
            | false =>
                dsimp only
                split
                · rfl
                split
                · rw [List.filter_cons_of_pos (reached st), List.foldl_cons,
                    listdir_eq passed' contents]
                  rfl
                · rw [List.filter_cons_of_pos (reached st)]
                  rfl

theorem listdir_eq {trail : List CString} {name : CString} {always : Bool}
    (passed : ∀ name ∈ trail, (Tlookup q.refuseT name).isNone) :
    ∀ (contents : List (CString × File)) (s : Scan),
      listdir anyglob q list name always contents s =
        ((sightsIn anyglob list trail name always contents).filter
          (Sight.reached q.refuseT)).foldl (Sight.enter q list) s
  | [], s => by
      rw [listdir, sightsIn]
      rfl
  | (ename, file) :: rest, s => by
      rw [listdir, sightsIn, List.filter_append, List.foldl_append, listdir_eq passed rest,
        listentry_eq passed file]

end

theorem doscan_eq (listTL : List NodeTree) : doscan anyglob q list listTL =
    (reachedSights anyglob list q.refuseT).foldl (Sight.enter q list)
      ⟨.empty, listTL, list.execT⟩ := by
  have fold : ∀ (upgrades : List (CString × Bool)) (s : Scan),
      upgrades.foldl (listone anyglob q list) s =
        ((upgrades.flatMap fun upgrade => sightsAt anyglob list [] upgrade.1 upgrade.2
          (list.file upgrade.1)).filter (Sight.reached q.refuseT)).foldl
            (Sight.enter q list) s := by
    intro upgrades
    induction upgrades with
    | nil => exact fun s => rfl
    | cons upgrade upgrades ih =>
        intro s
        rw [List.foldl_cons, ih, listone, listentry_eq (List.forall_mem_nil _), List.flatMap_cons,
          List.filter_append, List.foldl_append]
  exact fold list.upgT.toList _

/-! ## What the scan makes of it -/

/-- The list has the file: it is new, or all files are listed. -/
def wanted (q : Request) (st : FileStat) : Bool := !(q.newonly && !isNew q st.ctime)

/-- An entry is made of the first file of its name, with the commands of the name under which the
scan came to it. -/
theorem fold_listed (l : List Sight) (s : Scan) (n : CString) :
    (l.foldl (Sight.enter q list) s).listT.search n =
      match s.listT.search n with
      | some t => some t
      | none => (l.find? fun v => strip v.name = n && wanted q v.st).map fun v =>
          listed q list v.name v.st s.execT default := by
  induction l generalizing s with
  | nil =>
      rw [List.foldl_nil]
      cases s.listT.search n <;> rfl
  | cons v l ih =>
      rw [List.foldl_cons, ih, Sight.enter, listname, List.find?_cons]
      by_cases passed : q.newonly && !isNew q v.st.ctime
      · have unwanted : wanted q v.st = false := by rw [wanted, passed]; rfl
        rw [if_pos passed, unwanted, Bool.and_false]
      · have wants : wanted q v.st = true := by rw [wanted, Bool.eq_false_iff.mpr passed]; rfl
        rw [if_neg passed, wants, Bool.and_true]
        cases before : s.listT.search (strip v.name) with
        | some t =>
            -- the name is there already, and stays as it is
            by_cases here : strip v.name = n
            · rw [← here, before]
            · rw [decide_eq_false here]
        | none =>
            dsimp only
            rw [search_Tadd]
            by_cases here : strip v.name = n
            · subst here
              rw [if_pos ⟨rfl, before⟩, before, decide_eq_true rfl]
              rfl
            · rw [if_neg fun both => here both.1.symm, decide_eq_false here]
              cases s.listT.search n with
              | some t => rfl
              | none =>
                  -- only the commands of the name that was listed are gone
                  refine Option.map_congr fun w found => ?_
                  have name : strip w.name = n := by
                    have both := List.find?_some found
                    rw [Bool.and_eq_true, decide_eq_true_eq] at both
                    exact both.1
                  have other : w.name ≠ v.name := fun same => here (same ▸ name)
                  rw [listed, listed, SearchTree.search_modify, if_neg other]

/-- Names that are inserted as they are. -/
theorem fold_search {l : List Sight} (canonical : ∀ v ∈ l, Canonical v.name) (s : Scan)
    (n : CString) : (l.foldl (Sight.enter q list) s).listT.search n =
      match s.listT.search n with
      | some t => some t
      | none => (l.find? fun v => v.name = n && wanted q v.st).map fun v =>
          listed q list n v.st s.execT default := by
  have same : (l.find? fun v => strip v.name = n && wanted q v.st) =
      l.find? fun v => v.name = n && wanted q v.st := by
    refine List.find?_congr fun v member => ?_
    rw [show strip v.name = v.name from canonical v member]
  rw [fold_listed, same]
  cases s.listT.search n with
  | some t => rfl
  | none =>
      refine Option.map_congr fun v found => ?_
      have both := List.find?_some found
      rw [Bool.and_eq_true, decide_eq_true_eq] at both
      rw [both.1]

/-- The entries of some names lose `FNEW`. -/
def Hides (c : CString → Prop) (listTL listTL' : List NodeTree) : Prop :=
  ∃ f : NodeTree → NodeTree, listTL' = listTL.map f ∧
    ∀ t n, (c n → (f t).search n = (t.search n).map Node.old) ∧ (¬c n → (f t).search n = t.search n)

theorem Node.old_old (t : Node) : Node.old (Node.old t) = Node.old t := by
  have twice : t.flags &&& ~~~FNEW &&& ~~~FNEW = t.flags &&& ~~~FNEW := by
    rw [BitVec.and_assoc, BitVec.and_self]
  rw [Node.old, Node.old, twice]

theorem Hides.refl (listTL : List NodeTree) : Hides (fun _ => False) listTL listTL :=
  ⟨id, (List.map_id listTL).symm, fun _ _ => ⟨False.elim, fun _ => rfl⟩⟩

theorem Hides.trans {c d : CString → Prop} {first second third : List NodeTree}
    (hides : Hides c first second) (hides' : Hides d second third) :
    Hides (fun n => c n ∨ d n) first third := by
  obtain ⟨f, rfl, spec⟩ := hides
  obtain ⟨g, rfl, spec'⟩ := hides'
  refine ⟨fun t => g (f t), by rw [List.map_map]; rfl, fun t n => ⟨fun either => ?_, ?_⟩⟩
  · by_cases later : d n
    · rw [(spec' (f t) n).1 later]
      by_cases earlier : c n
      · rw [(spec t n).1 earlier, Option.map_map]
        exact congrArg (Option.map · _) (funext Node.old_old)
      · rw [(spec t n).2 earlier]
    · rw [(spec' (f t) n).2 later, (spec t n).1 (either.resolve_right later)]
  · intro neither
    rw [(spec' (f t) n).2 fun later => neither (Or.inr later),
      (spec t n).2 fun earlier => neither (Or.inl earlier)]

theorem Hides.congr {c d : CString → Prop} {first second : List NodeTree}
    (hides : Hides c first second) (same : ∀ n, c n ↔ d n) : Hides d first second := by
  obtain rfl : c = d := funext fun n => propext (same n)
  exact hides

theorem hides_hide (name : CString) (listTL : List NodeTree) :
    Hides (· = name) listTL (hide name listTL) := by
  refine ⟨fun t => t.modify name Node.old, rfl, fun t n => ⟨fun same => ?_, fun other => ?_⟩⟩
  · rw [SearchTree.search_modify, if_pos same, same]
  · rw [SearchTree.search_modify, if_neg other]

theorem fold_hides (l : List Sight) (s : Scan) :
    Hides (fun n => ∃ v ∈ l, v.name = n ∧ wanted q v.st = false) s.listTL
      (l.foldl (Sight.enter q list) s).listTL := by
  induction l generalizing s with
  | nil => exact (Hides.refl _).congr fun n => by simp
  | cons v l ih =>
      rw [List.foldl_cons]
      have step : Hides (fun n => v.name = n ∧ wanted q v.st = false) s.listTL
          (Sight.enter q list s v).listTL := by
        rw [Sight.enter, listname]
        by_cases passed : q.newonly && !isNew q v.st.ctime
        · have unwanted : wanted q v.st = false := by rw [wanted, passed]; rfl
          rw [if_pos passed]
          refine (hides_hide v.name s.listTL).congr fun n => ?_
          rw [and_iff_left unwanted]
          exact eq_comm
        · have wants : wanted q v.st = true := by rw [wanted, Bool.eq_false_iff.mpr passed]; rfl
          rw [if_neg passed, wants]
          have unchanged : Hides (fun n => v.name = n ∧ true = false) s.listTL s.listTL :=
            (Hides.refl _).congr fun n => by simp
          split
          · exact unchanged
          · exact unchanged
      exact (step.trans (ih _)).congr fun n => by simp [List.mem_cons, or_and_right, exists_or]

end Sights

/-! ## What is read from a scan file -/

section Entries

variable {q : Request}

/-- The list has the entry. -/
def ScanEntry.taken (q : Request) (e : ScanEntry) : Bool :=
  wanted q e.st && (Tlookup q.refuseT e.name).isNone

/-- The commands are added one by one. -/
def addCommands (commands : List CString) (t : Node) : Node :=
  { t with exec := commands.foldl Tinsert t.exec }

/-- The node that an entry gives. -/
def ScanEntry.node (q : Request) (e : ScanEntry) (t : Node) : Node :=
  addCommands e.exec
    (filled (letters e.backup e.noacct ||| (if isNew q e.st.ctime then FNEW else 0)) e.st t)

theorem take_commands {name : CString} (commands : List CString) (s : Reading)
    (current : s.t = some name) (keeps : s.notwanted = false) :
    ∃ s', (commands.map ScanLine.exec).foldlM (takeline q) s = some s' ∧
      s'.listTL = s.listTL ∧ ∀ n, s'.listT.search n =
        if n = name then (s.listT.search n).map (addCommands commands) else s.listT.search n := by
  induction commands generalizing s with
  | nil =>
      refine ⟨s, rfl, rfl, fun n => ?_⟩
      have same : addCommands [] = id := rfl
      rw [same, Option.map_id, id, ite_self]
  | cons command commands ih =>
      have step : takeline q s (.exec command) = some { s with
          listT := s.listT.modify name fun t => { t with exec := Tinsert t.exec command } } := by
        rw [takeline, keeps, if_neg nofun, current]
      obtain ⟨s', ran, same, found⟩ := ih { s with
          listT := s.listT.modify name fun t => { t with exec := Tinsert t.exec command } }
        current keeps
      refine ⟨s', ?_, same, fun n => ?_⟩
      · rw [List.map_cons, List.foldlM_cons, step]
        exact ran
      · rw [found, SearchTree.search_modify]
        by_cases here : n = name
        · rw [if_pos here, if_pos here, if_pos here, Option.map_map, here]
          rfl
        · rw [if_neg here, if_neg here, if_neg here]

theorem skip_commands (commands : List CString) (s : Reading) (skips : s.notwanted = true) :
    (commands.map ScanLine.exec).foldlM (takeline q) s = some s := by
  induction commands with
  | nil => rfl
  | cons command commands ih =>
      rw [List.map_cons, List.foldlM_cons, takeline, if_pos skips]
      exact ih

theorem take_entry (e : ScanEntry) (canonical : Canonical e.name) (s : Reading) :
    ∃ s', e.lines.foldlM (takeline q) s = some s' ∧
      Hides (fun n => e.name = n ∧ wanted q e.st = false) s.listTL s'.listTL ∧
      ∀ n, s'.listT.search n = if e.name = n ∧ e.taken q then
        some (e.node q ((s.listT.search n).getD default)) else s.listT.search n := by
  have same : strip e.name = e.name := canonical
  rw [ScanEntry.lines, List.foldlM_cons, takeline]
  by_cases passed : !isNew q e.st.ctime && q.newonly
  · have unwanted : wanted q e.st = false := by rw [wanted, Bool.and_comm, passed]; rfl
    rw [if_pos passed, Option.bind_eq_bind, Option.bind_some, skip_commands _ _ rfl]
    refine ⟨_, rfl, ?_, fun n => (if_neg fun both => ?_).symm⟩
    · refine (hides_hide e.name s.listTL).congr fun n => ?_
      rw [and_iff_left unwanted]
      exact eq_comm
    · have taken := both.2
      rw [ScanEntry.taken, unwanted] at taken
      exact absurd taken nofun
  · have wants : wanted q e.st = true := by
      rw [wanted, Bool.and_comm, Bool.eq_false_iff.mpr passed]
      rfl
    have unchanged : Hides (fun n => e.name = n ∧ wanted q e.st = false) s.listTL s.listTL :=
      (Hides.refl _).congr fun n => by simp [wants]
    rw [if_neg passed]
    by_cases refused : (Tlookup q.refuseT e.name).isSome
    · rw [if_pos refused, Option.bind_eq_bind, Option.bind_some, skip_commands _ _ rfl]
      refine ⟨_, rfl, unchanged, fun n => (if_neg fun both => ?_).symm⟩
      have taken := both.2
      rw [ScanEntry.taken, Bool.and_eq_true, Option.isNone_iff_eq_none] at taken
      rw [taken.2] at refused
      exact absurd refused nofun
    · have taken : e.taken q = true := by
        rw [ScanEntry.taken, wants, Option.not_isSome_iff_eq_none.mp refused]
        rfl
      rw [if_neg refused, Option.bind_eq_bind, Option.bind_some]
      obtain ⟨s', ran, trees, found⟩ := take_commands (q := q) e.exec { s with
          listT := Tfind s.listT e.name
            (filled (letters e.backup e.noacct ||| (if isNew q e.st.ctime then FNEW else 0)) e.st)
          t := some (strip e.name)
          notwanted := false } rfl rfl
      refine ⟨s', ran, trees ▸ unchanged, fun n => ?_⟩
      rw [found, search_Tfind, same]
      by_cases here : e.name = n
      · refine Eq.trans ?_ (if_pos ⟨here, taken⟩).symm
        rw [if_pos here.symm, if_pos here.symm]
        rfl
      · rw [if_neg (Ne.symm here), if_neg (Ne.symm here), if_neg fun both => here both.1]

/-- Entries under different names do not get into each other's way. -/
theorem take_entries (entries : List ScanEntry) (canonical : ∀ e ∈ entries, Canonical e.name)
    (distinct : (entries.map ScanEntry.name).Nodup) (s : Reading) :
    ∃ s', (entries.flatMap ScanEntry.lines).foldlM (takeline q) s = some s' ∧
      Hides (fun n => ∃ e ∈ entries, e.name = n ∧ wanted q e.st = false) s.listTL s'.listTL ∧
      ∀ n, s'.listT.search n =
        match entries.find? fun e => e.name = n && e.taken q with
        | some e => some (e.node q ((s.listT.search n).getD default))
        | none => s.listT.search n := by
  induction entries generalizing s with
  | nil => exact ⟨s, rfl, (Hides.refl _).congr fun n => by simp, fun n => rfl⟩
  | cons e entries ih =>
      obtain ⟨other, distinct'⟩ := List.nodup_cons.mp distinct
      obtain ⟨s', ran, hides, found⟩ := take_entry (q := q) e (canonical e List.mem_cons_self) s
      obtain ⟨s'', ran', hides', found'⟩ :=
        ih (fun e' member => canonical e' (List.mem_cons_of_mem e member)) distinct' s'
      refine ⟨s'', ?_, ?_, fun n => ?_⟩
      · rw [List.flatMap_cons, List.foldlM_append, ran]
        exact ran'
      · exact (hides.trans hides').congr fun n => by
          simp [List.mem_cons, or_and_right, exists_or]
      · rw [found', List.find?_cons]
        by_cases here : e.name = n ∧ e.taken q
        · have later : entries.find? (fun e => e.name = n && e.taken q) = none := by
            refine List.find?_eq_none.mpr fun e' member both => other ?_
            have name : e'.name = n := of_decide_eq_true (Bool.and_eq_true_iff.mp both).1
            rw [here.1, ← name]
            exact List.mem_map_of_mem member
          have hit : (decide (e.name = n) && e.taken q) = true := by
            rw [decide_eq_true here.1, here.2]
            rfl
          rw [later, hit]
          dsimp only
          rw [found, if_pos here]
        · have miss : (decide (e.name = n) && e.taken q) = false := by
            rw [Bool.eq_false_iff]
            intro both
            rw [Bool.and_eq_true, decide_eq_true_eq] at both
            exact here both
          rw [miss]
          dsimp only
          rw [found, if_neg here]

end Entries

end MachFormal.Sup.Lists
