import MachFormal.Sup.Sights
import MachFormal.Sup.SafeDeletion

/-!
# The list of the new files

The list of a chain of releases has each name as the first release has it.  When only the
new files are listed, an old entry hides those of the releases after it by the flags that
it takes away, but only if its release is read: a scan file of the client's own time is
skipped, and then its entries hide nothing.
-/

namespace MachFormal.Sup.Lists

open Library

section Statements

variable (anyglob : CString → CString → Bool) (refuseT : NodeTree) (lasttime : CInt)

/-- The flags that the list file gives to a name. -/
def marks (list : ListFile) (n : CString) : CInt :=
  match list.flagsT.search n with
  | some ts => ts.flags
  | none => 0

/-- The entry of a release for a name that the client does not refuse. -/
def Release.sees (r : Release) (n : CString) : Option (CInt × FileStat) :=
  match r.scanfile with
  | some f =>
      if (Tlookup refuseT n).isSome then none
      else (f.entries.find? fun e => e.name = n).map fun e => (letters e.backup e.noacct, e.st)
  | none =>
      ((reachedSights anyglob r.list refuseT).find? fun v => v.name = n).map fun v =>
        (marks r.list n, v.st)

/-- The scan file has the time of the client's last upgrade. -/
def Release.skipped (r : Release) : Prop := ∃ f, r.scanfile = some f ∧ f.mtime = lasttime

/-- What is taken for granted of a release: the entries of a scan file have different
names and are not newer than the file, and a scan of the disk sees a name always as the
same file; the names are inserted as they are. -/
structure Release.Orderly (r : Release) : Prop where
  entries : ∀ f, r.scanfile = some f → (f.entries.map ScanEntry.name).Nodup ∧
    ∀ e ∈ f.entries, Canonical e.name ∧ e.st.ctime.toInt ≤ f.mtime.toInt
  sights : r.scanfile = none → ∀ v ∈ sights anyglob r.list, Canonical v.name ∧
    ∀ w ∈ sights anyglob r.list, w.name = v.name → w.st = v.st

/-- The list of the new files is the part of the full one with the flag for new files. -/
def SelectsNew (chain : List Release) : Prop :=
  ∃ full new, getscanlists anyglob ⟨refuseT, lasttime, false⟩ chain = some full ∧
    getscanlists anyglob ⟨refuseT, lasttime, true⟩ chain = some new ∧
    ∀ n, new.search n = (full.search n).filter fun t => has t.flags FNEW

/-- An entry that is new and hidden by an old one is hidden also by an old one of a
release that is read. -/
def HiddenByRead (chain : List Release) : Prop :=
  ∀ before r after n first entry, chain = before ++ r :: after →
    before.findSome? (Release.sees anyglob refuseT · n) = some first →
    first.2.ctime.toInt ≤ lasttime.toInt →
    r.sees anyglob refuseT n = some entry → lasttime.toInt < entry.2.ctime.toInt →
    ∃ r' ∈ before, ¬r'.skipped lasttime ∧ ∃ old, r'.sees anyglob refuseT n = some old ∧
      old.2.ctime.toInt ≤ lasttime.toInt

end Statements

/-! ## Nodes of the list -/

section Nodes

variable {q : Request}

/-- What `scanone` copies of a node. -/
def copied (t : Node) : Node :=
  { (default : Node) with mode := t.mode, flags := t.flags, mtime := t.mtime }

/-- The node of the list for an entry. -/
def entryNode (q : Request) (entry : CInt × FileStat) : Node :=
  { (default : Node) with
    mode := entry.2.mode
    flags := entry.1 ||| (if isNew q entry.2.ctime then FNEW else 0)
    mtime := entry.2.mtime }

theorem listed_flags (list : ListFile) (n : CString) (st : FileStat) (execT : NodeTree) :
    (listed q list n st execT default).flags =
      marks list n ||| (if isNew q st.ctime then FNEW else 0) := by
  have fresh : (0 : CInt) ||| FNEW = FNEW := rfl
  have zero : (default : Node).flags = 0 := rfl
  simp only [listed, marks, zero, fresh]
  cases list.flagsT.search n with
  | none => exact BitVec.zero_or.symm
  | some ts => exact BitVec.or_comm _ _

theorem copied_listed (list : ListFile) (n : CString) (st : FileStat) (execT : NodeTree) :
    copied (listed q list n st execT default) = entryNode q (marks list n, st) := by
  rw [copied, entryNode, listed_flags]
  rfl

theorem letters_quiet (backup noacct : Bool) : letters backup noacct &&& FNEW = 0 := by
  revert backup noacct
  decide

theorem marks_quiet (list : ListFile) (n : CString) : marks list n &&& FNEW = 0 := by
  rw [marks]
  cases found : list.flagsT.search n with
  | none => rfl
  | some ts =>
      have only := list.flagsOnly n ts found
      have inside : FNEW = ~~~(FBACKUP ||| FNOACCT) &&& FNEW := by decide
      dsimp only
      rw [inside, ← BitVec.and_assoc, only]
      rfl

theorem has_entryNode {entry : CInt × FileStat} (quiet : entry.1 &&& FNEW = 0) :
    has (entryNode q entry).flags FNEW = isNew q entry.2.ctime := by
  rw [has, entryNode]
  cases isNew q entry.2.ctime with
  | false => simp [quiet]
  | true =>
      have kept : (entry.1 ||| FNEW) &&& FNEW = FNEW := by
        rw [BitVec.and_or_distrib_right, quiet]
        rfl
      rw [if_pos rfl, kept]
      decide

theorem has_old (t : Node) : has (Node.old t).flags FNEW = false := by
  have none : t.flags &&& ~~~FNEW &&& FNEW = 0 := by
    rw [BitVec.and_assoc, BitVec.not_and_self]
    exact BitVec.and_zero
  rw [has, Node.old, none]
  rfl

end Nodes

/-! ## The tree of one release -/

section Trees

variable {anyglob : CString → CString → Bool} {q : Request} {r : Release}

/-- The old entries that take `FNEW` away. -/
def Release.hides (anyglob : CString → CString → Bool) (q : Request) (r : Release) (n : CString) :
    Prop :=
  q.newonly = true ∧ ¬r.skipped q.lasttime ∧
    match r.scanfile with
    | some f => ∃ e ∈ f.entries, e.name = n ∧ isNew q e.st.ctime = false
    | none => ∃ v ∈ reachedSights anyglob r.list q.refuseT, v.name = n ∧
        isNew q v.st.ctime = false

theorem wanted_eq_false {st : FileStat} :
    wanted q st = false ↔ q.newonly = true ∧ isNew q st.ctime = false := by
  rw [wanted]
  cases q.newonly <;> cases isNew q st.ctime <;> simp

theorem Release.sees_quiet {n : CString} {entry : CInt × FileStat}
    (sees : r.sees anyglob q.refuseT n = some entry) : entry.1 &&& FNEW = 0 := by
  rw [Release.sees] at sees
  split at sees
  · split at sees
    · exact absurd sees nofun
    · obtain ⟨e, -, rfl⟩ := Option.map_eq_some_iff.mp sees
      exact letters_quiet _ _
  · obtain ⟨v, -, rfl⟩ := Option.map_eq_some_iff.mp sees
    exact marks_quiet _ _

theorem find?_and {α : Type} {l : List α} {p w : α → Bool}
    (same : ∀ a ∈ l, ∀ b ∈ l, p a → p b → w a = w b) :
    l.find? (fun a => p a && w a) = (l.find? p).filter w := by
  induction l with
  | nil => rfl
  | cons a l ih =>
      have ih' := ih fun b member c member' =>
        same b (List.mem_cons_of_mem a member) c (List.mem_cons_of_mem a member')
      rw [List.find?_cons, List.find?_cons]
      cases hit : p a with
      | false => exact ih'
      | true =>
          cases wants : w a with
          | true => exact (if_pos wants).symm
          | false =>
              simp only [Bool.and_false, Option.filter_some, wants]
              refine (List.find?_eq_none.mpr fun b member both => ?_)
              rw [Bool.and_eq_true] at both
              have equal := same a List.mem_cons_self b (List.mem_cons_of_mem a member) hit both.1
              rw [wants, both.2] at equal
              exact absurd equal nofun

/-- A scan of the disk. -/
theorem doscan_spec (orderly : r.Orderly anyglob) (disk : r.scanfile = none)
    (listTL : List NodeTree) :
    Hides (r.hides anyglob q) listTL (doscan anyglob q r.list listTL).listTL ∧
      ∀ n, ((doscan anyglob q r.list listTL).listT.search n).map copied =
        ((r.sees anyglob q.refuseT n).filter fun e => wanted q e.2).map (entryNode q) := by
  have seen : ∀ v ∈ reachedSights anyglob r.list q.refuseT, v ∈ sights anyglob r.list :=
    fun v member => (List.mem_filter.mp member).1
  have plain : ∀ v ∈ reachedSights anyglob r.list q.refuseT, Canonical v.name :=
    fun v member => (orderly.sights disk v (seen v member)).1
  rw [doscan_eq]
  refine ⟨(fold_hides _ _).congr fun n => ?_, fun n => ?_⟩
  · have read : ¬r.skipped q.lasttime := by
      rintro ⟨f, file, -⟩
      rw [disk] at file
      exact absurd file nofun
    simp only [Release.hides, disk, wanted_eq_false, read, not_false_eq_true, true_and]
    constructor
    · rintro ⟨v, member, name, newonly, old⟩
      exact ⟨newonly, v, member, name, old⟩
    · rintro ⟨newonly, v, member, name, old⟩
      exact ⟨v, member, name, newonly, old⟩
  · rw [fold_search plain, SearchTree.search_empty]
    dsimp only
    rw [find?_and]
    · rw [Release.sees, disk]
      dsimp only
      cases (reachedSights anyglob r.list q.refuseT).find? fun v => v.name = n with
      | none => rfl
      | some v =>
          rw [Option.map_some, Option.filter_some, Option.filter_some]
          dsimp only
          split
          · rw [Option.map_some, Option.map_some, Option.map_some, copied_listed]
          · rfl
    · intro v member w member' name name'
      have same : v.name = w.name := (of_decide_eq_true name).trans (of_decide_eq_true name').symm
      rw [(orderly.sights disk w (seen w member')).2 v (seen v member) same]

/-- A scan file that is read. -/
theorem getscanfile_spec (orderly : r.Orderly anyglob) {f : ScanFile} (file : r.scanfile = some f)
    (listTL : List NodeTree) :
    ∃ t listTL', getscanfile q f.mtime f.lines listTL = some (t, listTL') ∧
      Hides (r.hides anyglob q) listTL listTL' ∧
      ∀ n, (t.search n).map copied =
        ((r.sees anyglob q.refuseT n).filter fun e => wanted q e.2).map (entryNode q) := by
  obtain ⟨distinct, entries⟩ := orderly.entries f file
  rw [getscanfile]
  by_cases skip : q.newonly && f.mtime = q.lasttime
  · obtain ⟨newonly, time⟩ : q.newonly = true ∧ f.mtime = q.lasttime := by simpa using skip
    refine ⟨.empty, listTL, if_pos skip, (Hides.refl _).congr fun n => ?_, fun n => ?_⟩
    · exact iff_of_false id fun hides => hides.2.1 ⟨f, file, time⟩
    · -- all entries are old
      refine (Option.map_eq_none_iff.mpr (Option.filter_eq_none_iff.mpr ?_)).symm
      rintro entry sees
      rw [Release.sees, file] at sees
      dsimp only at sees
      split at sees
      · cases sees
      · obtain ⟨e, found, rfl⟩ := Option.map_eq_some_iff.mp sees
        have bound := (entries e (List.mem_of_find?_eq_some found)).2
        have old : isNew q e.st.ctime = false := by
          rw [isNew, decide_eq_false_iff_not, not_lt, ← time]
          exact bound
        rw [wanted_eq_false.mpr ⟨newonly, old⟩]
        exact Bool.false_ne_true
  · obtain ⟨s', ran, hides, found⟩ := take_entries (q := q) f.entries
      (fun e member => (entries e member).1) distinct ⟨.empty, listTL, none, false⟩
    refine ⟨s'.listT, s'.listTL, ?_, hides.congr fun n => ?_, fun n => ?_⟩
    · rw [if_neg skip, ScanFile.lines, ran]
      rfl
    · have read : q.newonly = true → ¬r.skipped q.lasttime := by
        rintro newonly ⟨f', file', time⟩
        obtain rfl := Option.some.inj (file.symm.trans file')
        exact skip (by simp [newonly, time])
      simp only [Release.hides, file, wanted_eq_false]
      constructor
      · rintro ⟨e, member, name, newonly, old⟩
        exact ⟨newonly, read newonly, e, member, name, old⟩
      · rintro ⟨newonly, -, e, member, name, old⟩
        exact ⟨e, member, name, newonly, old⟩
    · rw [found, Release.sees, file, SearchTree.search_empty]
      dsimp only
      have named : ∀ e : ScanEntry, (decide (e.name = n) && e.taken q) =
          (decide (e.name = n) && (wanted q e.st && (Tlookup q.refuseT n).isNone)) := by
        intro e
        by_cases here : e.name = n
        · rw [ScanEntry.taken, here]
        · rw [decide_eq_false here, Bool.false_and, Bool.false_and]
      rw [funext named]
      cases (Tlookup q.refuseT n) with
      | some t =>
          have never : f.entries.find? (fun e => decide (e.name = n) && (wanted q e.st && false)) =
              none := List.find?_eq_none.mpr fun e _ => by simp
          rw [Option.isNone_some, never]
          rfl
      | none =>
          rw [Option.isNone_none, if_neg fun same => by cases same]
          simp only [Bool.and_true]
          rw [find?_and]
          · cases f.entries.find? fun e => e.name = n with
            | none => rfl
            | some e =>
                rw [Option.map_some, Option.filter_some, Option.filter_some]
                dsimp only
                cases wanted q e.st with
                | true => rfl
                | false => rfl
          · intro e member e' member' name name'
            have same : e.name = e'.name :=
              (of_decide_eq_true name).trans (of_decide_eq_true name').symm
            rw [List.inj_on_of_nodup_map distinct member member' same]

/-- The tree of a release, and what it hides in the trees made before. -/
theorem getscan_spec (orderly : r.Orderly anyglob) (listTL : List NodeTree) :
    ∃ t listTL', getscan anyglob q r listTL = some (t, listTL') ∧
      Hides (r.hides anyglob q) listTL listTL' ∧
      ∀ n, (t.search n).map copied =
        ((r.sees anyglob q.refuseT n).filter fun e => wanted q e.2).map (entryNode q) := by
  rw [getscan]
  cases file : r.scanfile with
  | some f => exact getscanfile_spec orderly file listTL
  | none =>
      obtain ⟨hides, found⟩ := doscan_spec (q := q) orderly file listTL
      exact ⟨_, _, rfl, hides, found⟩

theorem Release.sees_canonical {n : CString} {entry : CInt × FileStat} (orderly : r.Orderly anyglob)
    (sees : r.sees anyglob q.refuseT n = some entry) : Canonical n := by
  rw [Release.sees] at sees
  split at sees
  next f file =>
    split at sees
    · exact absurd sees nofun
    · obtain ⟨e, found, -⟩ := Option.map_eq_some_iff.mp sees
      have name : e.name = n := by simpa using List.find?_some found
      exact name ▸ ((orderly.entries f file).2 e (List.mem_of_find?_eq_some found)).1
  next disk =>
    obtain ⟨v, found, -⟩ := Option.map_eq_some_iff.mp sees
    have name : v.name = n := by simpa using List.find?_some found
    have seen := (List.mem_filter.mp (List.mem_of_find?_eq_some found)).1
    exact name ▸ (orderly.sights disk v seen).1

end Trees

/-! ## The trees of a chain -/

section Chain

variable {anyglob : CString → CString → Bool} {q : Request}

/-- What `scanone` takes from a tree. -/
def visible (q : Request) (t : NodeTree) (n : CString) : Option Node :=
  (t.search n).filter fun x => !(q.newonly && !has x.flags FNEW)

/-- The entry of a release, if it is to be listed. -/
def Release.lists (anyglob : CString → CString → Bool) (q : Request) (r : Release) (n : CString) :
    Option Node :=
  ((r.sees anyglob q.refuseT n).filter fun e => wanted q e.2).map (entryNode q)

/-- The trees of the releases, with some names hidden, and those that the releases hide. -/
def Made (anyglob : CString → CString → Bool) (q : Request) :
    (CString → Prop) → List Release → List NodeTree → Prop
  | _, [], listTL => listTL = []
  | hidden, r :: chain, listTL => ∃ t rest, listTL = t :: rest ∧
      (∀ n, (hidden n → visible q t n = none) ∧
        (¬hidden n → (visible q t n).map copied = r.lists anyglob q n)) ∧
      (∀ n ∈ names t, Canonical n) ∧
      Made anyglob q (fun n => hidden n ∨ r.hides anyglob q n) chain rest

theorem visible_old {t u : NodeTree} {n : CString} (newonly : q.newonly = true)
    (hidden : u.search n = (t.search n).map Node.old) : visible q u n = none := by
  rw [visible, hidden]
  refine Option.filter_eq_none_iff.mpr fun x found => ?_
  obtain ⟨y, -, rfl⟩ := Option.map_eq_some_iff.mp found
  rw [has_old, newonly]
  nofun

theorem Made.congr {hidden hidden' : CString → Prop} {chain : List Release}
    {listTL : List NodeTree} (made : Made anyglob q hidden chain listTL)
    (same : ∀ n, hidden n ↔ hidden' n) : Made anyglob q hidden' chain listTL := by
  obtain rfl : hidden = hidden' := funext fun n => propext (same n)
  exact made

/-- What a release hides is hidden in the trees made before. -/
theorem Made.hide {c : CString → Prop} (newonly : ∀ n, c n → q.newonly = true)
    {chain : List Release} {listTL listTL' : List NodeTree} {hidden : CString → Prop}
    (made : Made anyglob q hidden chain listTL) (hides : Hides c listTL listTL') :
    Made anyglob q (fun n => c n ∨ hidden n) chain listTL' := by
  induction chain generalizing listTL listTL' hidden with
  | nil =>
      obtain ⟨f, rfl, -⟩ := hides
      rw [Made] at made ⊢
      rw [made]
      rfl
  | cons r chain ih =>
      obtain ⟨t, rest, rfl, here, plain, later⟩ := made
      obtain ⟨f, rfl, spec⟩ := hides
      refine ⟨f t, rest.map f, rfl, fun n => ?_, ?_, ?_⟩
      · by_cases now : c n
        · exact ⟨fun _ => visible_old (newonly n now) ((spec t n).1 now),
            fun neither => absurd (Or.inl now) neither⟩
        · have same : visible q (f t) n = visible q t n := by
            rw [visible, visible, (spec t n).2 now]
          rw [same]
          exact ⟨fun either => (here n).1 (either.resolve_left now),
            fun neither => (here n).2 fun before => neither (Or.inr before)⟩
      · intro n member
        refine plain n ?_
        rw [mem_names] at member ⊢
        by_cases now : c n
        · rwa [(spec t n).1 now, Option.isSome_map] at member
        · rwa [(spec t n).2 now] at member
      · exact (ih later ⟨f, rfl, spec⟩).congr fun n => or_assoc.symm

theorem getrelease_eq (chain : List Release) : getrelease chain = chain.reverse := by
  have fold : ∀ (l front : List Release), l.foldl (fun listTL r => r :: listTL) front =
      l.reverse ++ front := by
    intro l
    induction l with
    | nil => exact fun front => rfl
    | cons r l ih =>
        intro front
        rw [List.foldl_cons, ih, List.reverse_cons, List.append_assoc]
        rfl
  rw [getrelease, fold, List.append_nil]

/-- The first loop makes the trees of all releases. -/
theorem getscans_spec {chain : List Release} (orderly : ∀ r ∈ chain, r.Orderly anyglob) :
    ∃ listTL, getscans anyglob q (getrelease chain) = some listTL ∧
      Made anyglob q (fun _ => False) chain listTL := by
  rw [getrelease_eq]
  induction chain with
  | nil => exact ⟨[], rfl, rfl⟩
  | cons r chain ih =>
      obtain ⟨listTL, ran, made⟩ := ih fun r' member => orderly r' (List.mem_cons_of_mem r member)
      have orderly' := orderly r List.mem_cons_self
      obtain ⟨t, listTL', scanned, hides, found⟩ := getscan_spec (q := q) orderly' listTL
      refine ⟨t :: listTL', ?_, t, listTL', rfl, fun n => ⟨False.elim, fun _ => ?_⟩, ?_, ?_⟩
      · rw [getscans, List.reverse_cons, List.foldlM_append]
        rw [getscans] at ran
        rw [ran, Option.bind_eq_bind, Option.bind_some, List.foldlM_cons, scanned]
        rfl
      · have all : visible q t n = t.search n := by
          rw [visible]
          cases there : t.search n with
          | none => rfl
          | some x =>
              have copy := found n
              rw [there, Option.map_some] at copy
              obtain ⟨entry, sees, same⟩ := Option.map_eq_some_iff.mp copy.symm
              obtain ⟨sees, wants⟩ := Option.filter_eq_some_iff.mp sees
              have flags : x.flags = (entryNode q entry).flags := by
                rw [same]
                rfl
              rw [Option.filter_some, flags, has_entryNode (Release.sees_quiet sees)]
              exact if_pos wants
        rw [all, found]
        rfl
      · intro n member
        rw [mem_names, Option.isSome_iff_exists] at member
        obtain ⟨x, there⟩ := member
        have copy := found n
        rw [there, Option.map_some] at copy
        obtain ⟨entry, sees, -⟩ := Option.map_eq_some_iff.mp copy.symm
        exact Release.sees_canonical orderly' (Option.filter_eq_some_iff.mp sees).1
      · exact (made.hide (fun n given => given.1) hides).congr fun n => by simp

/-- The list has what is visible first. -/
theorem scanones_search {listTL : List NodeTree} (plain : ∀ t ∈ listTL, ∀ n ∈ names t, Canonical n)
    (n : CString) :
    (scanones q listTL).search n = listTL.findSome? fun t => (visible q t n).map copied := by
  have entries : ∀ (l : List (CString × Node)) (listT : NodeTree), (∀ e ∈ l, Canonical e.1) →
      Table.Sorted l → (l.foldl (scanone q) listT).search n =
        (listT.search n).or (((l.find? fun e => e.1 = n).filter fun e =>
          !(q.newonly && !has e.2.flags FNEW)).map fun e => copied e.2) := by
    intro l
    induction l with
    | nil => exact fun listT _ _ => (Option.or_none).symm
    | cons e l ih =>
        intro listT canonical sorted
        obtain ⟨above, sorted'⟩ := List.pairwise_cons.mp sorted
        have same : strip e.1 = e.1 := canonical e List.mem_cons_self
        rw [List.foldl_cons, ih _ (fun e' member => canonical e' (List.mem_cons_of_mem e member))
          sorted', scanone, List.find?_cons]
        by_cases here : e.1 = n
        · have later : l.find? (fun e => e.1 = n) = none := by
            refine List.find?_eq_none.mpr fun e' member name => ?_
            have less := above e' member
            rw [here, of_decide_eq_true name] at less
            exact lt_irrefl n less
          rw [later, decide_eq_true here]
          dsimp only
          rw [Option.filter_some]
          by_cases passed : q.newonly && !has e.2.flags FNEW
          · rw [if_pos passed, passed]
            rfl
          · rw [if_neg passed, Bool.eq_false_iff.mpr passed, search_Tadd, same, ← here]
            cases listT.search e.1 with
            | none =>
                rw [if_pos ⟨rfl, rfl⟩]
                rfl
            | some x =>
                rw [if_neg fun both => absurd both.2 nofun]
                rfl
        · rw [decide_eq_false here]
          dsimp only
          split
          · rfl
          · rw [search_Tadd, same, if_neg fun both => here both.1.symm]
  have fold : ∀ (l : List NodeTree) (listT : NodeTree), (∀ t ∈ l, ∀ n ∈ names t, Canonical n) →
      (l.foldl (fun listT t => t.toList.foldl (scanone q) listT) listT).search n =
        (listT.search n).or (l.findSome? fun t => (visible q t n).map copied) := by
    intro l
    induction l with
    | nil => exact fun listT _ => (Option.or_none).symm
    | cons t l ih =>
        intro listT plain
        have canonical : ∀ e ∈ t.toList, Canonical e.1 :=
          fun e member => plain t List.mem_cons_self e.1 (List.mem_map_of_mem member)
        rw [List.foldl_cons, ih _ fun t' member => plain t' (List.mem_cons_of_mem t member),
          entries t.toList listT canonical t.ordered, SearchTree.find?_toList, Option.or_assoc,
          List.findSome?_cons, visible]
        congr 1
        cases t.search n with
        | none => rfl
        | some x =>
            rw [Option.map_some, Option.filter_some, Option.filter_some]
            dsimp only
            split
            · rfl
            · rfl
  rw [scanones, fold listTL .empty plain]
  rfl

theorem Made.plain {chain : List Release} {listTL : List NodeTree} {hidden : CString → Prop}
    (made : Made anyglob q hidden chain listTL) : ∀ t ∈ listTL, ∀ n ∈ names t, Canonical n := by
  induction chain generalizing listTL hidden with
  | nil =>
      rw [Made] at made
      rw [made]
      exact fun t member => absurd member List.not_mem_nil
  | cons r chain ih =>
      obtain ⟨t, rest, rfl, -, plain, later⟩ := made
      intro u member
      rcases List.mem_cons.mp member with rfl | member
      · exact plain
      · exact ih later u member

/-- Nothing is listed under a name if every entry is hidden or not wanted. -/
theorem Made.findSome?_eq_none {chain : List Release} {listTL : List NodeTree}
    {hidden : CString → Prop} (made : Made anyglob q hidden chain listTL) {n : CString} :
    (listTL.findSome? fun t => (visible q t n).map copied) = none ↔
      ∀ before r after, chain = before ++ r :: after →
        (hidden n ∨ ∃ r' ∈ before, r'.hides anyglob q n) ∨ r.lists anyglob q n = none := by
  induction chain generalizing listTL hidden with
  | nil =>
      rw [Made] at made
      rw [made]
      exact iff_of_true rfl fun before r after split => absurd split (by simp)
  | cons r chain ih =>
      obtain ⟨t, rest, rfl, here, -, later⟩ := made
      have first : (visible q t n).map copied = none ↔ hidden n ∨ r.lists anyglob q n = none := by
        by_cases before : hidden n
        · rw [(here n).1 before]
          exact iff_of_true rfl (Or.inl before)
        · rw [(here n).2 before, or_iff_right before]
      have whole : (List.findSome? (fun t => (visible q t n).map copied) (t :: rest)) = none ↔
          (visible q t n).map copied = none ∧
            rest.findSome? (fun t => (visible q t n).map copied) = none := by
        rw [List.findSome?_cons]
        cases (visible q t n).map copied with
        | none => exact (and_iff_right rfl).symm
        | some x => exact iff_of_false nofun fun both => absurd both.1 nofun
      rw [whole, first, ih later]
      constructor
      · rintro ⟨now, then_⟩ before r' after split
        cases before with
        | nil =>
            obtain ⟨rfl, rfl⟩ := List.cons.inj split
            exact now.imp_left Or.inl
        | cons s before =>
            obtain ⟨rfl, rest⟩ := List.cons.inj split
            refine (then_ before r' after rest).imp_left ?_
            rintro ((before | now) | ⟨r'', member, hides⟩)
            · exact Or.inl before
            · exact Or.inr ⟨r, List.mem_cons_self, now⟩
            · exact Or.inr ⟨r'', List.mem_cons_of_mem r member, hides⟩
      · intro all
        refine ⟨(all [] r chain rfl).imp_left ?_, fun before r' after split => ?_⟩
        · rintro (before | ⟨r', member, -⟩)
          · exact before
          · exact absurd member List.not_mem_nil
        · refine (all (r :: before) r' after (by rw [split]; rfl)).imp_left ?_
          rintro (before | ⟨r'', member, hides⟩)
          · exact Or.inl (Or.inl before)
          · rcases List.mem_cons.mp member with rfl | member
            · exact Or.inl (Or.inr hides)
            · exact Or.inr ⟨r'', member, hides⟩

/-- The first entry of a name is listed, if it is wanted. -/
theorem Made.findSome?_eq_some {before after : List Release} {r : Release}
    {listTL : List NodeTree} {hidden : CString → Prop} {n : CString} {x : Node}
    (made : Made anyglob q hidden (before ++ r :: after) listTL) (shown : ¬hidden n)
    (none : ∀ r' ∈ before, r'.lists anyglob q n = none ∧ ¬r'.hides anyglob q n)
    (lists : r.lists anyglob q n = some x) :
    (listTL.findSome? fun t => (visible q t n).map copied) = some x := by
  induction before generalizing listTL hidden with
  | nil =>
      obtain ⟨t, rest, rfl, here, -, -⟩ := made
      rw [List.findSome?_cons, (here n).2 shown, lists]
  | cons s before ih =>
      obtain ⟨t, rest, rfl, here, -, later⟩ := made
      obtain ⟨unlisted, unhidden⟩ := none s List.mem_cons_self
      rw [List.findSome?_cons, (here n).2 shown, unlisted]
      refine ih later ?_ fun r' member => none r' (List.mem_cons_of_mem s member)
      rintro (before | now)
      · exact shown before
      · exact unhidden now

end Chain

/-! ## The theorem -/

section Theorem

variable {anyglob : CString → CString → Bool} {refuseT : NodeTree} {lasttime : CInt}
  {chain : List Release}

/-- The list, by its entries. -/
theorem getscanlists_spec {q : Request} (orderly : ∀ r ∈ chain, r.Orderly anyglob) :
    ∃ list listTL, getscanlists anyglob q chain = some list ∧
      Made anyglob q (fun _ => False) chain listTL ∧
      ∀ n, list.search n = listTL.findSome? fun t => (visible q t n).map copied := by
  obtain ⟨listTL, ran, made⟩ := getscans_spec (q := q) orderly
  refine ⟨scanones q listTL, listTL, ?_, made, fun n => scanones_search made.plain n⟩
  rw [getscanlists, ran]
  rfl

theorem first_split {α β : Type} {f : α → Option β} {l : List α} {b : β}
    (found : l.findSome? f = some b) :
    ∃ before a after, l = before ++ a :: after ∧ f a = some b ∧ ∀ c ∈ before, f c = none := by
  obtain ⟨before, a, after, split, here, earlier⟩ := List.findSome?_eq_some_iff.mp found
  exact ⟨before, a, after, split, here, earlier⟩

/-- All entries are listed when the list is not of the new ones only. -/
theorem full_search {list : NodeTree} (orderly : ∀ r ∈ chain, r.Orderly anyglob)
    (full : getscanlists anyglob ⟨refuseT, lasttime, false⟩ chain = some list) (n : CString) :
    list.search n = (chain.findSome? (Release.sees anyglob refuseT · n)).map
      (entryNode ⟨refuseT, lasttime, false⟩) := by
  obtain ⟨list', listTL, ran, made, found⟩ :=
    getscanlists_spec (q := ⟨refuseT, lasttime, false⟩) orderly
  obtain rfl := Option.some.inj (full.symm.trans ran)
  have lists : ∀ r : Release, r.lists anyglob ⟨refuseT, lasttime, false⟩ n =
      (r.sees anyglob refuseT n).map (entryNode ⟨refuseT, lasttime, false⟩) := by
    intro r
    rw [Release.lists]
    cases r.sees anyglob refuseT n <;> rfl
  rw [found]
  cases first : chain.findSome? (Release.sees anyglob refuseT · n) with
  | none =>
      refine made.findSome?_eq_none.mpr fun before r after split => Or.inr ?_
      have member : r ∈ chain := split ▸ List.mem_append_right before List.mem_cons_self
      rw [lists, List.findSome?_eq_none_iff.mp first r member]
      rfl
  | some entry =>
      obtain ⟨before, r, after, rfl, sees, earlier⟩ := first_split first
      refine made.findSome?_eq_some id (fun r' member => ⟨?_, fun hides => absurd hides.1 nofun⟩) ?_
      · rw [lists, earlier r' member]
        rfl
      · rw [lists, sees, Option.map_some]

theorem Release.sees_unrefused {r : Release} {n : CString} {entry : CInt × FileStat}
    (sees : r.sees anyglob refuseT n = some entry) : Tlookup refuseT n = none := by
  rw [Release.sees] at sees
  split at sees
  · split at sees
    · exact absurd sees nofun
    next passed => exact Option.not_isSome_iff_eq_none.mp passed
  · obtain ⟨v, found, -⟩ := Option.map_eq_some_iff.mp sees
    have name : v.name = n := by simpa using List.find?_some found
    have reached := (List.mem_filter.mp (List.mem_of_find?_eq_some found)).2
    have passed := List.all_eq_true.mp reached v.name
      (List.mem_append_right v.trail List.mem_cons_self)
    rw [name] at passed
    exact Option.isNone_iff_eq_none.mp passed

/-- What a release hides, for a name that is not refused. -/
theorem Release.hides_iff {r : Release} (orderly : r.Orderly anyglob) {n : CString}
    (unrefused : Tlookup refuseT n = none) :
    r.hides anyglob ⟨refuseT, lasttime, true⟩ n ↔ ¬r.skipped lasttime ∧
      ∃ old, r.sees anyglob refuseT n = some old ∧ old.2.ctime.toInt ≤ lasttime.toInt := by
  have isOld : ∀ ctime : CInt, isNew ⟨refuseT, lasttime, true⟩ ctime = false ↔
      ctime.toInt ≤ lasttime.toInt := by
    intro ctime
    rw [isNew, decide_eq_false_iff_not, not_lt]
  rw [Release.hides, and_iff_right rfl, Release.sees]
  refine and_congr_right fun _ => ?_
  cases file : r.scanfile with
  | some f =>
      dsimp only
      rw [unrefused, if_neg nofun]
      constructor
      · rintro ⟨e, member, name, old⟩
        cases found : f.entries.find? fun e => e.name = n with
        | none => exact absurd (List.find?_eq_none.mp found e member) (by simp [name])
        | some e' =>
            have name' : e'.name = n := by simpa using List.find?_some found
            obtain rfl := List.inj_on_of_nodup_map (orderly.entries f file).1 member
              (List.mem_of_find?_eq_some found) (name.trans name'.symm)
            exact ⟨_, rfl, (isOld _).mp old⟩
      · rintro ⟨old, sees, time⟩
        obtain ⟨e, found, rfl⟩ := Option.map_eq_some_iff.mp sees
        exact ⟨e, List.mem_of_find?_eq_some found, by simpa using List.find?_some found,
          (isOld _).mpr time⟩
  | none =>
      dsimp only
      constructor
      · rintro ⟨v, member, name, old⟩
        cases found : (reachedSights anyglob r.list refuseT).find? fun v => v.name = n with
        | none => exact absurd (List.find?_eq_none.mp found v member) (by simp [name])
        | some v' =>
            have name' : v'.name = n := by simpa using List.find?_some found
            have seen := (List.mem_filter.mp member).1
            have seen' := (List.mem_filter.mp (List.mem_of_find?_eq_some found)).1
            rw [(orderly.sights file v' seen').2 v seen (name.trans name'.symm)] at old
            exact ⟨_, rfl, (isOld _).mp old⟩
      · rintro ⟨old, sees, time⟩
        obtain ⟨v, found, rfl⟩ := Option.map_eq_some_iff.mp sees
        exact ⟨v, List.mem_of_find?_eq_some found, by simpa using List.find?_some found,
          (isOld _).mpr time⟩

theorem lists_eq_none_iff {r : Release} {n : CString} :
    r.lists anyglob ⟨refuseT, lasttime, true⟩ n = none ↔
      ∀ entry, r.sees anyglob refuseT n = some entry → entry.2.ctime.toInt ≤ lasttime.toInt := by
  rw [Release.lists, Option.map_eq_none_iff, Option.filter_eq_none_iff]
  refine forall_congr' fun entry => imp_congr_right fun _ => ?_
  rw [Bool.not_eq_true, wanted_eq_false, and_iff_right rfl, isNew, decide_eq_false_iff_not, not_lt]

/-- What it takes for a name to be in the list of the new files, when its first entry is old. -/
theorem new_search_eq_none {list : NodeTree} (orderly : ∀ r ∈ chain, r.Orderly anyglob)
    (new : getscanlists anyglob ⟨refuseT, lasttime, true⟩ chain = some list) (n : CString) :
    list.search n = none ↔ ∀ before r after entry, chain = before ++ r :: after →
      r.sees anyglob refuseT n = some entry → lasttime.toInt < entry.2.ctime.toInt →
      ∃ r' ∈ before, ¬r'.skipped lasttime ∧ ∃ old, r'.sees anyglob refuseT n = some old ∧
        old.2.ctime.toInt ≤ lasttime.toInt := by
  obtain ⟨list', listTL, ran, made, found⟩ :=
    getscanlists_spec (q := ⟨refuseT, lasttime, true⟩) orderly
  obtain rfl := Option.some.inj (new.symm.trans ran)
  rw [found, made.findSome?_eq_none]
  have hides {before after : List Release} {r : Release} {entry : CInt × FileStat}
      (split : chain = before ++ r :: after) (sees : r.sees anyglob refuseT n = some entry) :
      (∃ r' ∈ before, r'.hides anyglob ⟨refuseT, lasttime, true⟩ n) ↔
        ∃ r' ∈ before, ¬r'.skipped lasttime ∧ ∃ old, r'.sees anyglob refuseT n = some old ∧
          old.2.ctime.toInt ≤ lasttime.toInt := by
    refine exists_congr fun r' => and_congr_right fun member => ?_
    exact Release.hides_iff (orderly r' (split ▸ List.mem_append_left _ member))
      (Release.sees_unrefused sees)
  constructor
  · intro all before r after entry split sees isNew
    rcases all before r after split with (never | earlier) | unlisted
    · exact never.elim
    · exact (hides split sees).mp earlier
    · exact absurd isNew (not_lt.mpr (lists_eq_none_iff.mp unlisted entry sees))
  · intro all before r after split
    by_cases unlisted : r.lists anyglob ⟨refuseT, lasttime, true⟩ n = none
    · exact Or.inr unlisted
    · rw [lists_eq_none_iff] at unlisted
      simp only [not_forall, not_le] at unlisted
      obtain ⟨entry, sees, isNew⟩ := unlisted
      exact Or.inl (Or.inr ((hides split sees).mpr (all before r after entry split sees isNew)))

theorem SelectsNew.hiddenByRead (selects : SelectsNew anyglob refuseT lasttime chain)
    (orderly : ∀ r ∈ chain, r.Orderly anyglob) : HiddenByRead anyglob refuseT lasttime chain := by
  obtain ⟨full, new, ran, ran', same⟩ := selects
  intro before r after n first entry split found old sees isNew
  have whole : chain.findSome? (Release.sees anyglob refuseT · n) = some first := by
    rw [split, List.findSome?_append, found]
    rfl
  have quiet : first.1 &&& FNEW = 0 := by
    obtain ⟨before', r', after', -, sees', -⟩ := first_split found
    exact Release.sees_quiet (q := ⟨refuseT, lasttime, false⟩) sees'
  have none : new.search n = none := by
    rw [same, full_search orderly ran, whole, Option.map_some, Option.filter_some,
      has_entryNode quiet, if_neg]
    rw [Lists.isNew, decide_eq_true_eq, not_lt]
    exact old
  exact (new_search_eq_none orderly ran' n).mp none before r after entry split sees isNew

theorem selectsNew_iff (anyglob : CString → CString → Bool) (refuseT : NodeTree) (lasttime : CInt)
    (chain : List Release) (orderly : ∀ r ∈ chain, r.Orderly anyglob) :
    SelectsNew anyglob refuseT lasttime chain ↔ HiddenByRead anyglob refuseT lasttime chain := by
  refine ⟨fun selects => selects.hiddenByRead orderly, fun hidden => ?_⟩
  obtain ⟨full, -, ran, -, -⟩ := getscanlists_spec (q := ⟨refuseT, lasttime, false⟩) orderly
  obtain ⟨new, listTL, ran', made, found⟩ :=
    getscanlists_spec (q := ⟨refuseT, lasttime, true⟩) orderly
  refine ⟨full, new, ran, ran', fun n => ?_⟩
  rw [full_search orderly ran]
  cases whole : chain.findSome? (Release.sees anyglob refuseT · n) with
  | none =>
      refine (new_search_eq_none orderly ran' n).mpr fun before r after entry split sees => ?_
      have member : r ∈ chain := split ▸ List.mem_append_right before List.mem_cons_self
      exact absurd (sees.symm.trans (List.findSome?_eq_none_iff.mp whole r member)) nofun
  | some first =>
      obtain ⟨before, r, after, split, sees, earlier⟩ := first_split whole
      have quiet := Release.sees_quiet (q := ⟨refuseT, lasttime, false⟩) sees
      rw [Option.map_some, Option.filter_some, has_entryNode quiet]
      by_cases isNew : Lists.isNew ⟨refuseT, lasttime, false⟩ first.2.ctime
      · rw [if_pos isNew, found]
        rw [split] at made orderly
        have wants : wanted ⟨refuseT, lasttime, true⟩ first.2 = true := by
          rw [wanted]
          exact congrArg (fun b => !(true && !b)) isNew
        refine made.findSome?_eq_some id (fun r' member => ⟨?_, fun hides => ?_⟩) ?_
        · rw [Release.lists, earlier r' member]
          rfl
        · obtain ⟨-, old, sees', -⟩ := (Release.hides_iff
            (orderly r' (List.mem_append_left _ member)) (Release.sees_unrefused sees)).mp hides
          exact absurd (sees'.symm.trans (earlier r' member)) nofun
        · rw [Release.lists, sees, Option.filter_some, if_pos wants]
          rfl
      · rw [if_neg isNew]
        have old : first.2.ctime.toInt ≤ lasttime.toInt := by
          rwa [Lists.isNew, decide_eq_true_eq, not_lt] at isNew
        refine (new_search_eq_none orderly ran' n).mpr ?_
        intro before' r' after' entry split' sees' isNew'
        refine hidden before' r' after' n first entry split' ?_ old sees' isNew'
        -- the first entry is old, so it comes before the new one
        have start : (before'.findSome? (Release.sees anyglob refuseT · n)).or (some entry) =
            some first := by
          rw [split', List.findSome?_append, List.findSome?_cons, sees'] at whole
          exact whole
        cases front : before'.findSome? (Release.sees anyglob refuseT · n) with
        | none =>
            rw [front, Option.none_or] at start
            rw [Option.some.inj start] at isNew'
            exact absurd isNew' (not_lt.mpr old)
        | some entry' =>
            rw [front, Option.some_or] at start
            exact start

/-- Nothing is skipped unless a scan file has the time of the last upgrade. -/
theorem hiddenByRead_of_read (read : ∀ r ∈ chain, ¬r.skipped lasttime) :
    HiddenByRead anyglob refuseT lasttime chain := by
  intro before r after n first entry split found old sees isNew
  obtain ⟨before', r', after', rfl, sees', -⟩ := first_split found
  have member : r' ∈ before' ++ r' :: after' := List.mem_append_right before' List.mem_cons_self
  refine ⟨r', member, read r' ?_, first, sees', old⟩
  rw [split]
  exact List.mem_append_left _ member

end Theorem

/-! ## Two chains -/

/-- `a`. -/
def nameA : CString := ⟨[97], noNul_a⟩

/-- A regular file that was changed at a time. -/
def regularFile (ctime : CInt) : FileStat := ⟨S_IFREG ||| 0o644, ctime, ctime⟩

theorem empty_flagsOnly : ∀ name t, (SearchTree.empty : NodeTree).search name = some t →
    t.flags &&& ~~~(FBACKUP ||| FNOACCT) = 0 :=
  fun _ _ found => absurd found nofun

/-- The list file has the line `upgrade a`. -/
def upgradeA (ctime : CInt) : ListFile where
  upgT := SearchTree.empty.insert nameA false
  flagsT := .empty
  omitT := .empty
  omanyT := .empty
  execT := .empty
  symT := .empty
  rsymT := .empty
  file _ := .mk (some (regularFile ctime)) none true []
  flagsOnly := empty_flagsOnly

/-- A scan file with the entry `a`. -/
def scanA (mtime ctime : CInt) : ScanFile := ⟨mtime, [⟨false, false, regularFile ctime, nameA, []⟩]⟩

theorem orderly_scanA {anyglob : CString → CString → Bool} {list : ListFile} {mtime ctime : CInt}
    (bound : ctime.toInt ≤ mtime.toInt) :
    (Release.mk list (some (scanA mtime ctime))).Orderly anyglob := by
  refine ⟨fun f file => ?_, nofun⟩
  obtain rfl := Option.some.inj file
  refine ⟨List.nodup_singleton _, fun e member => ?_⟩
  obtain rfl := List.mem_singleton.mp member
  have plain : Canonical nameA := by decide
  exact ⟨plain, bound⟩

theorem orderly_upgradeA {anyglob : CString → CString → Bool} {ctime : CInt} :
    (Release.mk (upgradeA ctime) none).Orderly anyglob := by
  refine ⟨nofun, fun _ v member => ?_⟩
  have plain : Canonical nameA := by decide
  have upgrades : (upgradeA ctime).upgT.toList = [(nameA, false)] := rfl
  have regular : fmt (regularFile ctime).mode = S_IFREG := by
    change fmt (S_IFREG ||| 0o644) = S_IFREG
    decide
  have found : examine (upgradeA ctime) nameA (some (regularFile ctime)) none =
      some (regularFile ctime, false) := by
    rw [examine, regular, if_neg (by decide)]
  have all : sights anyglob (upgradeA ctime) = [⟨[], nameA, regularFile ctime⟩] := by
    rw [sights, upgrades, List.flatMap_singleton]
    change sightsAt anyglob (upgradeA ctime) [] nameA false
      (.mk (some (regularFile ctime)) none true []) = _
    rw [sightsAt, found]
    dsimp only
    rw [regular]
    rfl
  rw [all] at member ⊢
  obtain rfl := List.mem_singleton.mp member
  refine ⟨plain, fun w member' _ => ?_⟩
  rw [List.mem_singleton.mp member']

/-- An old `a` on the disk hides a new one in a scan file. -/
theorem selectsNew_disk : SelectsNew (fun _ _ => false) .empty 5
    [⟨upgradeA 3, none⟩, ⟨upgradeA 8, some (scanA 9 8)⟩] := by
  refine (selectsNew_iff _ _ _ _ fun r member => ?_).mpr (hiddenByRead_of_read fun r member => ?_)
  · rcases List.mem_cons.mp member with rfl | member
    · exact orderly_upgradeA
    · obtain rfl := List.mem_singleton.mp member
      exact orderly_scanA (by decide)
  · rcases List.mem_cons.mp member with rfl | member
    · exact fun skipped => absurd skipped.choose_spec.1 nofun
    · obtain rfl := List.mem_singleton.mp member
      rintro ⟨f, file, time⟩
      obtain rfl := Option.some.inj file
      exact absurd time (by decide)

/-- An old `a` in a scan file that is skipped does not hide the new one. -/
theorem skipped_hides_nothing : ¬SelectsNew (fun _ _ => false) .empty 5
    [⟨upgradeA 3, some (scanA 5 3)⟩, ⟨upgradeA 8, some (scanA 9 8)⟩] := by
  intro selects
  have hidden := selects.hiddenByRead fun r member => by
    rcases List.mem_cons.mp member with rfl | member
    · exact orderly_scanA (by decide)
    · obtain rfl := List.mem_singleton.mp member
      exact orderly_scanA (by decide)
  obtain ⟨r, member, read, -⟩ := hidden [⟨upgradeA 3, some (scanA 5 3)⟩]
    ⟨upgradeA 8, some (scanA 9 8)⟩ [] nameA (letters false false, regularFile 3)
    (letters false false, regularFile 8) rfl rfl (by decide) rfl (by decide)
  obtain rfl := List.mem_singleton.mp member
  exact read ⟨scanA 5 3, rfl, rfl⟩

end MachFormal.Sup.Lists
