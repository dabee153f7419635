import MachFormal.Sup.Listfiles
import MachFormal.Sup.SafeDeletion

/-!
# Every name is answered once

While the needs are visited, each name that has been visited has one answer: it is
denied, it is folded into the links of an entry, or it is an entry of a release that is
needed.  The trees, the deny list and the table of inodes are described by these
answers, and a visit adds one.

The directories of a release are sent after what lies in them, but the releases follow
each other, so a directory of an earlier release is sent before one below it that is
found in a later release.
-/

namespace MachFormal.Sup

open Library

/-! ## What is to hold -/

/-- The trees of the releases, as scanned: nothing is needed yet, and there are no links. -/
structure Releases where
  trees : List NodeTree
  fresh : ∀ i name t, nodeAt trees i name = some t →
    has t.flags FNEEDED = false ∧ t.link = .empty

section Statements

variable (fs : ServerFiles) (r : Releases) (needT : NodeTree)

/-- The name is denied. -/
def Denied (out : Answers) (n : CString) : Prop := n ∈ names out.denyT

/-- The name is an entry that is needed. -/
def Needed (out : Answers) (n : CString) : Prop :=
  ∃ i t, nodeAt out.trees i n = some t ∧ has t.flags FNEEDED = true

/-- The name is among the links of a regular file. -/
def LinkOf (out : Answers) (n : CString) (p : Pointer) : Prop :=
  ∃ t, nodeAt out.trees p.1 p.2 = some t ∧ fmt t.mode = S_IFREG ∧ n ∈ names t.link

/-- The name is found to be the same inode as an entry. -/
def SameInode (n : CString) (p : Pointer) : Prop :=
  ∃ j t st st', searchTrees r.trees n = some (j, t) ∧ fs.stat j n = some st ∧
    fs.stat p.1 p.2 = some st' ∧ st.dev = st'.dev ∧ st.ino = st'.ino

/-- The name is among the links of one entry, which is needed and the same inode. -/
def Folded (out : Answers) (n : CString) : Prop :=
  ∃ p, LinkOf out n p ∧ (∃ t, nodeAt out.trees p.1 p.2 = some t ∧ has t.flags FNEEDED = true) ∧
    SameInode fs r n p ∧ ∀ q, LinkOf out n q → q = p

/-- Every name asked for is denied, folded into another or sent, once and in order. -/
structure AnsweredOnce : Prop where
  once : ∀ n ∈ names needT,
    let out := listfilesServer fs r.trees needT
    (Denied out n ∧ ¬Folded fs r out n ∧ ¬Needed out n) ∨
    (¬Denied out n ∧ Folded fs r out n ∧ ¬Needed out n) ∨
    (¬Denied out n ∧ ¬Folded fs r out n ∧ Needed out n)
  sent : ((sendturns (listfilesServer fs r.trees needT).trees).map fun x => (x.1, x.2.1)).Nodup ∧
    ∀ i n t, (i, n, t) ∈ sendturns (listfilesServer fs r.trees needT).trees ↔
      nodeAt (listfilesServer fs r.trees needT).trees i n = some t ∧ has t.flags FNEEDED = true
  filesFirst : ∀ before x after,
    sendturns (listfilesServer fs r.trees needT).trees = before ++ x :: after →
    fmt x.2.2.mode = S_IFDIR → ∀ y ∈ after, fmt y.2.2.mode = S_IFDIR
  bottomUp : ∀ before x after,
    sendturns (listfilesServer fs r.trees needT).trees = before ++ x :: after →
    fmt x.2.2.mode = S_IFDIR → ∀ y ∈ sendturns (listfilesServer fs r.trees needT).trees,
      Within x.2.1 y.2.1 → y ∈ before
  asked : ∀ x ∈ sendturns (listfilesServer fs r.trees needT).trees,
    x.2.1 ∈ names needT ∧
      (fmt x.2.2.mode = S_IFREG → ∀ n ∈ names x.2.2.link, n ∈ names needT)

/-- The name is needed, and it is found first in the release, as a directory that is still
one. -/
def SentDirectory (i : Nat) (d : CString) : Prop :=
  d ∈ names needT ∧ ∃ t, searchTrees r.trees d = some (i, t) ∧ fmt t.mode = S_IFDIR ∧
    (sameType fs i d t).isSome = true

/-- Directories below one another are found in the right order of the releases. -/
def DirectoriesInOrder : Prop :=
  ∀ i d j n, SentDirectory fs r needT i d → SentDirectory fs r needT j n → Within d n →
    j < i ∨ (j = i ∧ d < n)

end Statements

/-! ## Nodes and the hash table -/

section Trees

variable {trees : List NodeTree} {i j : Nat} {name : CString}

theorem nodeAt_setNode (trees : List NodeTree) (p : Pointer) (f : Node → Node) (i : Nat)
    (name : CString) : nodeAt (setNode trees p f) i name =
      if (i, name) = p then (nodeAt trees i name).map f else nodeAt trees i name := by
  rw [nodeAt, setNode, List.getElem?_modify, nodeAt]
  cases trees[i]? with
  | none => simp
  | some t =>
      simp only [Option.map_eq_map, Option.map_some, Option.bind_some]
      by_cases tree : p.1 = i
      · rw [if_pos tree, SearchTree.search_modify]
        by_cases key : name = p.2
        · rw [if_pos key, if_pos (Prod.ext tree.symm key), key]
        · rw [if_neg key, if_neg fun same => key (congrArg Prod.snd same)]
      · rw [if_neg tree, if_neg fun same => tree (congrArg Prod.fst same).symm]

theorem searchTrees_eq_some {t : Node} : searchTrees trees name = some (i, t) ↔
    nodeAt trees i name = some t ∧ ∀ k < i, nodeAt trees k name = none := by
  induction trees generalizing i with
  | nil => simp [searchTrees, nodeAt]
  | cons tree rest ih =>
      rw [searchTrees]
      cases found : tree.search name with
      | some u =>
          cases i with
          | zero => simp [nodeAt, found]
          | succ i =>
              refine iff_of_false (by simp) fun both => ?_
              have first := both.2 0 (Nat.succ_pos i)
              simp [nodeAt, found] at first
      | none =>
          simp only [Option.map_eq_some_iff]
          cases i with
          | zero => simp [nodeAt, found]
          | succ i =>
              have later : (∃ a, searchTrees rest name = some a ∧ (a.1 + 1, a.2) = (i + 1, t)) ↔
                  searchTrees rest name = some (i, t) := by
                constructor
                · rintro ⟨⟨k, u⟩, there, same⟩
                  obtain ⟨rfl, rfl⟩ : k = i ∧ u = t := by simpa using same
                  exact there
                · exact fun there => ⟨(i, t), there, rfl⟩
              rw [later, ih]
              constructor
              · rintro ⟨here, before⟩
                refine ⟨here, fun k below => ?_⟩
                cases k with
                | zero => simp [nodeAt, found]
                | succ k => exact before k (Nat.lt_of_succ_lt_succ below)
              · rintro ⟨here, before⟩
                exact ⟨here, fun k below => before (k + 1) (Nat.succ_lt_succ below)⟩

theorem Canonical.mem_names_Tinsert {α : Type} [Inhabited α] {t : SearchTree CString α}
    {p n : CString} (canonical : Canonical p) : n ∈ names (Tinsert t p) ↔ n = p ∨ n ∈ names t := by
  rw [Sup.mem_names_Tinsert, show strip p = p from canonical]

theorem Hlookup_Hinsert {table : HashTable} {num1 num2 a b : CInt} {p : Pointer} {h : Hash}
    (found : Hlookup (Hinsert table num1 num2 p) a b = some h) :
    (h = ⟨num1, num2, p⟩ ∧ a = num1 ∧ b = num2) ∨ Hlookup table a b = some h := by
  rw [Hlookup, Hinsert] at found
  by_cases slot : hashfunc a b = hashfunc num1 num2
  · rw [slot, Function.update_self, List.find?_cons] at found
    split at found
    next hit =>
      obtain rfl := Option.some.inj found
      have equal : num1 = a ∧ num2 = b := by simpa using hit
      exact Or.inl ⟨rfl, equal.1.symm, equal.2.symm⟩
    next =>
      right
      rw [Hlookup, slot]
      exact found
  · rw [Function.update_of_ne slot] at found
    exact Or.inr found

end Trees

/-! ## The answers -/

/-- The answer to a name. -/
inductive Answer where
  | denied
  | linked (p : Pointer)
  | needed (i : Nat)

section Visits

variable {fs : ServerFiles} {r : Releases}

/-- A regular file is found at the pointer, with this device and inode. -/
def RegularAt (fs : ServerFiles) (r : Releases) (p : Pointer) (ino dev : CInt) : Prop :=
  ∃ t st, searchTrees r.trees p.2 = some (p.1, t) ∧ fmt t.mode = S_IFREG ∧
    fs.stat p.1 p.2 = some st ∧ st.ino = ino ∧ st.dev = dev

/-- The state after the visits that gave these answers. -/
structure Tracks (fs : ServerFiles) (r : Releases) (answer : CString → Option Answer)
    (s : Answers) : Prop where
  deny : ∀ n, n ∈ names s.denyT ↔ answer n = some .denied
  modes : ∀ i n, (nodeAt s.trees i n).map Node.mode = (nodeAt r.trees i n).map Node.mode
  flag : ∀ i n t, nodeAt s.trees i n = some t →
    (has t.flags FNEEDED = true ↔ answer n = some (.needed i))
  links : ∀ i n t, nodeAt s.trees i n = some t → fmt t.mode = S_IFREG →
    ∀ m, m ∈ names t.link ↔ answer m = some (.linked (i, n))
  hash : ∀ ino dev h, Hlookup s.inodeH ino dev = some h →
    answer h.tree.2 = some (.needed h.tree.1) ∧ RegularAt fs r h.tree ino dev
  linked : ∀ n p, answer n = some (.linked p) →
    answer p.2 = some (.needed p.1) ∧ SameInode fs r n p ∧ ∃ ino dev, RegularAt fs r p ino dev
  needed : ∀ n i, answer n = some (.needed i) →
    ∃ t, searchTrees r.trees n = some (i, t) ∧ (sameType fs i n t).isSome = true
  directory : ∀ n i t, answer n ≠ none → searchTrees r.trees n = some (i, t) →
    fmt t.mode = S_IFDIR → (sameType fs i n t).isSome = true → answer n = some (.needed i)

theorem Tracks.start : Tracks fs r (fun _ => none) ⟨r.trees, .empty, fun _ => []⟩ where
  deny := by
    intro n
    rw [mem_names, SearchTree.search_empty]
    exact iff_of_false nofun nofun
  modes := fun _ _ => rfl
  flag := by
    intro i n t found
    rw [(r.fresh i n t found).1]
    exact iff_of_false nofun nofun
  links := by
    intro i n t found _ m
    rw [(r.fresh i n t found).2, mem_names, SearchTree.search_empty]
    exact iff_of_false nofun nofun
  hash := fun _ _ _ found => absurd found nofun
  linked := fun _ _ given => absurd given nofun
  needed := fun _ _ given => absurd given nofun
  directory := fun _ _ _ given => absurd rfl given

variable {answer : CString → Option Answer} {s : Answers} {name : CString} {i : Nat}

/-- A node of the trees comes from a node with the same mode. -/
theorem Tracks.mode_eq (tracks : Tracks fs r answer s) {t : Node}
    (found : nodeAt s.trees i name = some t) :
    ∃ t', nodeAt r.trees i name = some t' ∧ t.mode = t'.mode := by
  have modes := tracks.modes i name
  rw [found, Option.map_some] at modes
  obtain ⟨t', found', same⟩ := Option.map_eq_some_iff.mp modes.symm
  exact ⟨t', found', same.symm⟩

theorem Tracks.nodeAt_eq_none (tracks : Tracks fs r answer s) :
    nodeAt s.trees i name = none ↔ nodeAt r.trees i name = none := by
  rw [← Option.map_eq_none_iff (f := Node.mode), tracks.modes, Option.map_eq_none_iff]

/-- The search finds what it found before the visits. -/
theorem Tracks.found (tracks : Tracks fs r answer s) {t : Node}
    (found : searchTrees s.trees name = some (i, t)) :
    ∃ t', searchTrees r.trees name = some (i, t') ∧ t.mode = t'.mode := by
  obtain ⟨here, before⟩ := searchTrees_eq_some.mp found
  obtain ⟨t', here', same⟩ := tracks.mode_eq here
  refine ⟨t', searchTrees_eq_some.mpr ⟨here', fun k below => ?_⟩, same⟩
  exact tracks.nodeAt_eq_none.mp (before k below)

/-- What was found before the visits is still found. -/
theorem Tracks.still_found (tracks : Tracks fs r answer s) {t' : Node}
    (found : searchTrees r.trees name = some (i, t')) :
    ∃ t, searchTrees s.trees name = some (i, t) ∧ t.mode = t'.mode := by
  obtain ⟨here, before⟩ := searchTrees_eq_some.mp found
  have modes := tracks.modes i name
  rw [here, Option.map_some] at modes
  obtain ⟨t, here', same⟩ := Option.map_eq_some_iff.mp modes
  refine ⟨t, searchTrees_eq_some.mpr ⟨here', fun k below => ?_⟩, same⟩
  exact tracks.nodeAt_eq_none.mpr (before k below)

theorem sameType_congr {t t' : Node} (same : t.mode = t'.mode) :
    sameType fs i name t = sameType fs i name t' := by
  rw [sameType, sameType, same]

/-- What the visit of a name changes, when this is its answer. -/
structure Visit (fs : ServerFiles) (r : Releases) (name : CString) (a : Answer)
    (s s' : Answers) : Prop where
  deny : ∀ n, n ∈ names s'.denyT ↔ (n = name ∧ a = .denied) ∨ n ∈ names s.denyT
  modes : ∀ i n, (nodeAt s'.trees i n).map Node.mode = (nodeAt s.trees i n).map Node.mode
  node : ∀ i n t', nodeAt s'.trees i n = some t' → ∃ t, nodeAt s.trees i n = some t ∧
    t'.mode = t.mode ∧
    (has t'.flags FNEEDED = true ↔ (n = name ∧ a = .needed i) ∨ has t.flags FNEEDED = true) ∧
    (fmt t.mode = S_IFREG →
      ∀ m, m ∈ names t'.link ↔ (m = name ∧ a = .linked (i, n)) ∨ m ∈ names t.link)
  hash : ∀ ino dev h, Hlookup s'.inodeH ino dev = some h → Hlookup s.inodeH ino dev = some h ∨
    (h.tree.2 = name ∧ a = .needed h.tree.1 ∧ RegularAt fs r h.tree ino dev)
  linked : ∀ p, a = .linked p → SameInode fs r name p ∧
    ∃ ino dev h, Hlookup s.inodeH ino dev = some h ∧ h.tree = p
  needed : ∀ i, a = .needed i →
    ∃ t, searchTrees r.trees name = some (i, t) ∧ (sameType fs i name t).isSome = true
  directory : ∀ i t, searchTrees r.trees name = some (i, t) → fmt t.mode = S_IFDIR →
    (sameType fs i name t).isSome = true → a = .needed i

/-- The answer to a new name is added to the others. -/
theorem update_eq_some {a x : Answer} (new : answer name = none) (n : CString) :
    Function.update answer name (some a) n = some x ↔ (n = name ∧ a = x) ∨ answer n = some x := by
  by_cases here : n = name
  · rw [here, Function.update_self, new]
    simp
  · rw [Function.update_of_ne here]
    simp [here]

theorem Visit.tracks {a : Answer} {s' : Answers} (visit : Visit fs r name a s s')
    (tracks : Tracks fs r answer s) (new : answer name = none) :
    Tracks fs r (Function.update answer name (some a)) s' where
  deny := by
    intro n
    rw [visit.deny, tracks.deny, update_eq_some new]
  modes := fun i n => (visit.modes i n).trans (tracks.modes i n)
  flag := by
    intro i n t' found
    obtain ⟨t, before, -, flag, -⟩ := visit.node i n t' found
    rw [flag, tracks.flag i n t before, update_eq_some new]
  links := by
    intro i n t' found regular m
    obtain ⟨t, before, same, -, links⟩ := visit.node i n t' found
    rw [same] at regular
    rw [links regular, tracks.links i n t before regular, update_eq_some new]
  hash := by
    intro ino dev h found
    rw [update_eq_some new]
    rcases visit.hash ino dev h found with before | ⟨here, given, regular⟩
    · obtain ⟨given, regular⟩ := tracks.hash ino dev h before
      exact ⟨Or.inr given, regular⟩
    · exact ⟨Or.inl ⟨here, given⟩, regular⟩
  linked := by
    intro n p given
    rw [update_eq_some new]
    rcases (update_eq_some new n).mp given with ⟨rfl, now⟩ | before
    · obtain ⟨same, ino, dev, h, found, rfl⟩ := visit.linked p now
      obtain ⟨target, regular⟩ := tracks.hash ino dev h found
      exact ⟨Or.inr target, same, ino, dev, regular⟩
    · obtain ⟨target, rest⟩ := tracks.linked n p before
      exact ⟨Or.inr target, rest⟩
  needed := by
    intro n i given
    rcases (update_eq_some new n).mp given with ⟨rfl, now⟩ | before
    · exact visit.needed i now
    · exact tracks.needed n i before
  directory := by
    intro n i t given found directory still
    rw [update_eq_some new]
    by_cases here : n = name
    · subst here
      exact Or.inl ⟨rfl, visit.directory i t found directory still⟩
    · rw [Function.update_of_ne here] at given
      exact Or.inr (tracks.directory n i t given found directory still)

/-- A name is denied that is not found as a directory. -/
theorem visit_deny (canonical : Canonical name)
    (other : ∀ i t, searchTrees r.trees name = some (i, t) → fmt t.mode = S_IFDIR →
      (sameType fs i name t).isSome ≠ true) : Visit fs r name .denied s (s.deny name) where
  deny := by
    intro n
    rw [Answers.deny, canonical.mem_names_Tinsert, and_iff_left rfl]
  modes := fun _ _ => rfl
  node := by
    intro i n t found
    exact ⟨t, found, rfl, by simp, fun _ m => by simp⟩
  hash := fun _ _ _ found => Or.inl found
  linked := nofun
  needed := nofun
  directory := fun i t found directory still => absurd still (other i t found directory)

theorem modes_setNode {p : Pointer} {f : Node → Node} (mode : ∀ t, (f t).mode = t.mode)
    (n : CString) :
    (nodeAt (setNode s.trees p f) i n).map Node.mode = (nodeAt s.trees i n).map Node.mode := by
  rw [nodeAt_setNode]
  split
  · rw [Option.map_map]
    exact congrArg (Option.map · _) (funext mode)
  · rfl

/-- An entry is marked, possibly with its inode in the table. -/
theorem visit_need {t' : Node} {f : Node → Node} {table : HashTable}
    (found : searchTrees r.trees name = some (i, t'))
    (still : (sameType fs i name t').isSome = true)
    (mode : ∀ t, (f t).mode = t.mode) (flag : ∀ t, has (f t).flags FNEEDED = true)
    (links : ∀ t, fmt t.mode = S_IFREG → t.mode = t'.mode → (f t).link = t.link)
    (modes : (nodeAt s.trees i name).map Node.mode = some t'.mode)
    (hash : ∀ ino dev h, Hlookup table ino dev = some h → Hlookup s.inodeH ino dev = some h ∨
      (h.tree = (i, name) ∧ RegularAt fs r h.tree ino dev)) :
    Visit fs r name (.needed i) s { s with trees := setNode s.trees (i, name) f, inodeH := table }
    where
  deny := fun n => by simp
  modes := fun j n => modes_setNode mode n
  node := by
    intro j n u found'
    rw [nodeAt_setNode] at found'
    split at found'
    next here =>
      obtain ⟨rfl, rfl⟩ := Prod.mk.inj here
      obtain ⟨t, before, rfl⟩ := Option.map_eq_some_iff.mp found'
      rw [before] at modes
      refine ⟨t, before, mode t, iff_of_true (flag t) (Or.inl ⟨rfl, rfl⟩), fun regular m => ?_⟩
      rw [links t regular (Option.some.inj modes)]
      simp
    next elsewhere =>
      refine ⟨u, found', rfl, ?_, fun _ m => by simp⟩
      refine (or_iff_right ?_).symm
      rintro ⟨rfl, same⟩
      exact elsewhere (by rw [Answer.needed.inj same])
  hash := by
    intro ino dev h there
    rcases hash ino dev h there with before | ⟨here, regular⟩
    · exact Or.inl before
    · exact Or.inr ⟨by rw [here], by rw [here], regular⟩
  linked := nofun
  needed := by
    rintro j ⟨⟩
    exact ⟨t', found, still⟩
  directory := by
    intro j t there _ _
    rw [found] at there
    rw [(Prod.mk.inj (Option.some.inj there)).1]

/-- A name is folded into the links of an entry in the table. -/
theorem visit_link {t' : Node} {ino dev : CInt} {h : Hash} (canonical : Canonical name)
    (found : searchTrees r.trees name = some (i, t')) (regular : fmt t'.mode = S_IFREG)
    (there : Hlookup s.inodeH ino dev = some h) (same : SameInode fs r name h.tree) :
    Visit fs r name (.linked h.tree) s
      { s with trees := setNode s.trees h.tree fun t => { t with link := Tinsert t.link name } }
    where
  deny := fun n => by simp
  modes := fun j n =>
    modes_setNode (f := fun t => { t with link := Tinsert t.link name }) (fun _ => rfl) n
  node := by
    intro j n u found'
    rw [nodeAt_setNode] at found'
    split at found'
    next here =>
      obtain ⟨t, before, rfl⟩ := Option.map_eq_some_iff.mp found'
      refine ⟨t, before, rfl, by simp, fun _ m => ?_⟩
      rw [canonical.mem_names_Tinsert, here, and_iff_left rfl]
    next elsewhere =>
      refine ⟨u, found', rfl, by simp, fun _ m => (or_iff_right ?_).symm⟩
      rintro ⟨-, linked⟩
      exact elsewhere (Answer.linked.inj linked).symm
  hash := fun _ _ _ found => Or.inl found
  linked := by
    rintro p ⟨⟩
    exact ⟨same, ino, dev, h, there, rfl⟩
  needed := nofun
  directory := by
    intro j t there directory _
    rw [found] at there
    rw [← (Prod.mk.inj (Option.some.inj there)).2, regular] at directory
    exact absurd directory (by decide)

theorem regularAt_of_sameType {t : Node} {st : Inode}
    (found : searchTrees r.trees name = some (i, t)) (regular : fmt t.mode = S_IFREG)
    (still : sameType fs i name t = some st) : RegularAt fs r (i, name) st.ino st.dev := by
  refine ⟨t, st, found, regular, ?_, rfl, rfl⟩
  rw [sameType, regular, if_neg (by decide)] at still
  exact (Option.filter_eq_some_iff.mp still).1

/-- Every visit gives one answer. -/
theorem visit_denyone (tracks : Tracks fs r answer s) (canonical : Canonical name) (need : Node) :
    ∃ a, Visit fs r name a s (denyone fs s (name, need)) := by
  simp only [denyone]
  cases found : searchTrees s.trees name with
  | none =>
      refine ⟨.denied, visit_deny canonical fun i t there => ?_⟩
      obtain ⟨u, there', -⟩ := tracks.still_found there
      exact absurd (found.symm.trans there') nofun
  | some entry =>
      obtain ⟨i, t⟩ := entry
      obtain ⟨t', found', mode⟩ := tracks.found found
      have modes : (nodeAt s.trees i name).map Node.mode = some t'.mode := by
        rw [(searchTrees_eq_some.mp found).1, Option.map_some, mode]
      -- a denial needs that the entry is no directory, or one that has changed its type
      have denial : (fmt t.mode = S_IFDIR → sameType fs i name t = none) →
          Visit fs r name .denied s (s.deny name) := by
        intro other
        refine visit_deny canonical fun j u there directory still => ?_
        obtain ⟨rfl, rfl⟩ := Prod.mk.inj (Option.some.inj (found'.symm.trans there))
        rw [← mode] at directory
        rw [← sameType_congr mode, other directory] at still
        exact absurd still nofun
      dsimp only
      cases still : sameType fs i name t with
      | none => exact ⟨.denied, denial fun _ => still⟩
      | some st =>
          have still' : sameType fs i name t' = some st := by rw [← sameType_congr mode, still]
          have valid : (sameType fs i name t').isSome = true := by rw [still', Option.isSome_some]
          dsimp only
          split
          next symbolic =>
            cases fs.readlink i name with
            | none =>
                refine ⟨.denied, denial fun directory => ?_⟩
                rw [symbolic] at directory
                exact absurd directory (by decide)
            | some text =>
                refine ⟨.needed i, visit_need found' valid (fun _ => rfl)
                  (fun t => has_or_self t.flags FNEEDED (by decide)) ?_ modes
                  fun _ _ _ there => Or.inl there⟩
                intro u regular same
                rw [same, ← mode, symbolic] at regular
                exact absurd regular (by decide)
          next =>
            have marked : ∀ update, ∀ u : Node, has (u.need st update).flags FNEEDED = true :=
              fun _ _ => has_or_self _ FNEEDED (by decide)
            split
            next regular =>
              have regular' : fmt t'.mode = S_IFREG := mode ▸ regular
              have here := regularAt_of_sameType found' regular' still'
              split
              · cases there : Hlookup s.inodeH st.ino st.dev with
                | some h =>
                    refine ⟨.linked h.tree, visit_link canonical found' regular' there ?_⟩
                    obtain ⟨-, -, st', -, -, there', ino, dev⟩ := tracks.hash _ _ h there
                    obtain ⟨-, st'', -, -, stat, ino', dev'⟩ := here
                    exact ⟨i, t', st'', st', found', stat, there', dev'.trans dev.symm,
                      ino'.trans ino.symm⟩
                | none =>
                    refine ⟨.needed i, visit_need found' valid (fun _ => rfl) (marked _)
                      (fun _ _ _ => rfl) modes fun ino dev h there' => ?_⟩
                    rcases Hlookup_Hinsert there' with ⟨rfl, rfl, rfl⟩ | before
                    · exact Or.inr ⟨rfl, here⟩
                    · exact Or.inl before
              · exact ⟨.needed i, visit_need found' valid (fun _ => rfl) (marked _)
                  (fun _ _ _ => rfl) modes fun _ _ _ there => Or.inl there⟩
            next =>
              split
              · exact ⟨.needed i, visit_need found' valid (fun _ => rfl) (marked _)
                  (fun _ _ _ => rfl) modes fun _ _ _ there => Or.inl there⟩
              next other => exact ⟨.denied, denial fun directory => absurd directory other⟩

/-- The answers after the needs have been visited. -/
theorem listfilesServer_tracks (fs : ServerFiles) (r : Releases) {needT : NodeTree}
    (plain : ∀ n ∈ names needT, Canonical n) :
    ∃ answer, Tracks fs r answer (listfilesServer fs r.trees needT) ∧
      ∀ n, answer n ≠ none ↔ n ∈ names needT := by
  -- over the requests that are left, whose names have no answer yet
  have fold : ∀ (requests : List (CString × Node)) (answer : CString → Option Answer)
      (s : Answers), Tracks fs r answer s → Table.Sorted requests →
      (∀ e ∈ requests, Canonical e.1 ∧ answer e.1 = none) →
      ∃ answer', Tracks fs r answer' (requests.foldl (denyone fs) s) ∧
        ∀ n, answer' n ≠ none ↔ answer n ≠ none ∨ n ∈ requests.map Prod.fst := by
    intro requests
    induction requests with
    | nil =>
        intro answer s tracks _ _
        exact ⟨answer, tracks, fun n => by simp⟩
    | cons e requests ih =>
        intro answer s tracks sorted fresh
        obtain ⟨above, sorted'⟩ := List.pairwise_cons.mp sorted
        obtain ⟨canonical, new⟩ := fresh e List.mem_cons_self
        obtain ⟨a, visit⟩ := visit_denyone tracks canonical e.2
        obtain ⟨answer', tracks', given⟩ := ih _ _ (visit.tracks tracks new) sorted'
          fun e' member => by
            obtain ⟨canonical', new'⟩ := fresh e' (List.mem_cons_of_mem e member)
            rw [Function.update_of_ne (ne_of_gt (above e' member))]
            exact ⟨canonical', new'⟩
        refine ⟨answer', tracks', fun n => ?_⟩
        rw [given, List.map_cons, List.mem_cons]
        by_cases here : n = e.1
        · rw [here, Function.update_self]
          simp
        · rw [Function.update_of_ne here]
          simp [here]
  obtain ⟨answer, tracks, given⟩ := fold needT.toList _ _ Tracks.start needT.ordered
    fun e member => ⟨plain e.1 (List.mem_map_of_mem member), rfl⟩
  refine ⟨answer, tracks, fun n => ?_⟩
  rw [given, names]
  simp

end Visits

/-! ## The order of what is sent -/

section Turns

variable {trees : List NodeTree}

/-- The first of two entries that are sent in this order. -/
def SentBefore (x y : Nat × CString × Node) : Prop :=
  (x.1, x.2.1) ≠ (y.1, y.2.1) ∧
    (fmt x.2.2.mode = S_IFDIR →
      fmt y.2.2.mode = S_IFDIR ∧ (x.1 < y.1 ∨ (x.1 = y.1 ∧ y.2.1 < x.2.1)))

theorem mem_entriesFrom {k : Nat} {x : Nat × CString × Node} :
    x ∈ (entriesFrom k trees).flatten ↔
      ∃ i, x.1 = k + i ∧ nodeAt trees i x.2.1 = some x.2.2 := by
  induction trees generalizing k with
  | nil => simp [entriesFrom, nodeAt]
  | cons t trees ih =>
      rw [entriesFrom, List.flatten_cons, List.mem_append, ih, List.mem_map]
      constructor
      · rintro (⟨e, member, rfl⟩ | ⟨i, index, found⟩)
        · refine ⟨0, rfl, ?_⟩
          rw [nodeAt, List.getElem?_cons_zero, Option.bind_some]
          exact SearchTree.mem_toList.mp member
        · exact ⟨i + 1, by omega, found⟩
      · rintro ⟨i, index, found⟩
        cases i with
        | zero =>
            refine Or.inl ⟨x.2, SearchTree.mem_toList.mpr found, ?_⟩
            exact Prod.ext index.symm rfl
        | succ i => exact Or.inr ⟨i, by omega, found⟩

theorem entriesFrom_index {k : Nat} : ∀ l ∈ entriesFrom k trees, ∀ x ∈ l, k ≤ x.1 := by
  intro l member x inside
  obtain ⟨i, index, -⟩ := mem_entriesFrom.mp (List.mem_flatten_of_mem member inside)
  omega

theorem entriesFrom_sorted {k : Nat} : ∀ l ∈ entriesFrom k trees,
    l.Pairwise fun x y => x.1 = y.1 ∧ x.2.1 < y.2.1 := by
  induction trees generalizing k with
  | nil => exact fun l member => absurd member List.not_mem_nil
  | cons t trees ih =>
      intro l member
      rcases List.mem_cons.mp member with rfl | member
      · rw [List.pairwise_map]
        exact t.ordered.imp fun less => ⟨rfl, less⟩
      · exact ih l member

theorem entriesFrom_pairwise {k : Nat} :
    (entriesFrom k trees).Pairwise fun l l' => ∀ x ∈ l, ∀ y ∈ l', x.1 < y.1 := by
  induction trees generalizing k with
  | nil => exact List.Pairwise.nil
  | cons t trees ih =>
      refine List.pairwise_cons.mpr ⟨fun l member x inside y inside' => ?_, ih⟩
      obtain ⟨e, -, rfl⟩ := List.mem_map.mp inside
      exact entriesFrom_index l member y inside'

theorem mem_sendturns {x : Nat × CString × Node} : x ∈ sendturns trees ↔
    nodeAt trees x.1 x.2.1 = some x.2.2 ∧ has x.2.2.flags FNEEDED = true := by
  have entry : x ∈ (entriesFrom 0 trees).flatten ↔ nodeAt trees x.1 x.2.1 = some x.2.2 := by
    rw [mem_entriesFrom]
    constructor
    · rintro ⟨i, index, found⟩
      rw [index, Nat.zero_add]
      exact found
    · exact fun found => ⟨x.1, (Nat.zero_add x.1).symm, found⟩
  rw [← entry, List.mem_flatten]
  simp only [sendturns, List.mem_append, List.mem_flatten, List.mem_map, exists_exists_and_eq_and,
    List.mem_filter, List.mem_reverse]
  have needed : (∃ l ∈ entriesFrom 0 trees, x ∈ l ∧ has x.2.2.flags FNEEDED = true) ↔
      (∃ l ∈ entriesFrom 0 trees, x ∈ l) ∧ has x.2.2.flags FNEEDED = true := by
    simp only [← and_assoc, exists_and_right]
  rw [← needed]
  by_cases directory : fmt x.2.2.mode = S_IFDIR
  · simp [directory]
  · simp [directory]

theorem sendturns_pairwise (trees : List NodeTree) : (sendturns trees).Pairwise SentBefore := by
  have different {x y : Nat × CString × Node} (less : x.1 < y.1) :
      (x.1, x.2.1) ≠ (y.1, y.2.1) := fun same => absurd (congrArg Prod.fst same) (ne_of_lt less)
  rw [sendturns, List.pairwise_append]
  refine ⟨List.pairwise_flatten.mpr ⟨?_, ?_⟩, List.pairwise_flatten.mpr ⟨?_, ?_⟩, ?_⟩
  · intro l member
    simp only [List.mem_map, exists_exists_and_eq_and] at member
    obtain ⟨l, member, rfl⟩ := member
    refine (((entriesFrom_sorted l member).filter _).filter _).imp_of_mem ?_
    intro x y first _ order
    have file : fmt x.2.2.mode ≠ S_IFDIR := by simpa using (List.mem_filter.mp first).2
    refine ⟨fun same => ?_, fun directory => absurd directory file⟩
    exact absurd (congrArg Prod.snd same) (ne_of_lt order.2)
  · rw [List.map_map, List.pairwise_map]
    refine entriesFrom_pairwise.imp fun order x first y second => ?_
    simp only [Function.comp_apply, List.mem_filter] at first second
    have file : fmt x.2.2.mode ≠ S_IFDIR := by simpa using first.2
    exact ⟨different (order x first.1.1 y second.1.1), fun directory => absurd directory file⟩
  · intro l member
    simp only [List.mem_map, exists_exists_and_eq_and] at member
    obtain ⟨l, member, rfl⟩ := member
    rw [List.pairwise_reverse]
    refine (((entriesFrom_sorted l member).filter _).filter _).imp_of_mem ?_
    intro x y first _ order
    have directory : fmt x.2.2.mode = S_IFDIR := by simpa using (List.mem_filter.mp first).2
    refine ⟨fun same => ?_, fun _ => ⟨directory, Or.inr ⟨order.1.symm, order.2⟩⟩⟩
    exact absurd (congrArg Prod.snd same) (ne_of_gt order.2)
  · rw [List.map_map, List.pairwise_map]
    refine entriesFrom_pairwise.imp fun order x first y second => ?_
    simp only [Function.comp_apply, List.mem_reverse, List.mem_filter] at first second
    have less := order x first.1.1 y second.1.1
    exact ⟨different less, fun _ => ⟨by simpa using second.2, Or.inl less⟩⟩
  · intro x first y second
    have here := (mem_sendturns.mp (List.mem_append_left _ first)).1
    have there := (mem_sendturns.mp (List.mem_append_right _ second)).1
    simp only [List.mem_flatten, List.mem_map, exists_exists_and_eq_and, List.mem_reverse,
      List.mem_filter] at first second
    obtain ⟨-, -, -, file⟩ := first
    obtain ⟨-, -, -, directory⟩ := second
    have file : fmt x.2.2.mode ≠ S_IFDIR := by simpa using file
    have directory : fmt y.2.2.mode = S_IFDIR := by simpa using directory
    refine ⟨fun same => ?_, fun directory => absurd directory file⟩
    obtain ⟨release, name⟩ := Prod.mk.inj same
    rw [release, name, there] at here
    exact file (Option.some.inj here ▸ directory)

end Turns

/-! ## The theorem -/

section Theorem

variable {fs : ServerFiles} {r : Releases} {needT : NodeTree}

theorem Within.ne {d n : CString} (within : Within d n) : n ≠ d := by
  rintro rfl
  rcases within with ⟨-, -, rest, split⟩ | ⟨root, rest, nonempty, split⟩ | ⟨-, other, -⟩
  · have length := congrArg List.length split
    rw [List.length_append, List.length_cons] at length
    omega
  · rw [root] at split
    exact nonempty (List.cons.inj split).2.symm
  · exact other rfl

variable {answer : CString → Option Answer} {s : Answers} {n : CString}

theorem Tracks.denied_iff (tracks : Tracks fs r answer s) :
    Denied s n ↔ answer n = some .denied := tracks.deny n

theorem Tracks.needed_iff (tracks : Tracks fs r answer s) :
    Needed s n ↔ ∃ i, answer n = some (.needed i) := by
  constructor
  · rintro ⟨i, t, found, flag⟩
    exact ⟨i, (tracks.flag i n t found).mp flag⟩
  · rintro ⟨i, given⟩
    obtain ⟨t', found, -⟩ := tracks.needed n i given
    obtain ⟨t, there, -⟩ := tracks.still_found found
    have node := (searchTrees_eq_some.mp there).1
    exact ⟨i, t, node, (tracks.flag i n t node).mpr given⟩

theorem Tracks.linkOf_iff (tracks : Tracks fs r answer s) {p : Pointer} :
    LinkOf s n p ↔ answer n = some (.linked p) := by
  constructor
  · rintro ⟨t, found, regular, member⟩
    exact (tracks.links p.1 p.2 t found regular n).mp member
  · intro given
    obtain ⟨-, -, -, -, t', -, found, regular, -⟩ := tracks.linked n p given
    obtain ⟨t, there, mode⟩ := tracks.still_found found
    have node := (searchTrees_eq_some.mp there).1
    rw [← mode] at regular
    exact ⟨t, node, regular, (tracks.links p.1 p.2 t node regular n).mpr given⟩

theorem Tracks.folded_iff (tracks : Tracks fs r answer s) :
    Folded fs r s n ↔ ∃ p, answer n = some (.linked p) := by
  constructor
  · rintro ⟨p, link, -⟩
    exact ⟨p, tracks.linkOf_iff.mp link⟩
  · rintro ⟨p, given⟩
    obtain ⟨target, same, -, -, t', -, found, -⟩ := tracks.linked n p given
    obtain ⟨t, there, -⟩ := tracks.still_found found
    have node := (searchTrees_eq_some.mp there).1
    refine ⟨p, tracks.linkOf_iff.mpr given, ⟨t, node, (tracks.flag _ _ t node).mpr target⟩,
      same, fun q link => ?_⟩
    have given' := tracks.linkOf_iff.mp link
    rw [given] at given'
    exact (Answer.linked.inj (Option.some.inj given')).symm

/-- A directory that is sent is one that is found so. -/
theorem Tracks.sentDirectory (tracks : Tracks fs r answer s)
    (given : ∀ n, answer n ≠ none ↔ n ∈ names needT) {x : Nat × CString × Node}
    (sent : x ∈ sendturns s.trees) (directory : fmt x.2.2.mode = S_IFDIR) :
    SentDirectory fs r needT x.1 x.2.1 := by
  obtain ⟨found, flag⟩ := mem_sendturns.mp sent
  have answered := (tracks.flag _ _ _ found).mp flag
  obtain ⟨t, first, valid⟩ := tracks.needed _ _ answered
  obtain ⟨t', there, mode⟩ := tracks.mode_eq found
  rw [(searchTrees_eq_some.mp first).1] at there
  refine ⟨(given _).mp (by rw [answered]; nofun), t, first, ?_, valid⟩
  rw [Option.some.inj there, ← mode, directory]

theorem SentDirectory.sent {i : Nat} (directory : SentDirectory fs r needT i n)
    (tracks : Tracks fs r answer s) (given : ∀ n, answer n ≠ none ↔ n ∈ names needT) :
    ∃ t, (i, n, t) ∈ sendturns s.trees ∧ fmt t.mode = S_IFDIR := by
  obtain ⟨member, t', found, isDirectory, valid⟩ := directory
  have answered := tracks.directory n i t' ((given n).mpr member) found isDirectory valid
  obtain ⟨t, there, mode⟩ := tracks.still_found found
  have node := (searchTrees_eq_some.mp there).1
  refine ⟨t, mem_sendturns.mpr ⟨node, (tracks.flag i n t node).mpr answered⟩, ?_⟩
  rw [mode, isDirectory]

/-- What is sent before an entry, and what after it. -/
theorem sentBefore_of_split {trees : List NodeTree} {before after : List (Nat × CString × Node)}
    {x : Nat × CString × Node} (split : sendturns trees = before ++ x :: after) :
    (∀ y ∈ before, SentBefore y x) ∧ ∀ y ∈ after, SentBefore x y := by
  have order := sendturns_pairwise trees
  rw [split, List.pairwise_append, List.pairwise_cons] at order
  exact ⟨fun y member => order.2.2 y member x List.mem_cons_self, order.2.1.1⟩

/-- Directories that are sent bottom up are found in order. -/
theorem AnsweredOnce.inOrder (once : AnsweredOnce fs r needT)
    (plain : ∀ n ∈ names needT, Canonical n) : DirectoriesInOrder fs r needT := by
  obtain ⟨answer, tracks, given⟩ := listfilesServer_tracks fs r plain
  intro i d j n sentD sentN within
  obtain ⟨t, member, directory⟩ := sentD.sent tracks given
  obtain ⟨u, member', directory'⟩ := sentN.sent tracks given
  obtain ⟨before, after, split⟩ := List.append_of_mem member
  have earlier := once.bottomUp before _ after split directory _ member' within
  exact (((sentBefore_of_split split).1 _ earlier).2 directory').2

theorem answeredOnce_iff (fs : ServerFiles) (r : Releases) (needT : NodeTree)
    (plain : ∀ n ∈ names needT, Canonical n) :
    AnsweredOnce fs r needT ↔ DirectoriesInOrder fs r needT := by
  constructor
  · exact fun once => once.inOrder plain
  · intro inOrder
    obtain ⟨answer, tracks, given⟩ := listfilesServer_tracks fs r plain
    refine ⟨?_, ⟨?_, ?_⟩, ?_, ?_, ?_⟩
    · intro n member
      simp only [tracks.denied_iff, tracks.folded_iff, tracks.needed_iff]
      cases answered : answer n with
      | none => exact absurd answered ((given n).mpr member)
      | some a => cases a <;> simp
    · rw [List.Nodup, List.pairwise_map]
      exact (sendturns_pairwise _).imp fun order => order.1
    · exact fun i n t => mem_sendturns
    · intro before x after split directory y later
      exact (((sentBefore_of_split split).2 y later).2 directory).1
    · intro before x after split directory y member within
      have position := member
      rw [split, List.mem_append, List.mem_cons] at position
      rcases position with earlier | rfl | later
      · exact earlier
      · exact absurd rfl within.ne
      · obtain ⟨directory', order⟩ := ((sentBefore_of_split split).2 y later).2 directory
        have sent : x ∈ sendturns (listfilesServer fs r.trees needT).trees := by
          rw [split]
          exact List.mem_append_right before List.mem_cons_self
        have right := inOrder _ _ _ _ (tracks.sentDirectory given sent directory)
          (tracks.sentDirectory given member directory') within
        rcases order with less | ⟨same, less⟩ <;> rcases right with less' | ⟨same', less'⟩
        · omega
        · omega
        · omega
        · exact absurd less (not_lt_of_gt less')
    · intro x sent
      obtain ⟨found, flag⟩ := mem_sendturns.mp sent
      have answered := (tracks.flag _ _ _ found).mp flag
      refine ⟨(given _).mp (by rw [answered]; nofun), fun regular n member => ?_⟩
      have linked := (tracks.links _ _ _ found regular n).mp member
      exact (given n).mp (by rw [linked]; nofun)

end Theorem

/-! ## Two collections -/

/-- `d`. -/
def directoryD : CString := ⟨[100], noNul_d⟩

/-- `d/s`. -/
def directoryS : CString := ⟨[100, 47, 115], by decide⟩

/-- A tree of directories. -/
def directoryTree (directories : List CString) : NodeTree :=
  directories.foldl (fun tree name => Tfind tree name fun t => { t with mode := S_IFDIR }) .empty

/-- Every file is a directory. -/
def onlyDirectories : ServerFiles where
  stat _ _ := some ⟨S_IFDIR, 2, 0, 0, 0, 0⟩
  lstat _ _ := some ⟨S_IFDIR, 2, 0, 0, 0, 0⟩
  readlink _ _ := none

theorem directoryTree_search {directories : List CString} {n : CString} {t : Node}
    (found : (directoryTree directories).search n = some t) :
    has t.flags FNEEDED = false ∧ t.link = .empty := by
  have fold : ∀ (l : List CString) (tree : NodeTree),
      (∀ t, tree.search n = some t → has t.flags FNEEDED = false ∧ t.link = .empty) →
      ∀ t, (l.foldl (fun tree name => Tfind tree name fun t => { t with mode := S_IFDIR })
        tree).search n = some t → has t.flags FNEEDED = false ∧ t.link = .empty := by
    intro l
    induction l with
    | nil => exact fun _ fresh => fresh
    | cons name l ih =>
        refine fun tree fresh => ih _ fun t there => ?_
        rw [search_Tfind] at there
        split at there
        · obtain rfl := Option.some.inj there
          cases before : tree.search n with
          | none => exact ⟨by decide, rfl⟩
          | some u => exact fresh u before
        · exact fresh t there
  exact fold directories .empty (fun _ there => absurd there nofun) t found

/-- The releases with these directories. -/
def directoryReleases (releases : List (List CString)) : Releases where
  trees := releases.map directoryTree
  fresh := by
    intro i n t found
    rw [nodeAt, List.getElem?_map, Option.bind_map] at found
    obtain ⟨directories, -, there⟩ := Option.bind_eq_some_iff.mp found
    exact directoryTree_search there

theorem answeredOnce_oneRelease : AnsweredOnce onlyDirectories
    (directoryReleases [[directoryD, directoryS]]) (directoryTree [directoryD, directoryS]) := by
  refine (answeredOnce_iff _ _ _ (by decide)).mpr ?_
  rintro i d j n ⟨member, t, found, -⟩ ⟨member', t', found', -⟩ within
  have listed : ∀ m ∈ names (directoryTree [directoryD, directoryS]),
      m = directoryD ∨ m = directoryS := by decide
  have first : ∀ m, m = directoryD ∨ m = directoryS →
      (searchTrees (directoryReleases [[directoryD, directoryS]]).trees m).map Prod.fst =
        some 0 := by
    rintro m (rfl | rfl) <;> decide
  have release := first d (listed d member)
  have release' := first n (listed n member')
  rw [found, Option.map_some] at release
  rw [found', Option.map_some] at release'
  refine Or.inr ⟨(Option.some.inj release').trans (Option.some.inj release).symm, ?_⟩
  rcases within with ⟨-, -, rest, split⟩ | ⟨root, -⟩ | ⟨here, -⟩
  · exact lt_of_continuation split
  · rcases listed d member with rfl | rfl
    · exact absurd root (by decide)
    · exact absurd root (by decide)
  · rcases listed d member with rfl | rfl
    · exact absurd here (by decide)
    · exact absurd here (by decide)

/-- `d` is found in the first release and `d/s` in the second only. -/
theorem directory_before_subdirectory : ¬AnsweredOnce onlyDirectories
    (directoryReleases [[directoryD], [directoryD, directoryS]])
    (directoryTree [directoryD, directoryS]) := by
  intro once
  have above : SentDirectory onlyDirectories
      (directoryReleases [[directoryD], [directoryD, directoryS]])
      (directoryTree [directoryD, directoryS]) 0 directoryD :=
    ⟨by decide, _, rfl, by decide, by decide⟩
  have below : SentDirectory onlyDirectories
      (directoryReleases [[directoryD], [directoryD, directoryS]])
      (directoryTree [directoryD, directoryS]) 1 directoryS :=
    ⟨by decide, _, rfl, by decide, by decide⟩
  have within : Within directoryD directoryS := Or.inl ⟨by decide, by decide, [115], rfl⟩
  have order := once.inOrder (by decide) _ _ _ _ above below within
  exact absurd order (by decide)

end MachFormal.Sup
