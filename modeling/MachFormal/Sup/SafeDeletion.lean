import MachFormal.Sup.Deletion

/-!
# What is deleted is stale and not refused

Every visit of a name is one call of `deleteone` on the node that the merged tree holds
for it, so the account of the visits is read off that tree.  In the order of `strcmp` a
name comes after every directory that it lies in, because the slash comes after the
terminator, so the reverse order tries a directory last.  This is not so for `.`, which
is no prefix of what lies in it, and for `/`, where a character with the high bit set
comes before the terminator.
-/

namespace MachFormal.Sup

open Library

section Statements

variable {σ : Type} (fs : LocalFiles σ) (c : CFlags) (last refuse : List CString)
  (conv : Conversation) (world : σ)

/-- All messages were exchanged. -/
def Conversation.Complete : Prop :=
  conv.refuseSent = true ∧ conv.list.isSome = true ∧ conv.needSent = true ∧
    conv.deny.isSome = true

/-- The name is in the list that came from the server. -/
def Conversation.Lists (name : CString) : Prop :=
  ∃ listT, conv.list = some listT ∧ name ∈ names listT

/-- Only what was received before and is no longer listed is tried, directories after what lies in
them, and what fails to go is tried again next time. -/
structure SafelyDeleted : Prop where
  asked : ∀ name r, (name, some r) ∈ (listfilesClient fs c last refuse conv world).trace →
    conv.Complete ∧ c.delete = true ∧ c.list = false
  stale : ∀ name r, (name, some r) ∈ (listfilesClient fs c last refuse conv world).trace →
    name ∈ names (readlines last) ∧ ¬conv.Lists name ∧
      ∀ d, d = name ∨ Within d name → d ∉ names (readlines refuse)
  bottomUp : ∀ before d done after,
    (listfilesClient fs c last refuse conv world).trace =
      before ++ (d, some (.rmdir done)) :: after →
    ∀ n ∈ names (readlines last), Within d n → n ∈ before.map Prod.fst
  recorded : conv.Complete → c.delete = true → ∀ e lines,
    finishupClient c e (listfilesClient fs c last refuse conv world).lastT = some lines →
    (∀ name, conv.Lists name → name ∈ lines) ∧
    ∀ name r, (name, some r) ∈ (listfilesClient fs c last refuse conv world).trace →
      r.failed = true → name ∈ lines

/-- The name is to be deleted. -/
def Stale (name : CString) : Prop :=
  conv.Complete ∧ c.delete = true ∧ c.list = false ∧ name ∈ names (readlines last) ∧
    ¬conv.Lists name ∧ Tlookup (readlines refuse) name = none

/-- The names are inserted as they are. -/
def PlainNames : Prop :=
  (∀ name ∈ names (readlines last), Canonical name) ∧ ∀ name, conv.Lists name → Canonical name

end Statements

/-! ## Flags and trees -/

theorem has_or_self (flags flag : CInt) (nonzero : flag ≠ 0) :
    has (flags ||| flag) flag = true := by
  have absorbed : (flags ||| flag) &&& flag = flag := by
    ext i
    simp only [BitVec.getElem_and, BitVec.getElem_or]
    cases flags[i] <;> cases flag[i] <;> rfl
  rw [has, absorbed]
  exact decide_eq_true nonzero

@[simp] theorem has_mark (t : Node) : has t.mark.flags FUPDATE = true :=
  has_or_self t.flags FUPDATE (by decide)

theorem readlines_search {lines : List CString} {name : CString} {t : Node}
    (found : (readlines lines).search name = some t) : t = Tmake := by
  have fold : ∀ (l : List CString) (tree : NodeTree),
      (∀ t, tree.search name = some t → t = Tmake) →
      ∀ t, (l.foldl Tinsert tree).search name = some t → t = Tmake := by
    intro l
    induction l with
    | nil => exact fun tree blank => blank
    | cons p l ih =>
        intro tree blank
        refine ih (Tinsert tree p) fun t found => ?_
        rw [search_Tinsert] at found
        split at found
        · cases old : tree.search name with
          | none =>
              rw [old] at found
              exact (Option.some.inj found).symm
          | some u =>
              rw [old] at found
              exact (Option.some.inj found) ▸ blank u old
        · exact blank t found
  exact fold _ .empty nofun t found

section Merge

variable {σ : Type} {fs : LocalFiles σ} {c : CFlags} {world : σ}

variable (fs c world) in
theorem needone_lastT (n : Needs) (e : CString × Node) :
    (needone fs c world n e).lastT = Tfind n.lastT e.1 Node.mark := by
  rw [needone]
  simp only
  split
  · rfl
  · split <;> rfl

theorem merged_search {entries : List (CString × Node)} (canonical : ∀ e ∈ entries, Canonical e.1)
    (n : Needs) (name : CString) :
    (name ∈ entries.map Prod.fst → ∃ t, has t.flags FUPDATE = true ∧
      (entries.foldl (needone fs c world) n).lastT.search name = some t) ∧
    (name ∉ entries.map Prod.fst →
      (entries.foldl (needone fs c world) n).lastT.search name = n.lastT.search name) := by
  -- a name that is marked stays marked
  have kept : ∀ (l : List (CString × Node)) (m : Needs) (t : Node), has t.flags FUPDATE = true →
      m.lastT.search name = some t → ∃ t, has t.flags FUPDATE = true ∧
        (l.foldl (needone fs c world) m).lastT.search name = some t := by
    intro l
    induction l with
    | nil => exact fun m t marked found => ⟨t, marked, found⟩
    | cons e l ih =>
        intro m t marked found
        have step := search_Tfind m.lastT e.1 name Node.mark
        rw [← needone_lastT fs c world] at step
        by_cases same : name = strip e.1
        · rw [if_pos same] at step
          exact ih _ _ (has_mark _) step
        · rw [if_neg same, found] at step
          exact ih _ t marked step
  induction entries generalizing n with
  | nil => exact ⟨fun member => absurd member List.not_mem_nil, fun _ => rfl⟩
  | cons e entries ih =>
      have same : strip e.1 = e.1 := canonical e List.mem_cons_self
      have step := search_Tfind n.lastT e.1 name Node.mark
      rw [same, ← needone_lastT fs c world] at step
      obtain ⟨marked, others⟩ :=
        ih (fun e' member => canonical e' (List.mem_cons_of_mem e member)) (needone fs c world n e)
      constructor
      · intro member
        rcases List.mem_cons.mp member with rfl | member
        · rw [if_pos rfl] at step
          exact kept entries _ _ (has_mark _) step
        · exact marked member
      · intro absent
        have elsewhere : name ≠ e.1 := fun here => absent (here ▸ List.mem_cons_self)
        rw [if_neg elsewhere] at step
        exact (others fun member => absent (List.mem_cons_of_mem _ member)).trans step

end Merge

/-! ## Visits -/

section Visits

variable {σ : Type} {fs : LocalFiles σ} {c : CFlags} {refuseT : NodeTree} {name : CString}
  {t : Node} {world : σ}

/-- A name that is removed is not marked, exists, is not refused, and is to be deleted; if it
is still there it is marked. -/
theorem deleteone_removal {r : Removal}
    (removed : (deleteone fs c refuseT name t world).2.1 = some r) :
    has t.flags FUPDATE = false ∧ (fs.lstat name world).isSome = true ∧
      Tlookup refuseT name = none ∧ c.list = false ∧ c.delete = true ∧
      (r.failed = true → (deleteone fs c refuseT name t world).1 = t.mark) := by
  unfold deleteone at removed ⊢
  cases marked : has t.flags FUPDATE with
  | true =>
      rw [marked] at removed
      exact absurd removed nofun
  | false =>
      cases found : fs.lstat name world with
      | none =>
          rw [marked, found] at removed
          exact absurd removed nofun
      | some st =>
          cases refused : Tlookup refuseT name with
          | some u =>
              rw [marked, found, refused] at removed
              exact absurd removed nofun
          | none =>
              cases listed : c.list with
              | true =>
                  rw [marked, found, refused, listed] at removed
                  exact absurd removed nofun
              | false =>
                  cases delete : c.delete with
                  | false =>
                      rw [marked, found, refused, listed, delete] at removed
                      exact absurd removed nofun
                  | true =>
                      refine ⟨rfl, rfl, rfl, rfl, rfl, fun failed => ?_⟩
                      simp only [marked, found, refused, listed, delete, Option.isSome_none,
                        Bool.not_true, Bool.false_eq_true, if_false] at removed ⊢
                      split at removed
                      next directory =>
                        rw [if_pos directory]
                        split at removed
                        next stays => rw [if_pos stays]
                        next =>
                          obtain rfl := Option.some.inj removed
                          exact absurd failed nofun
                      next other =>
                        rw [if_neg other]
                        split at removed
                        next => rfl
                        next =>
                          obtain rfl := Option.some.inj removed
                          exact absurd failed nofun

theorem deleteone_rmdir {st : Stat} (unmarked : has t.flags FUPDATE = false)
    (found : fs.lstat name world = some st) (directory : fmt st.mode = S_IFDIR)
    (refused : Tlookup refuseT name = none) (listed : c.list = false) (delete : c.delete = true) :
    ∃ done, (deleteone fs c refuseT name t world).2.1 = some (.rmdir done) := by
  unfold deleteone
  simp only [unmarked, found, refused, listed, delete, Option.isSome_none, Bool.not_true,
    Bool.false_eq_true, if_false, if_pos directory]
  split
  · exact ⟨false, rfl⟩
  · exact ⟨true, rfl⟩

theorem deleteone_marked (marked : has t.flags FUPDATE = true) :
    deleteone fs c refuseT name t world = (t, none, world) := by
  rw [deleteone, if_pos marked]

theorem deletenames_spec (entries : List (CString × Node)) (d : Deletion σ)
    (distinct : (entries.map Prod.fst).Nodup)
    (present : ∀ e ∈ entries, (d.lastT.search e.1).isSome = true) :
    ∃ worlds : CString → σ,
      (deletenames fs c refuseT entries d).trace = d.trace ++
        entries.map (fun e => (e.1, (deleteone fs c refuseT e.1 e.2 (worlds e.1)).2.1)) ∧
      (∀ e ∈ entries, (deletenames fs c refuseT entries d).lastT.search e.1 =
        some (deleteone fs c refuseT e.1 e.2 (worlds e.1)).1) ∧
      ∀ name ∉ entries.map Prod.fst,
        (deletenames fs c refuseT entries d).lastT.search name = d.lastT.search name := by
  induction entries generalizing d with
  | nil => exact ⟨fun _ => d.world, (List.append_nil _).symm, nofun, fun _ _ => rfl⟩
  | cons e entries ih =>
      obtain ⟨first, distinct'⟩ := List.nodup_cons.mp distinct
      let result := deleteone fs c refuseT e.1 e.2 d.world
      let next : Deletion σ :=
        ⟨d.lastT.modify e.1 fun _ => result.1, result.2.2, d.trace ++ [(e.1, result.2.1)]⟩
      have step : ∀ name, next.lastT.search name =
          if name = e.1 then (d.lastT.search e.1).map fun _ => result.1
          else d.lastT.search name := fun name => SearchTree.search_modify d.lastT e.1 name _
      have present' : ∀ e' ∈ entries, (next.lastT.search e'.1).isSome = true := by
        intro e' member
        rw [step]
        split
        · rw [Option.isSome_map]
          exact present e List.mem_cons_self
        · exact present e' (List.mem_cons_of_mem e member)
      obtain ⟨worlds, trace, nodes, others⟩ := ih next distinct' present'
      have ran : deletenames fs c refuseT (e :: entries) d = deletenames fs c refuseT entries next :=
        rfl
      have elsewhere : ∀ e' ∈ entries, e'.1 ≠ e.1 :=
        fun e' member same => first (same ▸ List.mem_map_of_mem member)
      refine ⟨Function.update worlds e.1 d.world, ?_, fun e' member => ?_, fun name absent => ?_⟩
      · rw [ran, trace, List.map_cons, Function.update_self, List.append_assoc]
        refine congrArg (d.trace ++ (e.1, result.2.1) :: ·) (List.map_congr_left fun e' member => ?_)
        rw [Function.update_of_ne (elsewhere e' member)]
      · rw [ran]
        rcases List.mem_cons.mp member with rfl | member
        · rw [others e'.1 first, step, if_pos rfl, Function.update_self]
          obtain ⟨u, found⟩ := Option.isSome_iff_exists.mp (present e' List.mem_cons_self)
          rw [found]
          rfl
        · rw [nodes e' member, Function.update_of_ne (elsewhere e' member)]
      · have other : name ≠ e.1 := fun same => absent (same ▸ List.mem_cons_self)
        rw [ran, others name fun member => absent (List.mem_cons_of_mem _ member), step,
          if_neg other]

end Visits

/-! ## The whole of `listfiles` -/

section Whole

variable {σ : Type} (fs : LocalFiles σ) (c : CFlags) (last refuse : List CString)
  (conv : Conversation) (world : σ)

/-- The tree of the last upgrade with the server's list merged in. -/
def merged (listT : NodeTree) : NodeTree :=
  (listT.toList.foldl (needone fs c world) ⟨readlines last, .empty⟩).lastT

theorem listfilesClient_cases :
    ((listfilesClient fs c last refuse conv world).trace = [] ∧
      ¬(conv.Complete ∧ c.delete = true)) ∨
    ∃ listT, conv.Complete ∧ conv.list = some listT ∧
      listfilesClient fs c last refuse conv world =
        deletenames fs c (readlines refuse) (merged fs c last world listT).toList.reverse
          ⟨merged fs c last world listT, world, []⟩ := by
  unfold listfilesClient Conversation.Complete
  cases sent : conv.refuseSent with
  | false => exact Or.inl ⟨rfl, fun both => absurd both.1.1 nofun⟩
  | true =>
      cases received : conv.list with
      | none => exact Or.inl ⟨rfl, fun both => absurd both.1.2.1 nofun⟩
      | some listT =>
          cases asked : conv.needSent with
          | false => exact Or.inl ⟨rfl, fun both => absurd both.1.2.2.1 nofun⟩
          | true =>
              cases denied : conv.deny with
              | none => exact Or.inl ⟨rfl, fun both => absurd both.1.2.2.2 nofun⟩
              | some denyT =>
                  cases wanted : c.all || c.delete || c.old with
                  | false =>
                      refine Or.inl ⟨by simp, fun both => ?_⟩
                      rw [both.2, Bool.or_true, Bool.true_or] at wanted
                      exact absurd wanted nofun
                  | true =>
                      refine Or.inr ⟨listT, ⟨rfl, rfl, rfl, rfl⟩, rfl, ?_⟩
                      simp [merged]

variable {fs c last refuse conv world} {listT : NodeTree}

theorem merged_of_listed (received : conv.list = some listT) (plain : PlainNames last conv)
    {name : CString} (listed : conv.Lists name) :
    ∃ t, has t.flags FUPDATE = true ∧ (merged fs c last world listT).search name = some t := by
  have canonical : ∀ e ∈ listT.toList, Canonical e.1 :=
    fun e member => plain.2 e.1 ⟨listT, received, List.mem_map_of_mem member⟩
  obtain ⟨listT', received', member⟩ := listed
  obtain rfl : listT = listT' := Option.some.inj (received.symm.trans received')
  exact (merged_search canonical ⟨readlines last, .empty⟩ name).1 member

theorem merged_of_unlisted (received : conv.list = some listT) (plain : PlainNames last conv)
    {name : CString} (unlisted : ¬conv.Lists name) :
    (merged fs c last world listT).search name = (readlines last).search name := by
  have canonical : ∀ e ∈ listT.toList, Canonical e.1 :=
    fun e member => plain.2 e.1 ⟨listT, received, List.mem_map_of_mem member⟩
  exact (merged_search canonical ⟨readlines last, .empty⟩ name).2
    fun member => unlisted ⟨listT, received, member⟩

theorem names_merged (received : conv.list = some listT) (plain : PlainNames last conv)
    {name : CString} (member : name ∈ names (readlines last)) :
    name ∈ names (merged fs c last world listT) := by
  rw [mem_names] at member ⊢
  by_cases listed : conv.Lists name
  · obtain ⟨t, _, found⟩ : ∃ t, has t.flags FUPDATE = true ∧
        (merged fs c last world listT).search name = some t :=
      merged_of_listed received plain listed
    rw [found]
    rfl
  · rw [merged_of_unlisted received plain listed]
    exact member

/-- The account of a run in which the names are visited. -/
structure Visited (fs : LocalFiles σ) (c : CFlags) (refuse : List CString) (tree : NodeTree)
    (out : Deletion σ) (worlds : CString → σ) : Prop where
  trace : out.trace = tree.toList.reverse.map
    (fun e => (e.1, (deleteone fs c (readlines refuse) e.1 e.2 (worlds e.1)).2.1))
  nodes : ∀ e ∈ tree.toList, out.lastT.search e.1 =
    some (deleteone fs c (readlines refuse) e.1 e.2 (worlds e.1)).1

theorem listfilesClient_visited (tree : NodeTree) :
    ∃ worlds, Visited fs c refuse tree
      (deletenames fs c (readlines refuse) tree.toList.reverse ⟨tree, world, []⟩) worlds := by
  have sorted : Table.Sorted tree.toList := tree.ordered
  have distinct : (tree.toList.reverse.map Prod.fst).Nodup := by
    rw [List.map_reverse, List.nodup_reverse]
    exact List.pairwise_map.mpr (sorted.imp fun less => ne_of_lt less)
  have present : ∀ e ∈ tree.toList.reverse, (tree.search e.1).isSome = true := by
    intro e member
    have found : tree.search e.1 = some e.2 :=
      SearchTree.mem_toList.mp (List.mem_reverse.mp member)
    rw [found]
    rfl
  obtain ⟨worlds, trace, nodes, _⟩ :=
    deletenames_spec tree.toList.reverse ⟨tree, world, []⟩ distinct present
  exact ⟨worlds, trace, fun e member => nodes e (List.mem_reverse.mpr member)⟩

section Run

variable {tree : NodeTree} {out : Deletion σ} {worlds : CString → σ}
  (visited : Visited fs c refuse tree out worlds)
include visited

theorem Visited.removal {name : CString} {r : Removal} (member : (name, some r) ∈ out.trace) :
    ∃ t, (name, t) ∈ tree.toList ∧
      (deleteone fs c (readlines refuse) name t (worlds name)).2.1 = some r := by
  rw [visited.trace] at member
  obtain ⟨⟨p, t⟩, inside, same⟩ := List.mem_map.mp member
  obtain ⟨rfl, removed⟩ := Prod.mk.inj same
  exact ⟨t, List.mem_reverse.mp inside, removed⟩

theorem Visited.before_iff {before after : List (CString × Option Removal)} {d : CString}
    {r : Option Removal} (split : out.trace = before ++ (d, r) :: after) {n : CString}
    (member : n ∈ names tree) : n ∈ before.map Prod.fst ↔ d < n := by
  have sorted : (names tree).Pairwise (· < ·) := by
    have ordered : Table.Sorted tree.toList := tree.ordered
    exact List.pairwise_map.mpr ordered
  have all : out.trace.map Prod.fst = (names tree).reverse := by
    rw [visited.trace, List.map_map, names, ← List.map_reverse]
    rfl
  have order : (before.map Prod.fst ++ d :: after.map Prod.fst).Pairwise fun a b => b < a := by
    have reversed := List.pairwise_reverse.mpr sorted
    rw [← all, split, List.map_append, List.map_cons] at reversed
    exact reversed
  obtain ⟨_, below, cross⟩ := List.pairwise_append.mp order
  constructor
  · exact fun earlier => cross n earlier d List.mem_cons_self
  · intro less
    have visited' : n ∈ before.map Prod.fst ++ d :: after.map Prod.fst := by
      have inside := List.mem_reverse.mpr member
      rwa [← all, split, List.map_append, List.map_cons] at inside
    rcases List.mem_append.mp visited' with earlier | later
    · exact earlier
    · rcases List.mem_cons.mp later with rfl | later
      · exact absurd less (lt_irrefl n)
      · exact absurd (lt_trans less ((List.pairwise_cons.mp below).1 n later)) (lt_irrefl d)

theorem Visited.recorded {e : Ending} {lines : List CString}
    (finished : finishupClient c e out.lastT = some lines) {name : CString} {t : Node}
    (member : (name, t) ∈ tree.toList)
    (marked : has (deleteone fs c (readlines refuse) name t (worlds name)).1.flags FUPDATE = true) :
    name ∈ lines := by
  have found := visited.nodes (name, t) member
  have listed : lines = (out.lastT.toList.filter fun entry => finishone c entry.2).map Prod.fst := by
    unfold finishupClient at finished
    repeat' split at finished
    all_goals first | contradiction | exact (Option.some.inj finished).symm
  rw [listed]
  refine List.mem_map.mpr ⟨_, List.mem_filter.mpr ⟨SearchTree.mem_toList.mpr found, ?_⟩, rfl⟩
  rw [finishone, marked, Bool.or_true]

end Run

theorem stale_of_removal (plain : PlainNames last conv) (complete : conv.Complete)
    (received : conv.list = some listT) {worlds : CString → σ} {out : Deletion σ}
    (visited : Visited fs c refuse (merged fs c last world listT) out worlds) {name : CString}
    {r : Removal} (member : (name, some r) ∈ out.trace) :
    Stale c last refuse conv name ∧ name.data.length < MAXPATHLEN := by
  obtain ⟨t, inside, removed⟩ := visited.removal member
  obtain ⟨unmarked, exists_, refused, listing, delete, _⟩ := deleteone_removal removed
  have found := SearchTree.mem_toList.mp inside
  have unlisted : ¬conv.Lists name := by
    intro listed
    obtain ⟨u, marked, there⟩ : ∃ u, has u.flags FUPDATE = true ∧
        (merged fs c last world listT).search name = some u :=
      merged_of_listed received plain listed
    obtain rfl := Option.some.inj (found.symm.trans there)
    exact absurd (unmarked.symm.trans marked) nofun
  rw [merged_of_unlisted received plain unlisted] at found
  refine ⟨⟨complete, delete, listing, ?_, unlisted, refused⟩, ?_⟩
  · rw [mem_names, found]
    rfl
  · by_contra long
    rw [fs.tooLong name _ (Nat.not_lt.mp long)] at exists_
    exact absurd exists_ nofun

theorem rmdir_of_stale (plain : PlainNames last conv) (received : conv.list = some listT)
    {worlds : CString → σ} {out : Deletion σ}
    (visited : Visited fs c refuse (merged fs c last world listT) out worlds) {d : CString}
    (top : d = here ∨ d = root) (stale : Stale c last refuse conv d) :
    ∃ before done after, out.trace = before ++ (d, some (.rmdir done)) :: after := by
  obtain ⟨_, delete, listing, member, unlisted, refused⟩ := stale
  obtain ⟨t, found⟩ := Option.isSome_iff_exists.mp (mem_names.mp member)
  obtain rfl := readlines_search found
  rw [← merged_of_unlisted received plain unlisted] at found
  obtain ⟨st, there, directory⟩ := fs.directory d (worlds d) top
  obtain ⟨done, tried⟩ := deleteone_rmdir (t := Tmake) rfl there directory refused listing delete
  have visit : (d, some (Removal.rmdir done)) ∈ out.trace := by
    rw [visited.trace]
    refine List.mem_map.mpr ⟨(d, Tmake), ?_, by rw [tried]⟩
    exact List.mem_reverse.mpr (SearchTree.mem_toList.mpr found)
  obtain ⟨before, after, split⟩ := List.append_of_mem visit
  exact ⟨before, done, after, split⟩

end Whole

theorem lt_of_continuation {d n : CString} {rest : Name} (split : n.data = d.data ++ slash :: rest) :
    d < n := by
  rw [CString.lt_iff, split, characters, characters, List.map_append, List.append_assoc]
  refine List.append_left_lt ?_
  rw [List.map_cons, List.cons_append, List.cons_lt_cons_iff]
  exact Or.inl (by decide)

section Theorem

variable {σ : Type} (fs : LocalFiles σ) (c : CFlags) (last refuse : List CString)
  (conv : Conversation) (world : σ)

variable {fs c last refuse conv world} in
/-- If the deletion is safe, `.` and `/` come before what lies in them. -/
theorem SafelyDeleted.top_lt (plain : PlainNames last conv)
    (safe : SafelyDeleted fs c last refuse conv world) {d : CString} (top : d = here ∨ d = root)
    (stale : Stale c last refuse conv d) {n : CString} (member : n ∈ names (readlines last))
    (within : Within d n) : d < n := by
  rcases listfilesClient_cases fs c last refuse conv world with ⟨_, off⟩ | visiting
  · exact absurd ⟨stale.1, stale.2.1⟩ off
  · obtain ⟨listT, complete, received, ran⟩ := visiting
    obtain ⟨worlds, visited⟩ : ∃ worlds, Visited fs c refuse (merged fs c last world listT)
        (listfilesClient fs c last refuse conv world) worlds := by
      rw [ran]
      exact listfilesClient_visited _
    obtain ⟨before, done, after, split⟩ := rmdir_of_stale plain received visited top stale
    have earlier := safe.bottomUp before d done after split n member within
    exact (visited.before_iff split (names_merged received plain member)).mp earlier

end Theorem

/-! ## Two collections -/

/-- Directories `.` and `/`, and regular files else; everything can be deleted. -/
def flatFiles : LocalFiles Unit where
  lstat name _ :=
    if MAXPATHLEN ≤ name.data.length then none
    else if name = here ∨ name = root then some ⟨S_IFDIR, 0, 0, 0, 0, 0⟩
    else some ⟨S_IFREG, 0, 0, 0, 0, 0⟩
  stat _ _ := none
  unlink _ _ := (true, ())
  rmdir _ _ := ()
  tooLong _ _ long := if_pos long
  directory name _ top := by
    have short : ¬MAXPATHLEN ≤ name.data.length := by
      rcases top with rfl | rfl <;> decide
    exact ⟨_, (if_neg short).trans (if_pos top), by decide⟩

/-- Nothing is left in the collection. -/
def emptied : Conversation := ⟨true, some .empty, true, some .empty⟩

def deleting : CFlags := ⟨false, true, false, false⟩

theorem plainNames_emptied {last : List CString}
    (canonical : ∀ name ∈ names (readlines last), Canonical name) : PlainNames last emptied := by
  refine ⟨canonical, ?_⟩
  rintro name ⟨listT, received, member⟩
  obtain rfl := Option.some.inj received
  exact absurd member List.not_mem_nil

/-- `a` and `a/b`. -/
def smallTree : List CString := [⟨[97], noNul_a⟩, ⟨[97, 47, 98], by decide⟩]

/-- `.` and `-x`. -/
def wholeDirectory : List CString := [⟨[46], by decide⟩, ⟨[45, 120], by decide⟩]

end MachFormal.Sup
