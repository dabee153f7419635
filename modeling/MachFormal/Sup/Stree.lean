import Mathlib.Data.List.Lex
import MachFormal.Library.SearchTree
import MachFormal.Sup.Transfer

/-!
# Trees of names

The lists of files are search trees under the whole path name, in the order of
`strcmp` on signed characters.  `Tinsert` and `Tlookup` take one leading `./` off the
name they are given, `Tsearch` does not.  `Tlookup` finds a name also by a directory
that it lies in, among the first `MAXPATHLEN` bytes of it.
-/

namespace MachFormal.Sup

open Library

/-! ## Strings in order -/

/-- `strcmp`, with the terminator compared like any other character. -/
def strcmp : List Byte → List Byte → Int
  | [], [] => 0
  | [], b :: _ => 0 - b.toInt
  | a :: _, [] => a.toInt - 0
  | a :: s, b :: t => if a = b then strcmp s t else a.toInt - b.toInt

theorem strcmp_neg (s t : List Byte) : strcmp s t = -strcmp t s := by
  induction s generalizing t with
  | nil =>
      cases t with
      | nil => rfl
      | cons b t => simp [strcmp]
  | cons a s ih =>
      cases t with
      | nil => simp [strcmp]
      | cons b t =>
          rw [strcmp, strcmp, ih t]
          by_cases same : a = b
          · rw [if_pos same, if_pos same.symm]
          · rw [if_neg same, if_neg (Ne.symm same)]
            omega

theorem toInt_ne_zero {a : Byte} (nonzero : a ≠ 0) : a.toInt ≠ 0 :=
  fun zero => nonzero (BitVec.eq_of_toInt_eq (zero.trans BitVec.toInt_zero.symm))

/-- The characters that `strcmp` compares. -/
def characters (s : List Byte) : List Int := s.map BitVec.toInt ++ [0]

theorem characters_injective {s t : List Byte} (same : characters s = characters t) : s = t :=
  List.map_injective_iff.mpr (fun _ _ => BitVec.eq_of_toInt_eq) (List.append_cancel_right same)

/-- Strings are in the order of their characters. -/
theorem strcmp_neg_iff {s t : List Byte} (noNul : (0 : Byte) ∉ s) (noNul' : (0 : Byte) ∉ t) :
    strcmp s t < 0 ↔ characters s < characters t := by
  induction s generalizing t with
  | nil =>
      cases t with
      | nil => exact iff_of_false (Int.lt_irrefl 0) (lt_irrefl _)
      | cons b t =>
          have nonzero := toInt_ne_zero fun zero => noNul' (zero ▸ List.mem_cons_self)
          change 0 - b.toInt < 0 ↔ [0] < b.toInt :: characters t
          rw [List.cons_lt_cons_iff]
          omega
  | cons a s ih =>
      cases t with
      | nil =>
          have nonzero := toInt_ne_zero fun zero => noNul (zero ▸ List.mem_cons_self)
          change a.toInt - 0 < 0 ↔ a.toInt :: characters s < [0]
          rw [List.cons_lt_cons_iff]
          omega
      | cons b t =>
          have rest := ih (t := t) (fun nul => noNul (List.mem_cons_of_mem a nul))
            fun nul => noNul' (List.mem_cons_of_mem b nul)
          change strcmp (a :: s) (b :: t) < 0 ↔
            a.toInt :: characters s < b.toInt :: characters t
          rw [strcmp, List.cons_lt_cons_iff, ← rest]
          split
          next same =>
            subst same
            rw [and_iff_right rfl, or_iff_right (Int.lt_irrefl a.toInt)]
          next other =>
            have different : a.toInt ≠ b.toInt := fun same => other (BitVec.eq_of_toInt_eq same)
            omega

@[ext] theorem CString.ext {s t : CString} (same : s.data = t.data) : s = t := by
  cases s
  cases t
  cases same
  rfl

theorem CString.strcmp_nonpos_iff (s t : CString) :
    strcmp s.data t.data ≤ 0 ↔ characters s.data ≤ characters t.data := by
  rw [← not_lt, ← not_lt, ← strcmp_neg_iff t.noNul s.noNul, strcmp_neg t.data s.data]
  omega

instance : DecidableEq CString := fun s t =>
  decidable_of_iff (s.data = t.data) ⟨CString.ext, congrArg CString.data⟩

/-- The order of the trees. -/
instance : LinearOrder CString where
  le s t := strcmp s.data t.data ≤ 0
  lt s t := strcmp s.data t.data < 0
  le_refl s := (CString.strcmp_nonpos_iff s s).mpr (le_refl _)
  le_trans s t u first second := by
    have first' := (CString.strcmp_nonpos_iff s t).mp first
    have second' := (CString.strcmp_nonpos_iff t u).mp second
    exact (CString.strcmp_nonpos_iff s u).mpr (le_trans first' second')
  lt_iff_le_not_ge s t := by
    rw [CString.strcmp_nonpos_iff, CString.strcmp_nonpos_iff, strcmp_neg_iff s.noNul t.noNul]
    exact lt_iff_le_not_ge
  le_antisymm s t first second := by
    have first' := (CString.strcmp_nonpos_iff s t).mp first
    have second' := (CString.strcmp_nonpos_iff t s).mp second
    exact CString.ext (characters_injective (le_antisymm first' second'))
  le_total s t := by
    rw [CString.strcmp_nonpos_iff, CString.strcmp_nonpos_iff]
    exact le_total _ _
  toDecidableLE s t := inferInstanceAs (Decidable (strcmp s.data t.data ≤ 0))
  toDecidableLT s t := inferInstanceAs (Decidable (strcmp s.data t.data < 0))
  toDecidableEq := inferInstance

theorem CString.lt_iff {s t : CString} : s < t ↔ characters s.data < characters t.data :=
  strcmp_neg_iff s.noNul t.noNul

/-! ## Nodes -/

/-- A tree of which only the names are used. -/
abbrev NameTree := SearchTree CString Unit

/-- The fields of a `TREE` node, without its name. -/
structure Node where
  flags : CInt
  uid : CInt
  gid : CInt
  user : Option CString
  group : Option CString
  mode : CInt
  ctime : CInt
  mtime : CInt
  link : NameTree
  exec : NameTree

def Tmake : Node := ⟨0, 0, 0, none, none, 0, 0, 0, .empty, .empty⟩

instance : Inhabited Node := ⟨Tmake⟩

abbrev NodeTree := SearchTree CString Node

/-! ## Insertion and lookup -/

def dot : Byte := 46

/-- One leading `./` is taken off, with the slashes that follow it. -/
def strip (p : CString) : CString where
  data :=
    match p.data with
    | a :: b :: rest =>
        if a = dot ∧ b = slash then
          if rest.dropWhile (· = slash) = [] then [dot] else rest.dropWhile (· = slash)
        else a :: b :: rest
    | short => short
  noNul := by
    have noNul := p.noNul
    split
    next a b rest given =>
      rw [given] at noNul
      split
      · split
        · decide
        · intro nul
          have suffix := (List.dropWhile_suffix _).mem nul
          exact noNul (List.mem_cons_of_mem a (List.mem_cons_of_mem b suffix))
      · exact noNul
    next => exact noNul

/-- The name is inserted under itself. -/
def Canonical (p : CString) : Prop := strip p = p

instance (p : CString) : Decidable (Canonical p) := inferInstanceAs (Decidable (strip p = p))

theorem strip_shorter (p : CString) : Canonical p ∨ (strip p).data.length < p.data.length := by
  have either : (strip p).data = p.data ∨ (strip p).data.length < p.data.length := by
    dsimp only [strip]
    cases given : p.data with
    | nil => exact Or.inl rfl
    | cons a tail =>
        cases tail with
        | nil => exact Or.inl rfl
        | cons b rest =>
            have suffix : rest.dropWhile (· = slash) <:+ rest := List.dropWhile_suffix _
            have length := suffix.length_le
            dsimp only
            split
            · right
              rw [List.length_cons, List.length_cons]
              split
              · exact Nat.succ_lt_succ (Nat.succ_pos _)
              · omega
            · exact Or.inl rfl
  exact either.imp_left CString.ext

section Trees

variable {α : Type}

/-- The names of a tree. -/
def names (t : SearchTree CString α) : List CString := t.toList.map Prod.fst

theorem mem_names {t : SearchTree CString α} {p : CString} :
    p ∈ names t ↔ (t.search p).isSome := by
  rw [names, List.mem_map, Option.isSome_iff_exists]
  constructor
  · rintro ⟨⟨q, a⟩, member, rfl⟩
    exact ⟨a, SearchTree.mem_toList.mp member⟩
  · rintro ⟨a, found⟩
    exact ⟨(p, a), SearchTree.mem_toList.mpr found, rfl⟩

theorem nodup_names (t : SearchTree CString α) : (names t).Nodup :=
  List.Pairwise.map _ (fun _ _ less => ne_of_lt less) t.ordered

variable [Inhabited α]

/-- `Tinsert` with `find`, and what is done to the node. -/
def Tfind (t : SearchTree CString α) (p : CString) (f : α → α) : SearchTree CString α :=
  (t.insert (strip p) default).modify (strip p) f

/-- `Tinsert` without `find`, and what is done to the node if it is new. -/
def Tadd (t : SearchTree CString α) (p : CString) (f : α → α) : SearchTree CString α :=
  match t.search (strip p) with
  | some _ => t
  | none => (t.insert (strip p) default).modify (strip p) f

/-- `Tinsert` without `find`, for its effect on the tree only. -/
def Tinsert (t : SearchTree CString α) (p : CString) : SearchTree CString α := Tadd t p id

theorem search_Tfind (t : SearchTree CString α) (p q : CString) (f : α → α) :
    (Tfind t p f).search q =
      if q = strip p then some (f ((t.search q).getD default)) else t.search q := by
  rw [Tfind, SearchTree.search_modify, SearchTree.search_insert]
  split
  next same => rw [if_pos rfl, Option.map_some, same]
  next other => rw [SearchTree.search_insert, if_neg other]

theorem search_Tadd (t : SearchTree CString α) (p q : CString) (f : α → α) :
    (Tadd t p f).search q =
      if q = strip p ∧ t.search q = none then some (f default) else t.search q := by
  rw [Tadd]
  split
  next a found =>
    refine (if_neg ?_).symm
    rintro ⟨rfl, none⟩
    exact absurd (none.symm.trans found) nofun
  next none =>
    have inserted := search_Tfind t p q f
    rw [Tfind] at inserted
    rw [inserted]
    by_cases same : q = strip p
    · rw [if_pos same, if_pos ⟨same, same ▸ none⟩, same, none]
      rfl
    · rw [if_neg same, if_neg fun both => same both.1]

theorem search_Tinsert (t : SearchTree CString α) (p q : CString) :
    (Tinsert t p).search q =
      if q = strip p then some ((t.search q).getD default) else t.search q := by
  rw [Tinsert, search_Tadd]
  by_cases same : q = strip p
  · rw [if_pos same]
    cases t.search q with
    | none => rw [if_pos ⟨same, rfl⟩]; rfl
    | some a => rw [if_neg fun both => absurd both.2 nofun]; rfl
  · rw [if_neg same, if_neg fun both => same both.1]

theorem mem_names_Tinsert {t : SearchTree CString α} {p q : CString} :
    q ∈ names (Tinsert t p) ↔ q = strip p ∨ q ∈ names t := by
  rw [mem_names, mem_names, search_Tinsert]
  by_cases same : q = strip p
  · rw [if_pos same]
    exact iff_of_true rfl (Or.inl same)
  · rw [if_neg same, or_iff_right same]

/-- Names that are inserted one after the other. -/
theorem mem_names_inserts {t : SearchTree CString α} (l : List CString) {q : CString} :
    q ∈ names (l.foldl Tinsert t) ↔ (∃ p ∈ l, strip p = q) ∨ q ∈ names t := by
  induction l generalizing t with
  | nil => simp
  | cons p l ih =>
      rw [List.foldl_cons, ih, mem_names_Tinsert, List.exists_mem_cons_iff, or_assoc,
        or_left_comm, eq_comm (a := q)]

theorem mem_names_inserted (l : List CString) {q : CString} :
    q ∈ names (l.foldl Tinsert (.empty : SearchTree CString α)) ↔ ∃ p ∈ l, strip p = q :=
  (mem_names_inserts l).trans (or_iff_left List.not_mem_nil)

/-- A tree rebuilt from the entries of another, all under names that are inserted as they are. -/
theorem search_rebuild {β : Type} {g : β → α → α}
    {step : SearchTree CString α → CString × β → SearchTree CString α}
    (spec : ∀ u e q, (step u e).search q =
      if q = strip e.1 then some (g e.2 ((u.search q).getD default)) else u.search q)
    (t : SearchTree CString β) (canonical : ∀ p ∈ names t, Canonical p) (q : CString) :
    (t.toList.foldl step .empty).search q = (t.search q).map fun b => g b default := by
  have fold : ∀ entries : List (CString × β), (∀ e ∈ entries, Canonical e.1) →
      Table.Sorted entries → ∀ u : SearchTree CString α, (entries.foldl step u).search q =
        match entries.find? (fun e => e.1 = q) with
        | some e => some (g e.2 ((u.search q).getD default))
        | none => u.search q := by
    intro entries
    induction entries with
    | nil => exact fun _ _ _ => rfl
    | cons e entries ih =>
        intro canonical sorted u
        obtain ⟨above, sorted'⟩ := List.pairwise_cons.mp sorted
        have here : strip e.1 = e.1 := canonical e List.mem_cons_self
        have canonical' := fun e' member => canonical e' (List.mem_cons_of_mem e member)
        rw [List.foldl_cons, ih canonical' sorted', List.find?_cons, spec, here]
        by_cases same : e.1 = q
        · have later : entries.find? (fun e => e.1 = q) = none := by
            refine List.find?_eq_none.mpr fun e' member same' => ?_
            have less := above e' member
            rw [same, of_decide_eq_true same'] at less
            exact lt_irrefl q less
          rw [later, decide_eq_true same, if_pos same.symm]
        · rw [if_neg (Ne.symm same), decide_eq_false same]
  have sorted : Table.Sorted t.toList := t.ordered
  rw [fold t.toList (fun e member => canonical e.1 (List.mem_map_of_mem member)) sorted .empty,
    SearchTree.find?_toList]
  cases t.search q with
  | none => rfl
  | some b => rfl

end Trees

def MAXPATHLEN : Nat := 1024

/-- What stands before the last run of slashes that is followed by no other slash. -/
def cut (buf : Name) : Option Name :=
  match buf.reverse.dropWhile (· ≠ slash) with
  | [] => none
  | _ :: before => some (before.dropWhile (· = slash)).reverse

/-- The names that the loop of `Tlookup` tries, from the buffer on. -/
def directories : Nat → Name → List Name
  | 0, _ => []
  | fuel + 1, buf =>
      match cut buf with
      | none => []
      | some [] => [[slash]]
      | some (c :: d) => (c :: d) :: directories fuel (c :: d)

/-- All names that `Tlookup` tries, in turn. -/
def candidates (p : CString) : List Name :=
  let name := (strip p).data
  [name] ++ (if name.head? = some slash then [] else [[dot]]) ++
    directories (name.length + 1) (name.take MAXPATHLEN)

/-! The directories that a name lies in are among those that are tried. -/

theorem cut_append {head tail : Name} (last : slash ∉ tail) :
    cut (head ++ slash :: tail) = some (head.reverse.dropWhile (· = slash)).reverse := by
  have skipped :
      (head ++ slash :: tail).reverse.dropWhile (· ≠ slash) = slash :: head.reverse := by
    rw [List.reverse_append, List.reverse_cons, List.append_assoc, List.singleton_append,
      List.dropWhile_append_of_pos]
    · exact List.dropWhile_cons_of_neg (by simp)
    · intro b member
      refine decide_eq_true fun same => last ?_
      exact same ▸ List.mem_reverse.mp member
  rw [cut, skipped]

/-- Without the slashes at its end. -/
theorem strip_end {d : Name} (tail : Name) (solid : d.getLast? ≠ some slash) :
    ((d ++ tail).reverse.dropWhile (· = slash)).reverse = d ∨
      ∃ rest, rest <+: tail ∧ rest ≠ [] ∧
        ((d ++ tail).reverse.dropWhile (· = slash)).reverse = d ++ rest := by
  rw [List.reverse_append, List.dropWhile_append]
  split
  next all =>
    left
    have unchanged : d.reverse.dropWhile (· = slash) = d.reverse := by
      rw [← List.head?_reverse] at solid
      cases reversed : d.reverse with
      | nil => rfl
      | cons b rest =>
          rw [reversed, List.head?_cons] at solid
          exact List.dropWhile_cons_of_neg (by simpa using solid)
    rw [unchanged, List.reverse_reverse]
  next some =>
    right
    refine ⟨(tail.reverse.dropWhile (· = slash)).reverse, ?_, ?_, ?_⟩
    · have suffix : tail.reverse.dropWhile (· = slash) <:+ tail.reverse :=
        List.dropWhile_suffix _
      rw [← List.reverse_reverse tail]
      exact List.reverse_prefix.mpr (by simpa using suffix)
    · intro empty
      exact some (by simpa using empty)
    · rw [List.reverse_append, List.reverse_reverse]

/-- A list with a slash, cut at its last one. -/
theorem last_slash {buf : Name} (member : slash ∈ buf) :
    ∃ head tail, buf = head ++ slash :: tail ∧ slash ∉ tail := by
  induction buf with
  | nil => exact absurd member List.not_mem_nil
  | cons b buf ih =>
      by_cases later : slash ∈ buf
      · obtain ⟨head, tail, rfl, none⟩ := ih later
        exact ⟨b :: head, tail, rfl, none⟩
      · rcases List.mem_cons.mp member with rfl | member
        · exact ⟨[], buf, rfl, later⟩
        · exact absurd member later

theorem mem_directories {d : Name} (nonempty : d ≠ []) (solid : d.getLast? ≠ some slash)
    (fuel : Nat) : ∀ rest, (d ++ slash :: rest).length < fuel →
      d ∈ directories fuel (d ++ slash :: rest) := by
  induction fuel with
  | zero => exact fun rest enough => absurd enough (Nat.not_lt_zero _)
  | succ fuel ih =>
      intro rest enough
      obtain ⟨head, tail, split, last⟩ :=
        last_slash (List.mem_append_right d (List.mem_cons_self : slash ∈ slash :: rest))
      -- the slash after `d` is the last one, or comes before it
      have before : ∃ more, head = d ++ more ∧ (more = [] ∨ ∃ more', more = slash :: more') := by
        rcases List.append_eq_append_iff.mp split with ⟨more, eq, eq'⟩ | ⟨more, eq, eq'⟩
        · refine ⟨more, eq, ?_⟩
          cases more with
          | nil => exact Or.inl rfl
          | cons b more => exact Or.inr ⟨more, by rw [(List.cons.inj eq').1]⟩
        · cases more with
          | nil => exact ⟨[], by rw [eq, List.append_nil, List.append_nil], Or.inl rfl⟩
          | cons b more =>
              refine absurd ?_ last
              rw [(List.cons.inj eq').2]
              exact List.mem_append_right more List.mem_cons_self
      obtain ⟨more, rfl, shape⟩ := before
      rw [split, directories, cut_append last]
      have shorter : (d ++ more).length < fuel := by
        rw [split] at enough
        simp only [List.length_append, List.length_cons] at enough ⊢
        omega
      rcases strip_end more solid with same | ⟨rest', initial, some, same⟩
      · rw [same]
        cases d with
        | nil => exact absurd rfl nonempty
        | cons b d => exact List.mem_cons_self
      · rw [same]
        obtain ⟨more', rfl⟩ : ∃ more', rest' = slash :: more' := by
          obtain ⟨more'', whole⟩ := initial
          cases rest' with
          | nil => exact absurd rfl some
          | cons b rest' =>
              rcases shape with rfl | ⟨more', rfl⟩
              · exact absurd whole nofun
              · exact ⟨rest', by rw [(List.cons.inj whole).1]⟩
        cases d with
        | nil => exact absurd rfl nonempty
        | cons b d =>
            refine List.mem_cons_of_mem _ (ih more' ?_)
            refine Nat.lt_of_le_of_lt ?_ shorter
            simp only [List.length_append]
            have := initial.length_le
            omega

theorem root_mem_directories (fuel : Nat) : ∀ rest, (slash :: rest).length < fuel →
    [slash] ∈ directories fuel (slash :: rest) := by
  induction fuel with
  | zero => exact fun rest enough => absurd enough (Nat.not_lt_zero _)
  | succ fuel ih =>
      intro rest enough
      obtain ⟨head, tail, split, last⟩ := last_slash (List.mem_cons_self : slash ∈ slash :: rest)
      rw [split, directories, cut_append last]
      have initial : (head.reverse.dropWhile (· = slash)).reverse <+: slash :: rest := by
        have suffix : head.reverse.dropWhile (· = slash) <:+ head.reverse :=
          List.dropWhile_suffix _
        have below : (head.reverse.dropWhile (· = slash)).reverse <+: head := by
          rw [← List.reverse_reverse head]
          exact List.reverse_prefix.mpr (by simpa using suffix)
        exact split ▸ below.trans (List.prefix_append head _)
      cases cutoff : (head.reverse.dropWhile (· = slash)).reverse with
      | nil => exact List.mem_cons_self
      | cons b more =>
          have short : (b :: more).length ≤ head.length := by
            rw [← cutoff, List.length_reverse]
            exact (List.dropWhile_suffix _).length_le.trans (by rw [List.length_reverse])
          rw [cutoff] at initial
          obtain ⟨more', whole⟩ := initial
          obtain rfl : b = slash := (List.cons.inj whole).1
          refine List.mem_cons_of_mem _ (ih more ?_)
          rw [split] at enough
          simp only [List.length_append, List.length_cons] at enough short ⊢
          omega

/-- The name lies in the directory. -/
def Within (d n : CString) : Prop :=
  (d.data ≠ [] ∧ d.data.getLast? ≠ some slash ∧ ∃ rest, n.data = d.data ++ slash :: rest) ∨
    (d.data = [slash] ∧ ∃ rest, rest ≠ [] ∧ n.data = slash :: rest) ∨
    (d.data = [dot] ∧ n ≠ d ∧ n.data.head? ≠ some slash)

/-- A directory that a name lies in is tried, if the name is no longer than the buffer. -/
theorem Within.mem_candidates {d n : CString} (within : Within d n) (canonical : Canonical n)
    (short : n.data.length ≤ MAXPATHLEN) : d.data ∈ candidates n := by
  have whole : n.data.take MAXPATHLEN = n.data := List.take_of_length_le short
  have same : strip n = n := canonical
  simp only [candidates, same, whole]
  rcases within with ⟨nonempty, solid, rest, split⟩ | ⟨root, rest, _, split⟩ | ⟨here, _, relative⟩
  · refine List.mem_append_right _ ?_
    rw [split]
    exact mem_directories nonempty solid _ rest (Nat.lt_succ_self _)
  · refine List.mem_append_right _ ?_
    rw [root, split]
    exact root_mem_directories _ rest (Nat.lt_succ_self _)
  · refine List.mem_append_left _ (List.mem_append_right _ ?_)
    rw [here, if_neg relative]
    exact List.mem_cons_self

def Tlookup {α : Type} (t : SearchTree CString α) (p : CString) : Option α :=
  (candidates p).findSome? fun name => t.search (CString.ofMemory name)

theorem Tlookup_eq_none {α : Type} {t : SearchTree CString α} {p q : CString}
    (none : Tlookup t p = none) (candidate : q.data ∈ candidates p) : t.search q = .none := by
  have tried := List.findSome?_eq_none_iff.mp none q.data candidate
  rwa [CString.ofMemory_data] at tried

end MachFormal.Sup
