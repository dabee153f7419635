import Mathlib.Order.Defs.LinearOrder
import Mathlib.Order.Lattice
import Mathlib.Data.List.Basic
import Mathlib.Data.List.Pairwise
import Mathlib.Logic.Basic

/-!
# Balanced search trees

The tree of a program that inserts, searches and visits in order, and never deletes.
The balance factors decide about the shape only: whatever they are, a rotation keeps
the entries and their order, so that the tree is a table sorted by its keys.
-/

namespace MachFormal.Library

/-- The nodes, each with its balance factor: the height of the low side less that of the
high side. -/
inductive Avl (κ α : Type) where
  | nil
  | node (lo : Avl κ α) (key : κ) (value : α) (bf : Int) (hi : Avl κ α)

namespace Avl

variable {κ α : Type}

/-- The entries in the order of a visit. -/
def toList : Avl κ α → List (κ × α)
  | nil => []
  | node lo key value _ hi => lo.toList ++ (key, value) :: hi.toList

def factor : Avl κ α → Int
  | nil => 0
  | node _ _ _ bf _ => bf

/-! ## Rotations -/

def rotateLowLow : Avl κ α → Avl κ α
  | node (node ll lk la _ lh) k a _ hi => node ll lk la 0 (node lh k a 0 hi)
  | t => t

def rotateLowHigh : Avl κ α → Avl κ α
  | node (node ll lk la _ (node ml mk ma mb mh)) k a _ hi =>
      node (node ll lk la (if mb = -1 then 1 else 0) ml) mk ma 0
        (node mh k a (if mb = 1 then -1 else 0) hi)
  | t => t

def rotateHighLow : Avl κ α → Avl κ α
  | node lo k a _ (node (node ml mk ma mb mh) hk ha _ hh) =>
      node (node lo k a (if mb = -1 then 1 else 0) ml) mk ma 0
        (node mh hk ha (if mb = 1 then -1 else 0) hh)
  | t => t

def rotateHighHigh : Avl κ α → Avl κ α
  | node lo k a _ (node hl hk ha _ hh) => node (node lo k a 0 hl) hk ha 0 hh
  | t => t

/-- The rotation that is due, if any. -/
def balance : Avl κ α → Avl κ α
  | nil => nil
  | node lo k a bf hi =>
      if bf < 2 ∧ -2 < bf then node lo k a bf hi
      else if 0 < bf then
        if 0 < lo.factor then rotateLowLow (node lo k a bf hi)
        else rotateLowHigh (node lo k a bf hi)
      else
        if 0 < hi.factor then rotateHighLow (node lo k a bf hi)
        else rotateHighHigh (node lo k a bf hi)

theorem toList_rotateLowLow (t : Avl κ α) : t.rotateLowLow.toList = t.toList := by
  unfold rotateLowLow
  split
  · simp [toList]
  · rfl

theorem toList_rotateLowHigh (t : Avl κ α) : t.rotateLowHigh.toList = t.toList := by
  unfold rotateLowHigh
  split
  · simp [toList]
  · rfl

theorem toList_rotateHighLow (t : Avl κ α) : t.rotateHighLow.toList = t.toList := by
  unfold rotateHighLow
  split
  · simp [toList]
  · rfl

theorem toList_rotateHighHigh (t : Avl κ α) : t.rotateHighHigh.toList = t.toList := by
  unfold rotateHighHigh
  split
  · simp [toList]
  · rfl

theorem toList_balance (t : Avl κ α) : t.balance.toList = t.toList := by
  cases t with
  | nil => rfl
  | node lo k a bf hi =>
      rw [balance]
      split
      · rfl
      · split
        · split
          · exact toList_rotateLowLow _
          · exact toList_rotateLowHigh _
        · split
          · exact toList_rotateHighLow _
          · exact toList_rotateHighHigh _

/-! ## Operations -/

variable [LinearOrder κ]

/-- The tree with the entry, unless there is one under the key, and how much it has grown. -/
def insert (p : κ) (a : α) : Avl κ α → Avl κ α × Int
  | nil => (node nil p a 0 nil, 1)
  | node lo k b bf hi =>
      if p = k then (node lo k b bf hi, 0)
      else if p < k then
        let t := balance (node (lo.insert p a).1 k b (bf + (lo.insert p a).2) hi)
        (t, if t.factor = 0 then 0 else (lo.insert p a).2)
      else
        let t := balance (node lo k b (bf - (hi.insert p a).2) (hi.insert p a).1)
        (t, if t.factor = 0 then 0 else (hi.insert p a).2)

def search (p : κ) : Avl κ α → Option α
  | nil => none
  | node lo k a _ hi => if p = k then some a else if p < k then lo.search p else hi.search p

/-- The entry under the key is changed in place. -/
def modify (p : κ) (f : α → α) : Avl κ α → Avl κ α
  | nil => nil
  | node lo k a bf hi =>
      if p = k then node lo k (f a) bf hi
      else if p < k then node (lo.modify p f) k a bf hi
      else node lo k a bf (hi.modify p f)

end Avl

/-! ## Sorted tables -/

namespace Table

variable {κ α : Type}

/-- The keys increase. -/
def Sorted [LinearOrder κ] (entries : List (κ × α)) : Prop :=
  entries.Pairwise fun a b => a.1 < b.1

variable [LinearOrder κ] {entries left right : List (κ × α)} {p k : κ} {a b : α}

theorem sorted_append :
    Sorted (left ++ (k, b) :: right) ↔ Sorted left ∧ Sorted right ∧
      (∀ e ∈ left, e.1 < k) ∧ ∀ e ∈ right, k < e.1 := by
  simp only [Sorted, List.pairwise_append, List.pairwise_cons, List.mem_cons, forall_eq_or_imp]
  constructor
  · rintro ⟨sortedLeft, ⟨above, sortedRight⟩, cross⟩
    exact ⟨sortedLeft, sortedRight, fun e member => (cross e member).1, above⟩
  · rintro ⟨sortedLeft, sortedRight, below, above⟩
    exact ⟨sortedLeft, ⟨above, sortedRight⟩, fun e member =>
      ⟨below e member, fun e' member' => lt_trans (below e member) (above e' member')⟩⟩

/-- Sorted tables with the same entries are the same. -/
theorem Sorted.ext (sorted : Sorted left) (sorted' : Sorted right)
    (same : ∀ e, e ∈ left ↔ e ∈ right) : left = right := by
  have distinct : left.Nodup := sorted.imp fun less equal => absurd (equal ▸ less) (lt_irrefl _)
  have distinct' : right.Nodup := sorted'.imp fun less equal => absurd (equal ▸ less) (lt_irrefl _)
  refine List.Perm.eq_of_pairwise ?_ sorted sorted'
    ((List.perm_ext_iff_of_nodup distinct distinct').mpr same)
  exact fun a b _ _ less greater => absurd (lt_trans less greater) (lt_irrefl _)

/-- The table with the entry, unless there is one under the key. -/
def insert (p : κ) (a : α) : List (κ × α) → List (κ × α)
  | [] => [(p, a)]
  | (k, b) :: rest =>
      if p = k then (k, b) :: rest
      else if p < k then (p, a) :: (k, b) :: rest
      else (k, b) :: insert p a rest

theorem insert_append_of_lt (less : p < k) :
    insert p a (left ++ (k, b) :: right) = insert p a left ++ (k, b) :: right := by
  induction left with
  | nil =>
      simp only [List.nil_append, insert, if_neg (ne_of_lt less), if_pos less, List.cons_append]
  | cons e left ih =>
      rw [List.cons_append, insert, insert, ih]
      split
      · rfl
      · split <;> rfl

theorem insert_append_of_all_lt (below : ∀ e ∈ left, e.1 < p) :
    insert p a (left ++ right) = left ++ insert p a right := by
  induction left with
  | nil => rfl
  | cons e left ih =>
      have less : e.1 < p := below e List.mem_cons_self
      rw [List.cons_append, insert, if_neg (ne_of_gt less), if_neg (not_lt_of_gt less),
        ih fun e' member => below e' (List.mem_cons_of_mem e member)]
      rfl

theorem mem_insert (sorted : Sorted entries) {e : κ × α} :
    e ∈ insert p a entries ↔ e ∈ entries ∨ (e = (p, a) ∧ ∀ b, (p, b) ∉ entries) := by
  induction entries with
  | nil => simp [insert]
  | cons first rest ih =>
      obtain ⟨above, sorted'⟩ := List.pairwise_cons.mp sorted
      rw [insert]
      split
      next same =>
        subst same
        refine (or_iff_left ?_).symm
        rintro ⟨_, absent⟩
        exact absent first.2 List.mem_cons_self
      next other =>
        split
        next less =>
          have absent : ∀ b, (p, b) ∉ first :: rest := by
            intro b member
            rcases List.mem_cons.mp member with same | member
            · exact other (congrArg Prod.fst same)
            · exact absurd (lt_trans less (above (p, b) member)) (lt_irrefl p)
          rw [List.mem_cons, or_comm]
          exact or_congr_right (and_iff_left absent).symm
        next =>
          have first_iff : (∀ b, (p, b) ∉ first :: rest) ↔ ∀ b, (p, b) ∉ rest := by
            refine forall_congr' fun b => not_congr (List.mem_cons.trans (or_iff_right ?_))
            exact fun same => other (congrArg Prod.fst same)
          rw [List.mem_cons, ih sorted', first_iff, List.mem_cons, or_assoc]

theorem Sorted.insert (sorted : Sorted entries) (p : κ) (a : α) :
    Sorted (Table.insert p a entries) := by
  induction entries with
  | nil => exact List.pairwise_singleton _ _
  | cons first rest ih =>
      obtain ⟨above, sorted'⟩ := List.pairwise_cons.mp sorted
      rw [Table.insert]
      split
      next => exact sorted
      next other =>
        split
        next less =>
          refine List.pairwise_cons.mpr ⟨fun e member => ?_, sorted⟩
          rcases List.mem_cons.mp member with rfl | member
          · exact less
          · exact lt_trans less (above e member)
        next notLess =>
          have greater : first.1 < p := lt_of_le_of_ne (le_of_not_gt notLess) (Ne.symm other)
          refine List.pairwise_cons.mpr ⟨fun e member => ?_, ih sorted'⟩
          rcases (mem_insert sorted').mp member with member | ⟨rfl, _⟩
          · exact above e member
          · exact greater

end Table

namespace Avl

variable {κ α : Type} [LinearOrder κ] {t : Avl κ α} {p : κ} {a : α}

theorem toList_insert (sorted : Table.Sorted t.toList) :
    (t.insert p a).1.toList = Table.insert p a t.toList := by
  induction t with
  | nil => rfl
  | node lo k b bf hi lowIh highIh =>
      obtain ⟨sortedLow, sortedHigh, below, above⟩ := Table.sorted_append.mp sorted
      rw [insert]
      split
      next same =>
        subst same
        rw [toList, Table.insert_append_of_all_lt below, Table.insert, if_pos rfl]
      next other =>
        split
        next less =>
          rw [toList_balance, toList, lowIh sortedLow, toList, Table.insert_append_of_lt less]
        next notLess =>
          have greater : k < p := lt_of_le_of_ne (le_of_not_gt notLess) (Ne.symm other)
          have below' : ∀ e ∈ lo.toList, e.1 < p :=
            fun e member => lt_trans (below e member) greater
          rw [toList_balance, toList, highIh sortedHigh, toList,
            Table.insert_append_of_all_lt below', Table.insert, if_neg other, if_neg notLess]

theorem search_eq_some_iff (sorted : Table.Sorted t.toList) :
    t.search p = some a ↔ (p, a) ∈ t.toList := by
  induction t with
  | nil => exact iff_of_false nofun List.not_mem_nil
  | node lo k b bf hi lowIh highIh =>
      obtain ⟨sortedLow, sortedHigh, below, above⟩ := Table.sorted_append.mp sorted
      rw [search, toList, List.mem_append, List.mem_cons]
      split
      next same =>
        subst same
        have notLow : (p, a) ∉ lo.toList := fun member => absurd (below (p, a) member) (lt_irrefl p)
        have notHigh : (p, a) ∉ hi.toList :=
          fun member => absurd (above (p, a) member) (lt_irrefl p)
        rw [or_iff_right notLow, or_iff_left notHigh, Option.some_inj, Prod.mk.injEq,
          and_iff_right rfl, eq_comm]
      next other =>
        have notHere : (p, a) ≠ (k, b) := fun same => other (congrArg Prod.fst same)
        rw [or_iff_right notHere]
        split
        next less =>
          have notHigh : (p, a) ∉ hi.toList :=
            fun member => absurd (lt_trans less (above (p, a) member)) (lt_irrefl p)
          rw [lowIh sortedLow, or_iff_left notHigh]
        next notLess =>
          have notLow : (p, a) ∉ lo.toList := fun member => notLess (below (p, a) member)
          rw [highIh sortedHigh, or_iff_right notLow]

/-- A change in place is a change of the table. -/
theorem toList_modify (sorted : Table.Sorted t.toList) (f : α → α) :
    (t.modify p f).toList = t.toList.map fun e => if e.1 = p then (e.1, f e.2) else e := by
  have unchanged : ∀ l : List (κ × α), (∀ e ∈ l, e.1 ≠ p) →
      l.map (fun e => if e.1 = p then (e.1, f e.2) else e) = l := by
    intro l other
    refine (List.map_congr_left fun e member => ?_).trans (List.map_id l)
    exact if_neg (other e member)
  induction t with
  | nil => rfl
  | node lo k b bf hi lowIh highIh =>
      obtain ⟨sortedLow, sortedHigh, below, above⟩ := Table.sorted_append.mp sorted
      rw [modify, toList, List.map_append, List.map_cons]
      split
      next same =>
        subst same
        rw [unchanged lo.toList fun e member => ne_of_lt (below e member),
          unchanged hi.toList fun e member => ne_of_gt (above e member), if_pos rfl]
        rfl
      next other =>
        rw [if_neg (Ne.symm other)]
        split
        next less =>
          rw [unchanged hi.toList fun e member => ne_of_gt (lt_trans less (above e member)), toList,
            lowIh sortedLow]
        next notLess =>
          have greater : k < p := lt_of_le_of_ne (le_of_not_gt notLess) (Ne.symm other)
          rw [unchanged lo.toList fun e member => ne_of_lt (lt_trans (below e member) greater),
            toList, highIh sortedHigh]

end Avl

/-! ## Search trees -/

/-- A tree whose keys are in order. -/
structure SearchTree (κ α : Type) [LinearOrder κ] where
  root : Avl κ α
  ordered : Table.Sorted root.toList

namespace SearchTree

variable {κ α : Type} [LinearOrder κ] {t t' : SearchTree κ α} {p q : κ} {a b : α}

def empty : SearchTree κ α := ⟨.nil, List.Pairwise.nil⟩

def toList (t : SearchTree κ α) : List (κ × α) := t.root.toList

def search (t : SearchTree κ α) (p : κ) : Option α := t.root.search p

def insert (t : SearchTree κ α) (p : κ) (a : α) : SearchTree κ α where
  root := (t.root.insert p a).1
  ordered := by
    rw [Avl.toList_insert t.ordered]
    exact t.ordered.insert p a

def modify (t : SearchTree κ α) (p : κ) (f : α → α) : SearchTree κ α where
  root := t.root.modify p f
  ordered := by
    rw [Avl.toList_modify t.ordered]
    refine List.pairwise_map.mpr (t.ordered.imp fun {x y} less => ?_)
    have key : ∀ e : κ × α, (if e.1 = p then (e.1, f e.2) else e).1 = e.1 := by
      intro e
      split <;> rfl
    rw [key x, key y]
    exact less

theorem mem_toList : (p, a) ∈ t.toList ↔ t.search p = some a :=
  (Avl.search_eq_some_iff t.ordered).symm

@[simp] theorem search_empty (p : κ) : (empty : SearchTree κ α).search p = none := rfl

theorem search_eq_none_iff : t.search p = none ↔ ∀ a, (p, a) ∉ t.toList := by
  rw [Option.eq_none_iff_forall_ne_some]
  exact forall_congr' fun a => not_congr mem_toList.symm

theorem search_insert (t : SearchTree κ α) (p q : κ) (a : α) :
    (t.insert p a).search q = if q = p then some ((t.search p).getD a) else t.search q := by
  refine Option.ext fun b => ?_
  have member : (t.insert p a).search q = some b ↔ (q, b) ∈ Table.insert p a t.toList := by
    rw [← mem_toList, toList, insert, Avl.toList_insert t.ordered]
    rfl
  have sorted : Table.Sorted t.toList := t.ordered
  rw [member, Table.mem_insert sorted, ← search_eq_none_iff]
  split
  next same =>
    subst same
    have here : (q, b) ∈ t.toList ↔ t.search q = some b := mem_toList
    rw [here]
    cases t.search q with
    | none => simp [eq_comm]
    | some c => simp
  next other =>
    have elsewhere : ¬((q, b) = (p, a) ∧ t.search p = none) :=
      fun both => other (congrArg Prod.fst both.1)
    rw [or_iff_left elsewhere]
    exact mem_toList

theorem search_modify (t : SearchTree κ α) (p q : κ) (f : α → α) :
    (t.modify p f).search q = if q = p then (t.search p).map f else t.search q := by
  refine Option.ext fun b => ?_
  have member : (t.modify p f).search q = some b ↔
      ∃ e ∈ t.toList, (if e.1 = p then (e.1, f e.2) else e) = (q, b) := by
    rw [← mem_toList, toList, modify, Avl.toList_modify t.ordered, List.mem_map]
    rfl
  rw [member]
  split
  next same =>
    subst same
    rw [Option.map_eq_some_iff]
    constructor
    · rintro ⟨⟨k, c⟩, found, changed⟩
      split at changed
      next here =>
        subst here
        exact ⟨c, mem_toList.mp found, congrArg Prod.snd changed⟩
      next elsewhere => exact absurd (congrArg Prod.fst changed) elsewhere
    · rintro ⟨c, found, rfl⟩
      exact ⟨(q, c), mem_toList.mpr found, if_pos rfl⟩
  next other =>
    rw [← mem_toList]
    constructor
    · rintro ⟨⟨k, c⟩, found, changed⟩
      split at changed
      next here => exact absurd ((congrArg Prod.fst changed).symm.trans here) other
      next => exact changed ▸ found
    · exact fun found => ⟨(q, b), found, if_neg other⟩

/-- The entry of a visit that has the key. -/
theorem find?_toList (t : SearchTree κ α) (p : κ) :
    t.toList.find? (fun e => e.1 = p) = (t.search p).map fun a => (p, a) := by
  cases found : t.search p with
  | none =>
      refine List.find?_eq_none.mpr fun e member same => ?_
      have key : e.1 = p := of_decide_eq_true same
      have here : t.search e.1 = some e.2 := mem_toList.mp member
      rw [key, found] at here
      exact absurd here nofun
  | some a =>
      have present : (p, a) ∈ t.toList := mem_toList.mpr found
      cases first : t.toList.find? (fun e => e.1 = p) with
      | none => exact absurd (decide_eq_true rfl) (List.find?_eq_none.mp first (p, a) present)
      | some e =>
          have key : e.1 = p := of_decide_eq_true (List.find?_some first :)
          have here : t.search e.1 = some e.2 := mem_toList.mp (List.mem_of_find?_eq_some first)
          rw [key, found] at here
          have same : e = (p, a) := Prod.ext key (Option.some.inj here).symm
          rw [same]
          rfl

/-- A tree is visited as what it holds. -/
theorem toList_eq_of_search (same : ∀ p, t.search p = t'.search p) : t.toList = t'.toList := by
  refine t.ordered.ext t'.ordered fun e => ?_
  have here : e ∈ t.toList ↔ t.search e.1 = some e.2 := mem_toList
  rw [same e.1] at here
  exact here.trans mem_toList.symm

end SearchTree

end MachFormal.Library
