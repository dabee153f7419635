import Mathlib.Algebra.GroupWithZero.Nat
import Mathlib.Data.List.Induction
import Mathlib.Data.List.TakeWhile

/-!
# Names of places

A name consists of components with separators between them.  The places are given by a
function that looks up a component in a place, and a name is resolved component by
component, from the root if it begins with a separator.  Separators that follow each other
or end the name do not count.
-/

namespace MachFormal.Library.Paths

variable {α : Type}

/-! ## Components -/

section Components

variable [DecidableEq α] (sep : α)

def components (s : List α) : List (List α) := (s.splitOn sep).filter (· ≠ [])

theorem components_nil : components sep [] = [] := rfl

theorem components_append (a b : List α) :
    components sep (a ++ sep :: b) = components sep a ++ components sep b := by
  rw [components, List.splitOn_append_cons_self, List.filter_append]
  rfl

theorem components_cons (b : List α) : components sep (sep :: b) = components sep b :=
  components_append sep [] b

theorem components_concat (a : List α) : components sep (a ++ [sep]) = components sep a := by
  rw [components_append, components_nil, List.append_nil]

theorem components_replicate (a : List α) (n : Nat) :
    components sep (a ++ List.replicate n sep) = components sep a := by
  induction n with
  | zero => rw [List.replicate_zero, List.append_nil]
  | succ n ih => rw [List.replicate_succ', ← List.append_assoc, components_concat, ih]

theorem components_single {c : List α} (simple : sep ∉ c) (filled : c ≠ []) :
    components sep c = [c] := by
  rw [components, List.splitOn_eq_singleton simple]
  simp [filled]

theorem components_dropWhile (s : List α) :
    components sep (s.dropWhile (· = sep)) = components sep s := by
  induction s with
  | nil => rfl
  | cons a s ih =>
      rw [List.dropWhile_cons]
      split
      · next same => rw [ih, of_decide_eq_true same, components_cons]
      · rfl

theorem takeWhile_filled {s : List α} (first : s.head? ≠ some sep) (filled : s ≠ []) :
    s.takeWhile (· ≠ sep) ≠ [] := by
  cases s with
  | nil => exact absurd rfl filled
  | cons a s =>
      have other : a ≠ sep := fun same => first (congrArg some same)
      simp [other]

theorem sep_not_mem_takeWhile (s : List α) : sep ∉ s.takeWhile (· ≠ sep) := fun inside => by
  simpa using List.mem_takeWhile_imp inside

/-- A component ends at a separator. -/
theorem dropWhile_delimiter {s rest : List α} {b : α} (same : s.dropWhile (· ≠ sep) = b :: rest) :
    b = sep := by
  have stopped := List.head_dropWhile_not (fun c => decide (c ≠ sep))
    (same ▸ List.cons_ne_nil b rest : s.dropWhile (· ≠ sep) ≠ [])
  simp only [same, List.head_cons] at stopped
  simpa using stopped

/-- The first component and the rest. -/
theorem components_takeWhile {s : List α} (first : s.head? ≠ some sep) (filled : s ≠ []) :
    components sep s = s.takeWhile (· ≠ sep) ::
      components sep ((s.dropWhile (· ≠ sep)).drop 1) := by
  have begun := takeWhile_filled sep first filled
  conv => lhs; rw [← List.takeWhile_append_dropWhile (p := (· ≠ sep)) (l := s)]
  cases rest : s.dropWhile (· ≠ sep) with
  | nil =>
      rw [List.append_nil, components_single sep (sep_not_mem_takeWhile sep s) begun]
      rfl
  | cons b rest' =>
      rw [dropWhile_delimiter sep rest, components_append,
        components_single sep (sep_not_mem_takeWhile sep s) begun]
      rfl

end Components

/-! ## Resolution -/

/-- Where a name is looked up: a root, a current place, and the places that a component
leads to.  Of some places a name may have to say no more, others can stand before a
separator at the end of a name. -/
structure Places (α ν : Type) where
  root : ν
  current : ν
  lookup : ν → List α → Option ν
  opens : ν → Bool

variable {ν : Type} (places : Places α ν)

/-- From a place, a list of components leads to another. -/
def Places.walk (start : ν) (steps : List (List α)) : Option ν :=
  steps.foldlM places.lookup start

def Places.start [DecidableEq α] (sep : α) (s : List α) : ν :=
  if s.head? = some sep then places.root else places.current

/-- The place that a name names. -/
def Places.resolve [DecidableEq α] (sep : α) (s : List α) : Option ν :=
  (places.walk (places.start sep s) (components sep s)).filter fun x =>
    s.getLast? ≠ some sep || places.opens x

variable {places}

theorem Places.walk_append (start : ν) (front back : List (List α)) :
    places.walk start (front ++ back) = (places.walk start front).bind (places.walk · back) :=
  List.foldlM_append

theorem Places.walk_cons (start : ν) (c : List α) (steps : List (List α)) :
    places.walk start (c :: steps) = (places.lookup start c).bind (places.walk · steps) :=
  List.foldlM_cons

theorem Places.walk_eq_foldl (start : ν) (steps : List (List α)) :
    places.walk start steps =
      steps.foldl (fun x c => x.bind (places.lookup · c)) (some start) := by
  induction steps using List.reverseRecOn with
  | nil => rfl
  | append_singleton steps c ih =>
      rw [walk_append, List.foldl_append, List.foldl_cons, List.foldl_nil, ← ih]
      cases places.walk start steps with
      | none => rfl
      | some x =>
          rw [Option.bind_some, Option.bind_some, walk_cons]
          exact Option.bind_fun_some _

/-! ## Superfluous components -/

/-- The characters of the components, with a separator for each. -/
def size (cs : List (List α)) : Nat := (cs.map fun c => c.length + 1).sum

theorem length_le_size (cs : List (List α)) : cs.length ≤ size cs := by
  induction cs with
  | nil => exact Nat.zero_le _
  | cons c cs ih =>
      rw [size, List.map_cons, List.sum_cons, ← size, List.length_cons]
      omega

theorem size_append (front back : List (List α)) :
    size (front ++ back) = size front + size back := by
  rw [size, List.map_append, List.sum_append]
  rfl

theorem size_cons (c : List α) (cs : List (List α)) : size (c :: cs) = c.length + 1 + size cs :=
  List.sum_cons

theorem length_flatMap (sep : α) (cs : List (List α)) :
    (cs.flatMap (sep :: ·)).length = size cs := by
  rw [List.length_flatMap]
  rfl

section Superfluous

variable [DecidableEq α] (sep dot : α)

/-- One more component behind the ones that are kept.  The component that leads up again
takes the last one with it, unless nothing but such components has been kept. -/
def push (kept : List (List α)) (c : List α) : List (List α) :=
  if c = [] ∨ c = [dot] then kept
  else if c = [dot, dot] then
    if ∀ k ∈ kept, k = [dot, dot] then kept ++ [c] else kept.dropLast
  else kept ++ [c]

/-- What remains of a list of components. -/
def settle (cs : List (List α)) : List (List α) := cs.foldl (push dot) []

/-- The name of a place below the root. -/
def absolute (cs : List (List α)) : List α := if cs = [] then [sep] else cs.flatMap (sep :: ·)

/-- A component that leads down. -/
def Down (c : List α) : Prop := c ≠ [] ∧ c ≠ [dot] ∧ c ≠ [dot, dot]

/-- First the components that lead up, then the ones that lead down. -/
def Settled (cs : List (List α)) : Prop :=
  ∃ ups downs, cs = List.replicate ups [dot, dot] ++ downs ∧ ∀ c ∈ downs, Down dot c

variable {sep dot}

theorem push_empty (kept : List (List α)) : push dot kept [] = kept := if_pos (.inl rfl)

theorem push_dot (kept : List (List α)) : push dot kept [dot] = kept := if_pos (.inr rfl)

theorem push_down (kept : List (List α)) {c : List α} (down : Down dot c) :
    push dot kept c = kept ++ [c] := by
  rw [push, if_neg (not_or.mpr ⟨down.1, down.2.1⟩), if_neg down.2.2]

theorem push_up (ups : Nat) :
    push dot (List.replicate ups [dot, dot]) [dot, dot] = List.replicate (ups + 1) [dot, dot] := by
  rw [push, if_neg (by simp), if_pos rfl, if_pos fun k inside => List.eq_of_mem_replicate inside,
    ← List.replicate_succ']

theorem push_back (kept : List (List α)) {c : List α} (down : Down dot c) :
    push dot (kept ++ [c]) [dot, dot] = kept := by
  rw [push, if_neg (by simp), if_pos rfl, if_neg, List.dropLast_concat]
  exact fun all => down.2.2 (all c (List.mem_append_right kept List.mem_cons_self))

theorem Settled.push {kept : List (List α)} (settled : Settled dot kept) (c : List α) :
    Settled dot (push dot kept c) := by
  obtain ⟨ups, downs, rfl, all⟩ := settled
  by_cases down : Down dot c
  · rw [push_down _ down]
    refine ⟨ups, downs ++ [c], List.append_assoc _ _ _, fun d inside => ?_⟩
    rcases List.mem_append.mp inside with old | new
    · exact all d old
    · exact List.mem_singleton.mp new ▸ down
  · by_cases empty : c = []
    · rw [empty, push_empty]
      exact ⟨ups, downs, rfl, all⟩
    · by_cases here : c = [dot]
      · rw [here, push_dot]
        exact ⟨ups, downs, rfl, all⟩
      · obtain rfl : c = [dot, dot] := by
          by_contra other
          exact down ⟨empty, here, other⟩
        cases downs using List.reverseRecOn with
        | nil =>
            rw [List.append_nil, push_up]
            exact ⟨ups + 1, [], (List.append_nil _).symm, fun _ inside => by cases inside⟩
        | append_singleton downs d =>
            rw [← List.append_assoc,
              push_back _ (all d (List.mem_append_right downs List.mem_cons_self))]
            exact ⟨ups, downs, rfl, fun e inside => all e (List.mem_append_left _ inside)⟩

theorem settled_foldl {kept : List (List α)} (settled : Settled dot kept) (cs : List (List α)) :
    Settled dot (cs.foldl (push dot) kept) := by
  induction cs generalizing kept with
  | nil => exact settled
  | cons c cs ih => exact ih (settled.push c)

theorem settled_settle (cs : List (List α)) : Settled dot (settle dot cs) :=
  settled_foldl ⟨0, [], rfl, fun _ inside => by cases inside⟩ cs

theorem settle_of_settled {cs : List (List α)} (settled : Settled dot cs) : settle dot cs = cs := by
  obtain ⟨ups, downs, rfl, all⟩ := settled
  rw [settle, List.foldl_append]
  have up : (List.replicate ups [dot, dot]).foldl (push dot) [] = List.replicate ups [dot, dot] := by
    induction ups with
    | zero => rfl
    | succ ups ih =>
        rw [List.replicate_succ', List.foldl_append, ih]
        exact (push_up ups).trans List.replicate_succ'
  rw [up]
  generalize List.replicate ups [dot, dot] = kept
  induction downs generalizing kept with
  | nil => exact (List.append_nil kept).symm
  | cons c downs ih =>
      rw [List.foldl_cons, push_down _ (all c List.mem_cons_self),
        ih (fun d inside => all d (List.mem_cons_of_mem c inside)), List.append_assoc]
      rfl

/-- Every component that remains was there. -/
theorem mem_foldl_push {kept cs : List (List α)} {c : List α}
    (inside : c ∈ cs.foldl (push dot) kept) : c ∈ kept ∨ c ∈ cs := by
  induction cs generalizing kept with
  | nil => exact .inl inside
  | cons d cs ih =>
      rcases ih inside with pushed | later
      · rw [Paths.push] at pushed
        split at pushed
        · exact .inl pushed
        · split at pushed
          · split at pushed
            · rcases List.mem_append.mp pushed with old | new
              · exact .inl old
              · exact .inr (List.mem_singleton.mp new ▸ List.mem_cons_self)
            · exact .inl (List.dropLast_subset kept pushed)
          · rcases List.mem_append.mp pushed with old | new
            · exact .inl old
            · exact .inr (List.mem_singleton.mp new ▸ List.mem_cons_self)
      · exact .inr (List.mem_cons_of_mem d later)

theorem mem_settle {cs : List (List α)} {c : List α} (inside : c ∈ settle dot cs) : c ∈ cs := by
  rcases mem_foldl_push inside with none | there
  · cases none
  · exact there

theorem size_splitOn (s : List α) : size (s.splitOn sep) = s.length + 1 := by
  induction s with
  | nil => rfl
  | cons c s ih =>
      rw [List.splitOn_cons_eq_if_modifyHead]
      split
      · rw [size_cons, ih, List.length_cons, List.length_nil]
        omega
      · cases split : s.splitOn sep with
        | nil => exact absurd split (List.splitOn_ne_nil sep s)
        | cons first rest =>
            rw [split, size_cons] at ih
            rw [List.modifyHead_cons, size_cons, List.length_cons, List.length_cons]
            omega

theorem size_push_le (kept : List (List α)) (c : List α) :
    size (push dot kept c) ≤ size kept + (c.length + 1) := by
  have more : size (kept ++ [c]) = size kept + (c.length + 1) := by
    rw [size_append, size_cons]
    rfl
  rw [Paths.push]
  split
  · exact Nat.le_add_right _ _
  · split
    · split
      · exact Nat.le_of_eq more
      · cases kept using List.reverseRecOn with
        | nil => exact Nat.zero_le _
        | append_singleton kept d =>
            rw [List.dropLast_concat, size_append]
            omega
    · exact Nat.le_of_eq more

theorem size_foldl_le (kept cs : List (List α)) :
    size (cs.foldl (push dot) kept) ≤ size kept + size cs := by
  induction cs generalizing kept with
  | nil => exact Nat.le_add_right _ _
  | cons c cs ih =>
      have first : size (push dot kept c) ≤ size kept + (c.length + 1) := size_push_le kept c
      have later := ih (push dot kept c)
      rw [List.foldl_cons, size_cons]
      omega

theorem size_settle_le (cs : List (List α)) : size (settle dot cs) ≤ size cs := by
  have whole : size (settle dot cs) ≤ size [] + size cs := size_foldl_le [] cs
  rwa [show size ([] : List (List α)) = 0 from rfl, Nat.zero_add] at whole

/-- The components of an absolute name, behind the empty one before the first separator. -/
theorem splitOn_flatMap {cs : List (List α)} (simple : ∀ c ∈ cs, sep ∉ c) :
    (cs.flatMap (sep :: ·)).splitOn sep = [] :: cs := by
  induction cs using List.reverseRecOn with
  | nil => rfl
  | append_singleton cs c ih =>
      rw [List.flatMap_append, List.flatMap_singleton, List.splitOn_append_cons_self,
        ih fun d inside => simple d (List.mem_append_left _ inside),
        List.splitOn_eq_singleton (simple c (List.mem_append_right _ List.mem_cons_self))]
      rfl

/-- No component has a separator inside. -/
theorem sep_not_mem_splitOn (s : List α) {c : List α} (inside : c ∈ s.splitOn sep) : sep ∉ c := by
  induction s generalizing c with
  | nil =>
      obtain rfl := List.mem_singleton.mp inside
      exact List.not_mem_nil
  | cons b s ih =>
      rw [List.splitOn_cons_eq_if_modifyHead] at inside
      split at inside
      · rcases List.mem_cons.mp inside with rfl | later
        · exact List.not_mem_nil
        · exact ih later
      next other =>
        cases split : s.splitOn sep with
        | nil => exact absurd split (List.splitOn_ne_nil sep s)
        | cons first rest =>
            rw [split] at inside ih
            rw [List.modifyHead_cons] at inside
            rcases List.mem_cons.mp inside with rfl | later
            · rw [List.mem_cons, not_or]
              exact ⟨fun same => other (by rw [same]; exact beq_self_eq_true b),
                ih List.mem_cons_self⟩
            · exact ih (List.mem_cons_of_mem _ later)

theorem mem_of_mem_splitOn (s : List α) {c : List α} {a : α} (inside : c ∈ s.splitOn sep)
    (member : a ∈ c) : a ∈ s := by
  induction s generalizing c with
  | nil =>
      rw [List.mem_singleton.mp inside] at member
      cases member
  | cons b s ih =>
      rw [List.splitOn_cons_eq_if_modifyHead] at inside
      split at inside
      · rcases List.mem_cons.mp inside with rfl | later
        · cases member
        · exact List.mem_cons_of_mem b (ih later member)
      · cases split : s.splitOn sep with
        | nil => exact absurd split (List.splitOn_ne_nil sep s)
        | cons first rest =>
            rw [split] at inside ih
            rw [List.modifyHead_cons] at inside
            rcases List.mem_cons.mp inside with rfl | later
            · rcases List.mem_cons.mp member with rfl | old
              · exact List.mem_cons_self
              · exact List.mem_cons_of_mem b (ih List.mem_cons_self old)
            · exact List.mem_cons_of_mem b (ih (List.mem_cons_of_mem _ later) member)

omit [DecidableEq α] in
theorem size_filter_le (keep : List α → Bool) (cs : List (List α)) :
    size (cs.filter keep) ≤ size cs := by
  induction cs with
  | nil => exact Nat.le_refl _
  | cons c cs ih =>
      rw [List.filter_cons]
      split
      · rw [size_cons, size_cons]
        omega
      · rw [size_cons]
        omega

theorem size_components (s : List α) : size (components sep s) ≤ s.length + 1 := by
  rw [← @size_splitOn α _ sep s, components]
  exact size_filter_le _ _

theorem components_simple {s c : List α} (inside : c ∈ components sep s) : sep ∉ c ∧ c ≠ [] := by
  rw [components, List.mem_filter] at inside
  exact ⟨sep_not_mem_splitOn s inside.1, of_decide_eq_true inside.2⟩

/-! ## Components with separators between them -/

omit [DecidableEq α] in
theorem intercalate_cons (c d : List α) (cs : List (List α)) :
    [sep].intercalate (c :: d :: cs) = c ++ sep :: [sep].intercalate (d :: cs) := by
  rw [List.intercalate, List.intersperse_cons_cons, List.flatten_cons, List.flatten_cons]
  rfl

omit [DecidableEq α] in
theorem length_intercalate {cs : List (List α)} (filled : cs ≠ []) :
    ([sep].intercalate cs).length + 1 = size cs := by
  induction cs with
  | nil => exact absurd rfl filled
  | cons c cs ih =>
      cases cs with
      | nil => simp [List.intercalate, size]
      | cons d cs =>
          have later := ih (List.cons_ne_nil d cs)
          rw [intercalate_cons, size_cons, List.length_append, List.length_cons]
          omega

omit [DecidableEq α] in
/-- All but the last one have a separator behind them. -/
theorem intercalate_eq {cs : List (List α)} (filled : cs ≠ []) :
    [sep].intercalate cs = cs.dropLast.flatMap (· ++ [sep]) ++ cs.getLastD [] := by
  induction cs with
  | nil => exact absurd rfl filled
  | cons c cs ih =>
      cases cs with
      | nil =>
          rw [List.intercalate_singleton]
          rfl
      | cons d cs =>
          rw [intercalate_cons, ih (List.cons_ne_nil d cs), List.dropLast_cons_cons,
            List.flatMap_cons, List.getLastD_cons, List.getLastD_cons, List.getLastD_cons,
            List.append_assoc, List.append_assoc]
          rfl

theorem components_intercalate {cs : List (List α)} (simple : ∀ c ∈ cs, sep ∉ c ∧ c ≠ []) :
    components sep ([sep].intercalate cs) = cs := by
  induction cs with
  | nil => rfl
  | cons c cs ih =>
      obtain ⟨single, filled⟩ := simple c List.mem_cons_self
      cases cs with
      | nil =>
          rw [List.intercalate_singleton]
          exact components_single sep single filled
      | cons d cs =>
          rw [intercalate_cons, components_append, components_single sep single filled,
            ih fun e member => simple e (List.mem_cons_of_mem c member)]
          rfl

/-! ## Trees -/

/-- Every place leads to itself, and where a component leads down the way back leads up. -/
structure Tree (places : Places α ν) (dot : α) : Prop where
  here : ∀ x, places.lookup x [dot] = some x
  up : ∀ x y c, Down dot c → places.lookup x c = some y → places.lookup y [dot, dot] = some x

section Trees

variable {places : Places α ν} {start x : ν} {kept : List (List α)} {c : List α}

omit [DecidableEq α] in
theorem walk_concat (places : Places α ν) (start : ν) (kept : List (List α)) (c : List α) :
    places.walk start (kept ++ [c]) = (places.walk start kept).bind (places.lookup · c) := by
  rw [Places.walk_append]
  congr
  funext y
  rw [Places.walk_cons]
  exact Option.bind_fun_some _

theorem Tree.walk_push (tree : Tree places dot) (settled : Settled dot kept) (filled : c ≠ [])
    (leads : places.walk start (kept ++ [c]) = some x) :
    places.walk start (push dot kept c) = some x := by
  by_cases down : Down dot c
  · rwa [push_down kept down]
  · rw [walk_concat] at leads
    obtain ⟨y, before, last⟩ := Option.bind_eq_some_iff.mp leads
    by_cases here : c = [dot]
    · rw [here, tree.here] at last
      rw [here, push_dot, before, last]
    · obtain rfl : c = [dot, dot] := by
        by_contra other
        exact down ⟨filled, here, other⟩
      obtain ⟨ups, downs, rfl, all⟩ := settled
      cases downs using List.reverseRecOn with
      | nil =>
          rw [List.append_nil] at before ⊢
          rwa [push_up, List.replicate_succ', walk_concat, before]
      | append_singleton downs d =>
          have down := all d (List.mem_append_right downs List.mem_cons_self)
          rw [← List.append_assoc, walk_concat] at before
          obtain ⟨z, first, step⟩ := Option.bind_eq_some_iff.mp before
          rw [tree.up z y d down step] at last
          rw [← List.append_assoc, push_back _ down, first, last]

/-- What remains of the components leads to the same place. -/
theorem Tree.walk_foldl (tree : Tree places dot) (settled : Settled dot kept)
    {cs : List (List α)} (filled : ∀ c ∈ cs, c ≠ [])
    (leads : places.walk start (kept ++ cs) = some x) :
    places.walk start (cs.foldl (push dot) kept) = some x := by
  induction cs generalizing kept with
  | nil => rwa [List.append_nil] at leads
  | cons c cs ih =>
      have split : kept ++ c :: cs = kept ++ [c] ++ cs := by simp
      rw [split, Places.walk_append] at leads
      obtain ⟨y, first, rest⟩ := Option.bind_eq_some_iff.mp leads
      apply ih (settled.push c) fun d member => filled d (List.mem_cons_of_mem c member)
      rw [Places.walk_append, tree.walk_push settled (filled c List.mem_cons_self) first]
      exact rest

end Trees

end Superfluous

end MachFormal.Library.Paths
