import MachFormal.Library.Lexical
import Mathlib.Data.List.Basic

/-!
# Canonical names

`canon` rewrites a name in place.  The components that lead up are written at once, the others
are kept on a stack as pointers to where they start, and are copied down behind them in the end.
What is written stays behind what is read, so that the pointers still find the old text; strings
are without their terminators.
-/

namespace MachFormal.Make.Canon

open Library.Paths Library.Lexical

abbrev Byte := BitVec 8

def slash : Byte := 47
def dot : Byte := 46

/-- What has been written, and the stack with the last pointer in front. -/
structure Scan where
  out : List Byte
  stack : List (List Byte)

/-- The component in front, and what follows it. -/
def component (r : List Byte) : List Byte := r.takeWhile fun c => c ≠ slash
def after (r : List Byte) : List Byte := r.dropWhile fun c => c ≠ slash

/-- A component is looked at that starts at `r`. -/
def step (r : List Byte) (st : Scan) : Scan :=
  if component r = [dot] then st
  else if component r ≠ [dot, dot] then { st with stack := r :: st.stack }
  else
    match st.stack with
    | _ :: stack => { st with stack := stack }
    | [] => { st with out := st.out ++ ([dot, dot] ++ if after r = [] then [] else [slash]) }

def skip (q : List Byte) : List Byte := q.dropWhile fun c => c = slash

theorem length_skip_after {r : List Byte} (some : component r ≠ []) :
    (skip (after r)).length < r.length := by
  have whole := congrArg List.length
    (List.takeWhile_append_dropWhile (p := fun c => c ≠ slash) (l := r))
  have shorter := (List.dropWhile_sublist (l := after r) fun c => c = slash).length_le
  have positive := List.length_pos_iff.mpr some
  rw [List.length_append] at whole
  rw [component] at positive
  rw [skip]
  rw [after] at shorter ⊢
  omega

/-- The loop over the components.  None is empty, since the slashes have been skipped. -/
def scan (r : List Byte) (st : Scan) : Scan :=
  if h : component r = [] then st
  else
    have := length_skip_after h
    scan (skip (after r)) (step r st)
termination_by r.length

/-- A component is copied with the slash behind it. -/
def copied (r : List Byte) : List Byte := component r ++ (after r).take 1

/-- A slash at the end is taken away, unless it is all there is. -/
def strip (p : List Byte) : List Byte :=
  if 1 < p.length ∧ p.getLast? = some slash then p.dropLast else p

/-- The first pass over a name. -/
def scanned (f : List Byte) : Scan :=
  if f.head? = some slash then scan (skip f) ⟨[slash], []⟩ else scan f ⟨[], []⟩

def canon (f : List Byte) : List Byte :=
  strip ((scanned f).out ++ (scanned f).stack.reverse.flatMap copied)

/-! ## In place -/

section Places

variable {size limit : Nat} {r : List Byte} {out : List Byte} {stack : List (List Byte)} {st : Scan}

/-- What is written and what is on the stack lies before the last `limit` characters of the
name, each pointer before the next one. -/
def Behind (size : Nat) (out : List Byte) : List (List Byte) → Nat → Prop
  | [], limit => out.length + limit ≤ size
  | s :: stack, limit => (copied s).length + limit ≤ s.length ∧ Behind size out stack s.length

theorem Behind.mono {less : Nat} (h : Behind size out stack limit) (le : less ≤ limit) :
    Behind size out stack less := by
  cases stack with
  | nil => exact Nat.le_trans (Nat.add_le_add_left le _) h
  | cons s stack => exact ⟨Nat.le_trans (Nat.add_le_add_left le _) h.1, h.2⟩

theorem length_parts (r : List Byte) : (component r).length + (after r).length = r.length := by
  have whole := List.takeWhile_append_dropWhile (p := fun c => c ≠ slash) (l := r)
  rw [component, after, ← List.length_append, whole]

theorem length_copied (r : List Byte) :
    (copied r).length + (skip (after r)).length ≤ r.length := by
  have parts := length_parts r
  rw [copied, List.length_append, List.length_take]
  cases rest : after r with
  | nil =>
      rw [rest] at parts
      simp only [skip, List.length_nil, List.dropWhile_nil] at parts ⊢
      omega
  | cons b rest' =>
      have shorter := (List.dropWhile_sublist (l := rest') fun c => c = slash).length_le
      have skipped : skip (b :: rest') = skip rest' := by
        rw [dropWhile_delimiter slash rest]
        exact List.dropWhile_cons_of_pos (by simp)
      rw [rest, List.length_cons] at parts
      rw [skipped, List.length_cons]
      rw [skip]
      omega

theorem Behind.step (h : Behind size st.out st.stack r.length) (some : component r ≠ []) :
    Behind size (step r st).out (step r st).stack (skip (after r)).length := by
  have shorter := Nat.le_of_lt (length_skip_after some)
  rw [Canon.step]
  split
  · exact h.mono shorter
  · split
    · exact ⟨length_copied r, h⟩
    · rename_i up
      rw [Ne, not_not] at up
      cases stack : st.stack with
      | nil =>
          rw [stack] at h
          have copy := length_copied r
          have written : ([dot, dot] ++ if after r = [] then [] else [slash]) = copied r := by
            rw [copied, up]
            refine congrArg ([dot, dot] ++ ·) ?_
            split
            · rename_i empty
              rw [empty]
              rfl
            · rename_i filled
              cases rest : after r with
              | nil => exact absurd rest filled
              | cons b rest' =>
                  rw [dropWhile_delimiter slash rest]
                  rfl
          have before : st.out.length + r.length ≤ size := h
          change (st.out ++ _).length + (skip (after r)).length ≤ size
          rw [written, List.length_append]
          omega
      | cons s stack' =>
          rw [stack] at h
          refine h.2.mono (Nat.le_trans shorter ?_)
          have := h.1
          omega

theorem Behind.scan (h : Behind size st.out st.stack r.length) :
    ∃ limit, Behind size (scan r st).out (scan r st).stack limit := by
  induction length : r.length using Nat.strong_induction_on generalizing r st with
  | _ n ih =>
      subst length
      rw [Canon.scan]
      split
      · exact ⟨_, h⟩
      · rename_i some
        exact ih _ (length_skip_after some) (h.step some) rfl

theorem Behind.total (h : Behind size out stack limit) :
    (out ++ stack.reverse.flatMap copied).length + limit ≤ size := by
  induction stack generalizing limit with
  | nil =>
      rw [List.reverse_nil, List.flatMap_nil, List.append_nil]
      exact h
  | cons s stack ih =>
      have rest := ih h.2
      have here := h.1
      rw [List.length_append] at rest ⊢
      rw [List.reverse_cons, List.flatMap_append, List.length_append, List.flatMap_singleton]
      omega

/-- When a component is copied down, what has been written ends before it. -/
theorem Behind.copy {front back : List (List Byte)} {s : List Byte}
    (h : Behind size out stack limit) (split : stack.reverse = front ++ s :: back) :
    (out ++ front.flatMap copied).length + s.length ≤ size := by
  induction stack generalizing back limit with
  | nil => exact absurd split.symm (by simp)
  | cons t stack ih =>
      rw [List.reverse_cons] at split
      cases back using List.reverseRecOn with
      | nil =>
          obtain ⟨rfl, same⟩ := List.append_inj' split rfl
          cases same
          exact h.2.total
      | append_singleton back u =>
          have cut : stack.reverse = front ++ s :: back := by
            have : stack.reverse ++ [t] = (front ++ s :: back) ++ [u] := by
              rw [split, List.append_assoc]
              rfl
            exact (List.append_inj' this rfl).1
          exact ih h.2 cut

theorem scanned_behind (f : List Byte) :
    ∃ limit, Behind f.length (scanned f).out (scanned f).stack limit := by
  rw [scanned]
  split
  · rename_i absolute
    refine Behind.scan ?_
    cases f with
    | nil => cases absolute
    | cons a f =>
        have shorter := (List.dropWhile_sublist (l := f) fun c => c = slash).length_le
        have skipped : skip (a :: f) = skip f :=
          List.dropWhile_cons_of_pos (by simp [Option.some.inj absolute])
        change [slash].length + (skip (a :: f)).length ≤ (a :: f).length
        rw [skipped, List.length_singleton, List.length_cons]
        rw [skip]
        omega
  · exact Behind.scan (show 0 + f.length ≤ f.length by omega)

end Places

/-! ## Components of the result -/

section Components

variable {r lead : List Byte} {ups downs cs : List (List Byte)} {st : Scan}

theorem components_eq (some : component r ≠ []) :
    components slash r = component r :: components slash (skip (after r)) := by
  have filled : r ≠ [] := by
    rintro rfl
    exact some rfl
  have first : r.head? ≠ Option.some slash := by
    intro same
    cases r with
    | nil => cases same
    | cons a r =>
        refine some ?_
        rw [component, Option.some.inj same]
        exact List.takeWhile_cons_of_neg (by simp)
  rw [components_takeWhile slash first filled]
  refine congrArg (component r :: ·) ?_
  rw [skip, components_dropWhile]
  change components slash ((after r).drop 1) = components slash (after r)
  cases rest : after r with
  | nil => rfl
  | cons b rest' =>
      rw [dropWhile_delimiter slash rest, components_cons]
      rfl

/-- Components with a slash behind each. -/
def closed (cs : List (List Byte)) : List Byte := cs.flatMap (· ++ [slash])

/-- What has been written when the stack is copied. -/
def Scan.text (st : Scan) : List Byte := st.out ++ st.stack.reverse.flatMap copied

/-- The components that lead up have been written, and the others are on the stack. -/
structure Closed (lead : List Byte) (ups downs : List (List Byte)) (st : Scan) : Prop where
  out : st.out = lead ++ closed ups
  stack : st.stack.reverse.map copied = downs.map (· ++ [slash])
  up : ∀ c ∈ ups, c = [dot, dot]
  down : ∀ c ∈ downs, Down dot c

theorem Closed.text (h : Closed lead ups downs st) : st.text = lead ++ closed (ups ++ downs) := by
  rw [Scan.text, h.out, List.flatMap_def, h.stack, closed, closed, List.flatMap_append,
    List.flatMap_def (l := downs), List.append_assoc]

theorem Closed.pop {d : List Byte} (h : Closed lead ups (downs ++ [d]) st) :
    ∃ q stack, st.stack = q :: stack ∧ Closed lead ups downs ⟨st.out, stack⟩ := by
  have same := h.stack
  cases some : st.stack with
  | nil =>
      rw [some, List.map_append] at same
      exact absurd same.symm (by simp)
  | cons q stack =>
      rw [some, List.reverse_cons, List.map_append, List.map_append] at same
      refine ⟨q, stack, rfl, h.out, (List.append_inj' same rfl).1, h.up, fun c inside => ?_⟩
      exact h.down c (List.mem_append_left _ inside)

theorem step_here (here : component r = [dot]) : step r st = st := if_pos here

theorem step_down (down : Down dot (component r)) :
    step r st = ⟨st.out, r :: st.stack⟩ := by
  rw [step, if_neg down.2.1, if_pos down.2.2]

theorem step_back {q : List Byte} {stack : List (List Byte)} (up : component r = [dot, dot])
    (some : st.stack = q :: stack) : step r st = ⟨st.out, stack⟩ := by
  rw [step, if_neg (by rw [up]; decide), if_neg (not_not_intro up), some]

theorem step_up (up : component r = [dot, dot]) (empty : st.stack = []) :
    step r st = ⟨st.out ++ ([dot, dot] ++ if after r = [] then [] else [slash]), []⟩ := by
  rw [step, if_neg (by rw [up]; decide), if_neg (not_not_intro up), empty]

theorem Closed.empty (h : Closed lead ups [] st) : st.stack = [] := by
  have := h.stack
  simpa using this

/-- A component that is followed by a slash. -/
theorem step_closed (h : Closed lead ups downs st) (some : component r ≠ [])
    (more : after r ≠ []) :
    ∃ ups' downs', ups' ++ downs' = push dot (ups ++ downs) (component r) ∧
      Closed lead ups' downs' (step r st) := by
  by_cases down : Down dot (component r)
  · have copy : copied r = component r ++ [slash] := by
      rw [copied]
      cases rest : after r with
      | nil => exact absurd rest more
      | cons b rest' =>
          rw [dropWhile_delimiter slash rest]
          rfl
    rw [step_down down, push_down _ down]
    refine ⟨ups, downs ++ [component r], (List.append_assoc _ _ _).symm, h.out, ?_, h.up, ?_⟩
    · rw [List.reverse_cons, List.map_append, List.map_append, h.stack, List.map_singleton,
        List.map_singleton, copy]
    · intro c inside
      rcases List.mem_append.mp inside with inside | inside
      · exact h.down c inside
      · exact List.mem_singleton.mp inside ▸ down
  · by_cases here : component r = [dot]
    · rw [step_here here, here, push_dot]
      exact ⟨ups, downs, rfl, h⟩
    · have up : component r = [dot, dot] := by
        by_contra other
        exact down ⟨some, here, other⟩
      cases downs using List.reverseRecOn with
      | nil =>
          have all := List.eq_replicate_of_mem h.up
          rw [step_up up h.empty, up, List.append_nil, all, push_up]
          refine ⟨List.replicate (ups.length + 1) [dot, dot], [], List.append_nil _, ?_, rfl,
            fun c inside => List.eq_of_mem_replicate inside, List.forall_mem_nil _⟩
          rw [h.out, if_neg more, all, List.length_replicate, closed, closed,
            List.replicate_succ', List.flatMap_append, List.append_assoc]
          rfl
      | append_singleton downs d =>
          have last := h.down d (List.mem_append_right _ List.mem_cons_self)
          obtain ⟨q, stack, equal, rest⟩ := h.pop
          rw [step_back up equal, up, ← List.append_assoc, push_back _ last]
          exact ⟨ups, downs, rfl, rest⟩

/-- The name ends in the components, with or without a last slash. -/
def Ends (lead : List Byte) (cs : List (List Byte)) (t : List Byte) : Prop :=
  t = lead ++ closed cs ∨ (cs ≠ [] ∧ t ++ [slash] = lead ++ closed cs)

/-- The component at the end. -/
theorem step_open (h : Closed lead ups downs st) (some : component r ≠ []) (last : after r = []) :
    Ends lead (push dot (ups ++ downs) (component r)) (step r st).text := by
  have before := h.text
  by_cases down : Down dot (component r)
  · have copy : copied r = component r := by rw [copied, last, List.take_nil, List.append_nil]
    rw [step_down down, push_down _ down]
    refine Or.inr ⟨by simp, ?_⟩
    rw [Scan.text] at before ⊢
    have one : closed (ups ++ downs ++ [component r]) =
        closed (ups ++ downs) ++ (component r ++ [slash]) := by
      rw [closed, List.flatMap_append, List.flatMap_singleton]
      rfl
    rw [List.reverse_cons, List.flatMap_append, ← List.append_assoc, before, List.flatMap_singleton,
      copy, one, List.append_assoc, List.append_assoc]
  · by_cases here : component r = [dot]
    · rw [step_here here, here, push_dot]
      exact Or.inl before
    · have up : component r = [dot, dot] := by
        by_contra other
        exact down ⟨some, here, other⟩
      cases downs using List.reverseRecOn with
      | nil =>
          have all := List.eq_replicate_of_mem h.up
          rw [step_up up h.empty, up, List.append_nil, all, push_up]
          refine Or.inr ⟨by simp, ?_⟩
          rw [Scan.text, h.out, if_pos last, all, List.length_replicate, closed, closed,
            List.replicate_succ', List.flatMap_append]
          simp
      | append_singleton downs d =>
          have lastDown := h.down d (List.mem_append_right _ List.mem_cons_self)
          obtain ⟨q, stack, equal, rest⟩ := h.pop
          rw [step_back up equal, up, ← List.append_assoc, push_back _ lastDown]
          exact Or.inl rest.text

theorem first_skip (q : List Byte) : skip q = [] ∨ component (skip q) ≠ [] := by
  by_cases filled : skip q = []
  · exact Or.inl filled
  · refine Or.inr (takeWhile_filled slash (fun same => ?_) filled)
    have stopped := List.head_dropWhile_not (fun c => decide (c = slash)) filled
    cases start : skip q with
    | nil => exact filled start
    | cons a rest =>
        rw [start] at same
        simp only [skip] at start
        simp only [start, List.head_cons] at stopped
        simp [Option.some.inj same] at stopped

theorem scan_nil (st : Scan) : scan [] st = st := by
  rw [scan, dif_pos (show component [] = [] from rfl)]

theorem scan_next (some : component r ≠ []) : scan r st = scan (skip (after r)) (step r st) := by
  rw [scan, dif_neg some]

theorem scan_ends (h : Closed lead ups downs st) (first : r = [] ∨ component r ≠ []) :
    Ends lead ((components slash r).foldl (push dot) (ups ++ downs)) (scan r st).text := by
  induction size : r.length using Nat.strong_induction_on generalizing r ups downs st with
  | _ n ih =>
      subst size
      rcases first with rfl | some
      · rw [scan_nil]
        exact Or.inl h.text
      · rw [scan_next some, components_eq some, List.foldl_cons]
        by_cases last : after r = []
        · rw [last, show skip [] = [] from rfl, scan_nil]
          exact step_open h some last
        · obtain ⟨ups', downs', equal, h'⟩ := step_closed h some last
          rw [← equal]
          exact ih _ (length_skip_after some) h' (first_skip _) rfl

/-- A list of components is found again. -/
theorem components_closed_append (simple : ∀ c ∈ cs, slash ∉ c ∧ c ≠ []) (s : List Byte) :
    components slash (closed cs ++ s) = cs ++ components slash s := by
  induction cs with
  | nil => rfl
  | cons c cs ih =>
      obtain ⟨single, filled⟩ := simple c List.mem_cons_self
      have step : closed (c :: cs) ++ s = c ++ slash :: (closed cs ++ s) := by
        rw [closed, List.flatMap_cons, List.append_assoc, List.append_assoc]
        rfl
      rw [step, components_append, components_single slash single filled,
        ih fun d inside => simple d (List.mem_cons_of_mem c inside)]
      rfl

theorem components_closed (simple : ∀ c ∈ cs, slash ∉ c ∧ c ≠ []) :
    components slash (closed cs) = cs := by
  have whole := components_closed_append simple []
  rwa [List.append_nil, components_nil, List.append_nil] at whole

theorem components_strip (t : List Byte) : components slash (strip t) = components slash t := by
  rw [strip]
  split
  · rename_i h
    obtain ⟨front, rfl⟩ := List.getLast?_eq_some_iff.mp h.2
    rw [List.dropLast_concat, components_concat]
  · rfl

theorem head_strip (t : List Byte) : (strip t).head? = t.head? := by
  rw [strip]
  split
  · rename_i h
    cases t with
    | nil => rfl
    | cons a t =>
        cases t with
        | nil => exact absurd h.1 (Nat.lt_irrefl 1)
        | cons b t => rfl
  · rfl

/-- What a name ends in are its components, and it begins as it should. -/
theorem Ends.components {t : List Byte} (h : Ends lead cs t) (start : lead = [] ∨ lead = [slash])
    (simple : ∀ c ∈ cs, slash ∉ c ∧ c ≠ []) :
    components slash t = cs ∧ (t.head? = some slash ↔ lead = [slash]) := by
  have whole : ∀ s, s = lead ++ closed cs → Library.Paths.components slash s = cs := by
    rintro s rfl
    rcases start with rfl | rfl
    · exact components_closed simple
    · exact (components_cons slash _).trans (components_closed simple)
  have first : ∀ s, s <+: lead ++ closed cs → s ≠ [] → (s.head? = some slash ↔ lead = [slash]) := by
    rintro s ⟨rest, same⟩ filled
    have head : s.head? = (lead ++ closed cs).head? := by
      rw [← same]
      cases s with
      | nil => exact absurd rfl filled
      | cons a s => rfl
    rw [head]
    rcases start with rfl | rfl
    · refine ⟨fun at_slash => ?_, fun no => (by cases no)⟩
      cases cs with
      | nil => cases at_slash
      | cons c cs =>
          obtain ⟨single, some⟩ := simple c List.mem_cons_self
          cases c with
          | nil => exact absurd rfl some
          | cons a c =>
              cases at_slash
              exact absurd List.mem_cons_self single
    · exact ⟨fun _ => rfl, fun _ => rfl⟩
  rcases h with rfl | ⟨filled, same⟩
  · refine ⟨whole _ rfl, ?_⟩
    by_cases empty : lead ++ closed cs = []
    · rw [empty]
      rw [List.append_eq_nil_iff] at empty
      rw [empty.1]
      exact ⟨fun no => (by cases no), fun no => (by cases no)⟩
    · exact first _ (List.prefix_refl _) empty
  · have same' := whole _ same
    rw [components_concat] at same'
    refine ⟨same', first t ⟨[slash], same⟩ fun empty => ?_⟩
    rw [empty] at same'
    exact filled same'.symm

def root (f : List Byte) : List Byte := if f.head? = some slash then [slash] else []

theorem settled_simple (f : List Byte) :
    ∀ c ∈ settle dot (components slash f), slash ∉ c ∧ c ≠ [] := fun _ inside =>
  components_simple (mem_settle inside)

theorem canon_ends (f : List Byte) :
    ∃ t, canon f = strip t ∧ Ends (root f) (settle dot (components slash f)) t := by
  have initial : ∀ lead, Closed lead [] [] ⟨lead, []⟩ := fun lead =>
    ⟨(List.append_nil lead).symm, rfl, List.forall_mem_nil _, List.forall_mem_nil _⟩
  refine ⟨_, rfl, ?_⟩
  rw [scanned, root]
  split
  · have ends := scan_ends (initial [slash]) (first_skip f)
    rwa [skip, components_dropWhile] at ends
  · rename_i relative
    have first : f = [] ∨ component f ≠ [] := by
      by_cases filled : f = []
      · exact Or.inl filled
      · exact Or.inr (takeWhile_filled slash relative filled)
    exact scan_ends (initial []) first

theorem root_lead (f : List Byte) : root f = [] ∨ root f = [slash] := by
  rw [root]
  split
  · exact Or.inr rfl
  · exact Or.inl rfl

/-- The components of a canonical name are those that remain, and it is absolute when the name
was. -/
theorem canon_spec (f : List Byte) :
    components slash (canon f) = settle dot (components slash f) ∧
      ((canon f).head? = some slash ↔ f.head? = some slash) := by
  obtain ⟨t, text, ends⟩ := canon_ends f
  obtain ⟨same, head⟩ := ends.components (root_lead f) (settled_simple f)
  rw [text, components_strip, head_strip]
  refine ⟨same, head.trans ?_⟩
  rw [root]
  split
  · rename_i absolute
    exact iff_of_true rfl absolute
  · rename_i relative
    exact iff_of_false (fun no => (by cases no)) relative

theorem closed_eq (filled : cs ≠ []) : closed cs = [slash].intercalate cs ++ [slash] := by
  induction cs with
  | nil => exact absurd rfl filled
  | cons c cs ih =>
      cases cs with
      | nil => rw [List.intercalate_singleton, closed, List.flatMap_singleton]
      | cons d cs =>
          have step : closed (c :: d :: cs) = c ++ slash :: closed (d :: cs) := by
            rw [closed, List.flatMap_cons, List.append_assoc]
            rfl
          rw [step, ih (List.cons_ne_nil d cs), intercalate_cons, List.append_assoc]
          rfl

/-- Components with slashes between them do not end in one. -/
theorem intercalate_last (filled : cs ≠ []) (simple : ∀ c ∈ cs, slash ∉ c ∧ c ≠ []) :
    [slash].intercalate cs ≠ [] ∧ ([slash].intercalate cs).getLast? ≠ some slash := by
  have last : cs.getLastD [] ∈ cs := by
    rw [List.getLastD_eq_getLast?, List.getLast?_eq_some_getLast filled]
    exact List.getLast_mem filled
  obtain ⟨single, some⟩ := simple _ last
  rw [intercalate_eq filled, List.getLast?_append_of_ne_nil _ some]
  exact ⟨fun empty => some (List.append_eq_nil_iff.mp empty).2,
    fun same => single (List.mem_of_getLast? same)⟩

/-- A name that ends in components is stripped to them. -/
theorem Ends.strip {t : List Byte} (h : Ends lead cs t) (start : lead = [] ∨ lead = [slash])
    (simple : ∀ c ∈ cs, slash ∉ c ∧ c ≠ []) : strip t = lead ++ [slash].intercalate cs := by
  by_cases filled : cs = []
  · subst filled
    have same : t = lead := by
      rcases h with same | ⟨no, -⟩
      · exact same.trans (List.append_nil lead)
      · exact absurd rfl no
    rw [same, Canon.strip, if_neg]
    · exact (List.append_nil lead).symm
    · rcases start with rfl | rfl <;> decide
  · obtain ⟨some, last⟩ := intercalate_last filled simple
    have rest : t = lead ++ [slash].intercalate cs ++ [slash] ∨
        t = lead ++ [slash].intercalate cs := by
      rcases h with same | ⟨-, same⟩
      · left
        rw [same, closed_eq filled, List.append_assoc]
      · right
        rw [closed_eq filled, ← List.append_assoc] at same
        exact List.append_cancel_right same
    have positive := List.length_pos_iff.mpr some
    rcases rest with rfl | rfl
    · rw [Canon.strip, if_pos, List.dropLast_concat]
      refine ⟨?_, List.getLast?_concat⟩
      rw [List.length_append, List.length_append, List.length_singleton]
      omega
    · rw [Canon.strip, if_neg]
      rintro ⟨-, ends⟩
      rw [List.getLast?_append_of_ne_nil _ some] at ends
      exact last ends

/-- The text of a canonical name. -/
theorem canon_text (f : List Byte) :
    canon f = root f ++ [slash].intercalate (settle dot (components slash f)) := by
  obtain ⟨t, text, ends⟩ := canon_ends f
  exact text.trans (ends.strip (root_lead f) (settled_simple f))

theorem length_canon (f : List Byte) : (canon f).length ≤ f.length := by
  obtain ⟨limit, behind⟩ := scanned_behind f
  have whole := behind.total
  have stripped : (canon f).length ≤
      ((scanned f).out ++ (scanned f).stack.reverse.flatMap copied).length := by
    rw [canon, strip]
    split
    · exact (List.dropLast_sublist _).length_le
    · exact Nat.le_refl _
  omega

theorem root_canon (f : List Byte) : root (canon f) = root f := by
  rw [root, root]
  exact if_congr (canon_spec f).2 rfl rfl

/-- A canonical name is left as it is. -/
theorem canon_canon (f : List Byte) : canon (canon f) = canon f := by
  rw [canon_text (canon f), root_canon, (canon_spec f).1, settle_of_settled (settled_settle _),
    ← canon_text]

theorem canon_last (f : List Byte) (ends : (canon f).getLast? = some slash) :
    canon f = [slash] := by
  have text := canon_text f
  by_cases filled : settle dot (components slash f) = []
  · rw [filled, List.intercalate_nil, List.append_nil, root] at text
    rw [text] at ends ⊢
    split at ends
    · rename_i absolute
      exact if_pos absolute
    · cases ends
  · obtain ⟨some, last⟩ := intercalate_last filled (settled_simple f)
    rw [text, List.getLast?_append_of_ne_nil _ some] at ends
    exact absurd ends last

/-- A canonical name denotes what the name denoted. -/
theorem denotes_canon (x : List (List Byte)) (f : List Byte) :
    denotes slash dot x (canon f) = denotes slash dot x f := by
  obtain ⟨same, head⟩ := canon_spec f
  rw [denotes, denotes, same, follow_settle]
  refine congrArg (follow dot · _) ?_
  exact if_congr head rfl rfl

end Components

end MachFormal.Make.Canon
