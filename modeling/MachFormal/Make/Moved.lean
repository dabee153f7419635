import MachFormal.Make.InPlace

/-!
# The search path of a nested make

A make that is run by another one finds in its environment where the other one ran and where its
sources are looked for, and `movedmake` makes the names there fit the directory it runs in
itself.  The common front of the two directories is found character by character.  A text that
does not fit into `temp`, an entry behind the end of `newsd` and a stack of `canon` that is full
leave no result.

`MAKECONF` and what is done with the variables is left out.
-/

namespace MachFormal.Make.Moved

open Library.Paths Library.Lexical Make.Canon
open InPlace (MAXPATHLEN Shallow)

def INMAX : Nat := 16000
def MAXSRCDIRS : Nat := 255

/-- The loop over the common characters, with what is left of `owd` and `cwd` and where `p` and
`q` stand in them. -/
def prefixLoop (r s p q : List Byte) : (List Byte × List Byte) × List Byte × List Byte :=
  match r, s with
  | c :: r, d :: s =>
      if c = d then
        if c = slash then
          have : (skip r).length ≤ r.length := (List.dropWhile_sublist _).length_le
          prefixLoop (skip r) (skip s) (skip r) (skip s)
        else prefixLoop r s p q
      else ((c :: r, d :: s), p, q)
  | r, s => ((r, s), p, q)
termination_by r.length

/-- The loop ended where a component does. -/
def patch : (List Byte × List Byte) × List Byte × List Byte → List Byte × List Byte
  | ((r, s), p, q) =>
      if r = [] ∧ s = [] then (r, s)
      else if r.head? = some slash ∧ s = [] then (skip r, s)
      else if r = [] ∧ s.head? = some slash then (r, skip s)
      else (p, q)

/-- `p` and `q`, the ways from the common front to `owd` and to `cwd`. -/
def apart (owd cwd : List Byte) : List Byte × List Byte := patch (prefixLoop owd cwd owd cwd)

/-- The way up from `a`, or nothing if a component of it is bad. -/
def rev (a : List Byte) : Option (List Byte) :=
  if a = [] then some []
  else if h : component a = [] then none
  else if component a = [dot] ∨ component a = [dot, dot] then none
  else
    have : (after a).length - 1 < a.length := by
      have parts := length_parts a
      have positive := List.length_pos_iff.mpr h
      omega
    (rev ((after a).drop 1)).map ([dot, dot, slash] ++ ·)
termination_by a.length

/-- What `rdircat` writes. -/
def rdircat (a b : List Byte) : Option (List Byte) :=
  (rev a).map fun up => if a ≠ [] ∧ b = [] then up.dropLast else up ++ b

/-- A slash, unless there is one or nothing at all. -/
def slashed (r : List Byte) : List Byte :=
  if r ≠ [] ∧ r.getLast? ≠ some slash then r ++ [slash] else r

/-- What is written before an entry. -/
def lead (p q s : List Byte) : Option (List Byte) :=
  if s.head? ≠ some slash then (rdircat q p).map slashed else some []

/-- `canon(temp)`, if the text and its end have fitted. -/
def canonTemp (r : List Byte) : Option (List Byte) :=
  if r.length < INMAX then (InPlace.canon (r ++ [0])).map InPlace.text else none

/-- What is in `temp` with the way from `owd` to `cwd` behind it. -/
def onward (p q r : List Byte) : Option (List Byte) := do
  let back ← rdircat p q
  canonTemp ((if p ≠ [] ∨ q ≠ [] then slashed r else r) ++ back)

/-- One entry of the search path. -/
def moved (p q s : List Byte) : Option (List Byte) := do
  let front ← lead p q s
  onward p q (front ++ s)

/-- What is written for `MAKEDIR` first. -/
def rooted (ep : List Byte) : List Byte :=
  slash :: if ep.head? = some slash then ep.drop 1 else ep

def superpre : List Byte := "/../.LOCALROOT".toList.map fun c => BitVec.ofNat 8 c.toNat

/-- `superroot`, with the switch `hascmurfs`. -/
def superroot (hascmurfs : Bool) (d : List Byte) : Bool :=
  hascmurfs && d.take 4 = superpre.take 4

def colon : Byte := 58

def ptov (p : List Byte) : List (List Byte) := if p = [] then [] else p.splitOn colon

def vtop (v : List (List Byte)) : List Byte := [colon].intercalate v

/-- What the environment and `newsd` have become. -/
structure Environment where
  newsd : List (List Byte)
  makedir : List Byte
  makepsd : List Byte

/-- The new entries of the search path, or nothing if `movedmake` is fatal. -/
def movedmake (hascmurfs : Bool) (cwd owd psd ep : List Byte) : Option Environment :=
  if owd.head? ≠ some slash then none
  else do
    let owd :=
      if !superroot hascmurfs owd && superroot hascmurfs cwd then superpre ++ owd else owd
    let (p, q) := apart owd cwd
    if (ptov psd).length ≤ MAXSRCDIRS then
      let newsd ← (ptov psd).mapM (moved p q)
      let makedir ← onward p q (rooted ep)
      if (vtop newsd).length < INMAX then some ⟨newsd, makedir, vtop newsd⟩ else none
    else none

/-! ## Directories as texts -/

section Texts

/-- A component without slashes that leads down. -/
def Plain (c : List Byte) : Prop := Down dot c ∧ slash ∉ c

instance (c : List Byte) : Decidable (Plain c) :=
  inferInstanceAs (Decidable ((c ≠ [] ∧ c ≠ [dot] ∧ c ≠ [dot, dot]) ∧ slash ∉ c))

/-- The components with a slash before each. -/
def behind (cs : List (List Byte)) : List Byte := cs.flatMap (slash :: ·)

/-- The components with slashes between them. -/
def joined : List (List Byte) → List Byte
  | [] => []
  | c :: cs => c ++ behind cs

theorem behind_cons (c : List Byte) (cs : List (List Byte)) :
    behind (c :: cs) = slash :: joined (c :: cs) := by
  rw [behind, List.flatMap_cons]
  rfl

theorem absolute_eq (cs : List (List Byte)) : absolute slash cs = slash :: joined cs := by
  cases cs with
  | nil => rfl
  | cons c cs => exact (if_neg (List.cons_ne_nil c cs)).trans (behind_cons c cs)

theorem joined_eq (cs : List (List Byte)) : joined cs = [slash].intercalate cs := by
  induction cs with
  | nil => rfl
  | cons c cs ih =>
      cases cs with
      | nil => exact (List.append_nil c).trans List.intercalate_singleton.symm
      | cons d cs => rw [intercalate_cons, ← ih, joined, behind_cons]

theorem simple {cs : List (List Byte)} (plain : ∀ c ∈ cs, Plain c) :
    ∀ c ∈ cs, slash ∉ c ∧ c ≠ [] := fun c inside => ⟨(plain c inside).2, (plain c inside).1.1⟩

theorem components_joined {cs : List (List Byte)} (single : ∀ c ∈ cs, slash ∉ c ∧ c ≠ []) :
    components slash (joined cs) = cs := by
  rw [joined_eq, components_intercalate single]

theorem head_joined {cs : List (List Byte)} (single : ∀ c ∈ cs, slash ∉ c ∧ c ≠ []) :
    (joined cs).head? ≠ some slash := by
  cases cs with
  | nil => exact fun no => by cases no
  | cons c cs =>
      obtain ⟨whole, filled⟩ := single c List.mem_cons_self
      cases c with
      | nil => exact absurd rfl filled
      | cons a c =>
          intro same
          cases same
          exact whole List.mem_cons_self

theorem skip_joined {cs : List (List Byte)} (plain : ∀ c ∈ cs, Plain c) :
    skip (joined cs) = joined cs := by
  have head := head_joined (simple plain)
  cases text : joined cs with
  | nil => rfl
  | cons a t =>
      rw [text] at head
      refine List.dropWhile_cons_of_neg ?_
      rw [decide_eq_true_eq]
      rintro rfl
      exact head rfl

theorem joined_eq_nil {cs : List (List Byte)} (plain : ∀ c ∈ cs, Plain c) :
    joined cs = [] ↔ cs = [] := by
  refine ⟨fun empty => ?_, fun empty => empty ▸ rfl⟩
  have same := components_joined (simple plain)
  rw [empty] at same
  exact same.symm

theorem loop_done {r s p q : List Byte} (stop : ∀ c r' d s', r = c :: r' → s = d :: s' → c ≠ d) :
    prefixLoop r s p q = ((r, s), p, q) := by
  cases r with
  | nil => rw [prefixLoop]; simp
  | cons c r =>
      cases s with
      | nil => rw [prefixLoop]; simp
      | cons d s => rw [prefixLoop, if_neg (stop c r d s rfl rfl)]

/-- Two components are compared. -/
theorem loop_chars {x y p q : List Byte} (O C : List (List Byte)) (simple : slash ∉ x)
    (simple' : slash ∉ y) : patch (prefixLoop (x ++ behind O) (y ++ behind C) p q) =
      if x = y then patch (prefixLoop (behind O) (behind C) p q) else (p, q) := by
  have start : ∀ cs, behind cs = [] ∨ (behind cs).head? = some slash := by
    intro cs
    cases cs with
    | nil => exact Or.inl rfl
    | cons c cs => exact Or.inr rfl
  induction x generalizing y with
  | nil =>
      cases y with
      | nil => rw [if_pos rfl]; rfl
      | cons d y =>
          have other : d ≠ slash := fun same => simple' (same ▸ List.mem_cons_self)
          rw [if_neg (fun same => by cases same), List.nil_append]
          rw [loop_done fun c r' d' s' first second same => ?_]
          · rw [patch, if_neg (fun h => by cases h.2), if_neg (fun h => by cases h.2), if_neg]
            rintro ⟨-, head⟩
            exact other (Option.some.inj head)
          · cases second
            rcases start O with empty | head
            · rw [empty] at first
              cases first
            · rw [first] at head
              exact other (same ▸ Option.some.inj head)
  | cons c x ih =>
      have other : c ≠ slash := fun same => simple (same ▸ List.mem_cons_self)
      have stopped : ∀ s : List Byte, (∀ s', s ≠ c :: s') →
          patch (prefixLoop (c :: x ++ behind O) s p q) = (p, q) := by
        intro s differ
        rw [loop_done fun c' r' d' s' first second same => ?_]
        · rw [patch, if_neg (fun h => by cases h.1), if_neg, if_neg (fun h => by cases h.1)]
          rintro ⟨head, -⟩
          exact other (Option.some.inj head)
        · cases first
          exact differ s' (same ▸ second)
      cases y with
      | nil =>
          rw [if_neg (fun same => by cases same), List.nil_append]
          refine stopped _ fun s' same => ?_
          rcases start C with empty | head
          · rw [empty] at same
            cases same
          · rw [same] at head
            exact other (Option.some.inj head)
      | cons d y =>
          by_cases same : c = d
          · subst same
            rw [List.cons_append, List.cons_append, prefixLoop, if_pos rfl, if_neg other,
              ih (fun inside => simple (List.mem_cons_of_mem c inside))
                fun inside => simple' (List.mem_cons_of_mem c inside)]
            exact if_congr (by simp) rfl rfl
          · rw [if_neg fun equal => same (List.cons_eq_cons.mp equal).1]
            exact stopped _ fun s' equal => same (List.cons_eq_cons.mp equal).1.symm

variable {O C : List (List Byte)}

/-- What is left behind a common front. -/
def rests (O C : List (List Byte)) : List Byte × List Byte :=
  (joined (O.drop (common O C)), joined (C.drop (common O C)))

theorem loop_joined {a b : List Byte} (plain : Plain a) (plain' : Plain b)
    (later : ∀ p q, patch (prefixLoop (behind O) (behind C) p q) = rests O C) :
    patch (prefixLoop (joined (a :: O)) (joined (b :: C)) (joined (a :: O)) (joined (b :: C))) =
      rests (a :: O) (b :: C) := by
  rw [joined, joined, loop_chars O C plain.2 plain'.2, rests, common]
  by_cases same : a = b
  · rw [if_pos same, later, if_pos same]
    rfl
  · rw [if_neg same, if_neg same]
    rfl

theorem loop_behind (plain : ∀ c ∈ O, Plain c) (plain' : ∀ c ∈ C, Plain c) (p q : List Byte) :
    patch (prefixLoop (behind O) (behind C) p q) = rests O C := by
  induction O generalizing C p q with
  | nil =>
      cases C with
      | nil =>
          rw [loop_done fun c r' d' s' first => (by cases first)]
          rfl
      | cons b C =>
          rw [loop_done fun c r' d' s' first => (by cases first), behind_cons, patch,
            if_neg (fun h => by cases h.2), if_neg (fun h => by cases h.2), if_pos ⟨rfl, rfl⟩]
          have skipped : skip (slash :: joined (b :: C)) = joined (b :: C) :=
            (List.dropWhile_cons_of_pos (by simp)).trans (skip_joined plain')
          rw [skipped]
          rfl
  | cons a O ih =>
      cases C with
      | nil =>
          rw [loop_done fun c r' d' s' first second => (by cases second), behind_cons, patch,
            if_neg (fun h => by cases h.1), if_pos ⟨rfl, rfl⟩]
          have skipped : skip (slash :: joined (a :: O)) = joined (a :: O) :=
            (List.dropWhile_cons_of_pos (by simp)).trans (skip_joined plain)
          rw [skipped]
          rfl
      | cons b C =>
          rw [behind_cons, behind_cons, prefixLoop, if_pos rfl, if_pos rfl, skip_joined plain,
            skip_joined plain']
          exact loop_joined (plain a List.mem_cons_self) (plain' b List.mem_cons_self)
            (ih (fun c inside => plain c (List.mem_cons_of_mem a inside))
              fun c inside => plain' c (List.mem_cons_of_mem b inside))

/-- The common front is found component by component. -/
theorem apart_absolute (plain : ∀ c ∈ O, Plain c) (plain' : ∀ c ∈ C, Plain c) :
    apart (absolute slash O) (absolute slash C) = rests O C := by
  rw [apart, absolute_eq, absolute_eq, prefixLoop, if_pos rfl, if_pos rfl, skip_joined plain,
    skip_joined plain']
  cases O with
  | nil =>
      rw [loop_done fun c r' d' s' first => (by cases first)]
      cases C with
      | nil => rfl
      | cons b C =>
          have some : joined (b :: C) ≠ [] := fun empty =>
            List.cons_ne_nil b C ((joined_eq_nil plain').mp empty)
          rw [patch, if_neg (fun h => some h.2), if_neg (fun h => some h.2),
            if_neg (fun h => head_joined (simple plain') h.2)]
          rfl
  | cons a O =>
      cases C with
      | nil =>
          have some : joined (a :: O) ≠ [] := fun empty =>
            List.cons_ne_nil a O ((joined_eq_nil plain).mp empty)
          rw [loop_done fun c r' d' s' first second => (by cases second), patch,
            if_neg (fun h => some h.1), if_neg (fun h => head_joined (simple plain) h.1),
            if_neg (fun h => some h.1)]
          rfl
      | cons b C =>
          exact loop_joined (plain a List.mem_cons_self) (plain' b List.mem_cons_self)
            (loop_behind (fun c inside => plain c (List.mem_cons_of_mem a inside))
              fun c inside => plain' c (List.mem_cons_of_mem b inside))

end Texts

/-! ## One entry -/

section Entries

variable {P Q : List (List Byte)} {r s : List Byte}

/-- The component in front of the joined ones. -/
theorem joined_front {c : List Byte} (plain : ∀ d ∈ c :: P, Plain d) :
    component (joined (c :: P)) = c ∧ (after (joined (c :: P))).drop 1 = joined P := by
  have simple := (plain c List.mem_cons_self).2
  have all : ∀ a ∈ c, decide (a ≠ slash) = true := fun a inside =>
    decide_eq_true fun same => simple (same ▸ inside)
  rw [joined, component, after, List.takeWhile_append_of_pos all, List.dropWhile_append_of_pos all]
  cases P with
  | nil => exact ⟨List.append_nil c, rfl⟩
  | cons d P =>
      rw [behind_cons]
      exact ⟨by simp, by simp⟩

theorem rev_joined (plain : ∀ c ∈ P, Plain c) :
    rev (joined P) = some (closed (List.replicate P.length [dot, dot])) := by
  induction P with
  | nil => rw [joined, rev, if_pos rfl]; rfl
  | cons c P ih =>
      have first := plain c List.mem_cons_self
      have rest := ih fun d inside => plain d (List.mem_cons_of_mem c inside)
      have some : joined (c :: P) ≠ [] := fun empty =>
        first.1.1 (List.append_eq_nil_iff.mp empty).1
      obtain ⟨front, back⟩ := joined_front plain
      rw [rev, if_neg some, dif_neg (by rw [front]; exact first.1.1),
        if_neg (by rw [front]; exact not_or.mpr first.1.2), back, rest]
      rfl

theorem closed_joined {cs ds : List (List Byte)} (filled : ds ≠ []) :
    closed cs ++ joined ds = joined (cs ++ ds) := by
  induction cs with
  | nil => rfl
  | cons c cs ih =>
      have some : cs ++ ds ≠ [] := fun empty => filled (List.append_eq_nil_iff.mp empty).2
      obtain ⟨e, es, rest⟩ := List.exists_cons_of_ne_nil some
      rw [List.cons_append, rest, joined, behind_cons, ← rest, ← ih, closed, List.flatMap_cons,
        List.append_assoc, List.append_assoc]
      rfl

/-- What `rdircat` writes leads up from the first directory and down to the second. -/
theorem rdircat_joined (plain : ∀ c ∈ P, Plain c) (plain' : ∀ c ∈ Q, Plain c) :
    rdircat (joined P) (joined Q) =
      some (joined (List.replicate P.length [dot, dot] ++ Q)) := by
  rw [rdircat, rev_joined plain, Option.map_some]
  refine congrArg some ?_
  by_cases up : P = []
  · subst up
    exact if_neg fun h => h.1 rfl
  · have filled : joined P ≠ [] := mt (joined_eq_nil plain).mp up
    by_cases down : Q = []
    · have ups : List.replicate P.length [dot, dot] ≠ [] := fun none =>
        up (List.length_eq_zero_iff.mp (List.replicate_eq_nil_iff _ |>.mp none))
      rw [down, if_pos ⟨filled, rfl⟩, closed_eq ups, List.dropLast_concat, List.append_nil,
        joined_eq]
    · rw [if_neg fun h => down ((joined_eq_nil plain').mp h.2), closed_joined down]

/-- Text that more components can be written behind. -/
def Open (r : List Byte) : Prop := r = [] ∨ r.getLast? = some slash

theorem components_open (opened : Open r) (s : List Byte) :
    components slash (r ++ s) = components slash r ++ components slash s := by
  rcases opened with rfl | last
  · rfl
  · obtain ⟨front, rfl⟩ := List.getLast?_eq_some_iff.mp last
    rw [List.append_assoc, List.singleton_append, components_append, components_concat]

theorem open_slashed (r : List Byte) : Open (slashed r) := by
  rw [slashed]
  split
  · exact Or.inr List.getLast?_concat
  · rename_i h
    by_cases empty : r = []
    · exact Or.inl empty
    · refine Or.inr ?_
      by_contra other
      exact h ⟨empty, other⟩

theorem components_slashed (r : List Byte) :
    components slash (slashed r) = components slash r := by
  rw [slashed]
  split
  · exact components_concat slash r
  · rfl

theorem head_slashed (r : List Byte) : (slashed r).head? = r.head? := by
  rw [slashed]
  split
  · rename_i h
    cases r with
    | nil => exact absurd rfl h.1
    | cons a r => rfl
  · rfl

end Entries

/-! ## The texts that are canonised -/

section Glued

variable {O C : List (List Byte)} {r s : List Byte}

/-- The text with the way from `O` to `C` behind it. -/
def continued (O C : List (List Byte)) (r : List Byte) : List Byte :=
  (if O = C then r else slashed r) ++ joined (way dot O C)

/-- An entry between the way from `C` to `O` and the way back. -/
def glued (O C : List (List Byte)) (s : List Byte) : List Byte :=
  continued O C ((if s.head? = some slash then [] else slashed (joined (way dot C O))) ++ s)

/-- The components on the way over an entry. -/
def passage (O C : List (List Byte)) (s : List Byte) : List (List Byte) :=
  (if s.head? = some slash then [] else way dot C O) ++ components slash s ++ way dot O C

theorem simple_way (plain : ∀ c ∈ C, Plain c) : ∀ c ∈ way dot O C, slash ∉ c ∧ c ≠ [] := by
  intro c inside
  rcases List.mem_append.mp inside with up | down
  · rw [List.eq_of_mem_replicate up]
    decide
  · exact simple plain c (List.mem_of_mem_drop down)

theorem ways (plain : ∀ c ∈ O, Plain c) (plain' : ∀ c ∈ C, Plain c) :
    rdircat (rests O C).1 (rests O C).2 = some (joined (way dot O C)) ∧
      rdircat (rests O C).2 (rests O C).1 = some (joined (way dot C O)) := by
  have left : ∀ c ∈ O.drop (common O C), Plain c := fun c inside =>
    plain c (List.mem_of_mem_drop inside)
  have right : ∀ c ∈ C.drop (common O C), Plain c := fun c inside =>
    plain' c (List.mem_of_mem_drop inside)
  rw [rests, rdircat_joined left right, rdircat_joined right left, List.length_drop,
    List.length_drop, way, way, common_comm C O]
  exact ⟨rfl, rfl⟩

/-- Nothing is left of either directory when they are the same one. -/
theorem rests_filled (plain : ∀ c ∈ O, Plain c) (plain' : ∀ c ∈ C, Plain c) :
    (rests O C).1 ≠ [] ∨ (rests O C).2 ≠ [] ↔ O ≠ C := by
  have left : (rests O C).1 = [] ↔ O.drop (common O C) = [] :=
    joined_eq_nil fun c inside => plain c (List.mem_of_mem_drop inside)
  have right : (rests O C).2 = [] ↔ C.drop (common O C) = [] :=
    joined_eq_nil fun c inside => plain' c (List.mem_of_mem_drop inside)
  rw [Ne, Ne, Ne, ← not_and_or, left, right, not_iff_not]
  constructor
  · rintro ⟨first, second⟩
    have all := List.take_append_drop (common O C) O
    have all' := List.take_append_drop (common O C) C
    rw [first, List.append_nil, take_common] at all
    rw [second, List.append_nil] at all'
    exact all.symm.trans all'
  · rintro rfl
    rw [common_self, List.drop_length]
    exact ⟨rfl, rfl⟩

theorem onward_eq (plain : ∀ c ∈ O, Plain c) (plain' : ∀ c ∈ C, Plain c) (r : List Byte) :
    onward (rests O C).1 (rests O C).2 r = canonTemp (continued O C r) := by
  rw [onward, (ways plain plain').1, continued]
  refine congrArg (fun front => canonTemp (front ++ _)) ?_
  rw [if_congr (rests_filled plain plain') rfl rfl, ite_not]

theorem moved_eq (plain : ∀ c ∈ O, Plain c) (plain' : ∀ c ∈ C, Plain c) (s : List Byte) :
    moved (rests O C).1 (rests O C).2 s = canonTemp (glued O C s) := by
  rw [moved, lead, (ways plain plain').2, glued]
  by_cases absolute : s.head? = some slash
  · rw [if_neg (not_not_intro absolute), if_pos absolute]
    exact onward_eq plain plain' _
  · rw [if_pos absolute, if_neg absolute]
    exact onward_eq plain plain' _

theorem components_continued (plain : ∀ c ∈ C, Plain c) (r : List Byte) :
    components slash (continued O C r) = components slash r ++ way dot O C := by
  by_cases same : O = C
  · subst same
    rw [continued, if_pos rfl, way_self, joined, List.append_nil, List.append_nil]
  · rw [continued, if_neg same, components_open (open_slashed r), components_slashed,
      components_joined (simple_way plain)]

theorem head_append {a b : List Byte} (other : a.head? ≠ some slash) :
    (a ++ b).head? = some slash → b.head? = some slash := by
  intro whole
  cases a with
  | nil => exact whole
  | cons c a => exact absurd whole other

/-- The components and the first character of what is canonised for an entry. -/
theorem glued_spec (plain : ∀ c ∈ O, Plain c) (plain' : ∀ c ∈ C, Plain c) (s : List Byte) :
    components slash (glued O C s) = passage O C s ∧
      ((glued O C s).head? = some slash ↔ s.head? = some slash) := by
  have opened : ∀ r, (continued O C r).head? = some slash ↔ r.head? = some slash := by
    intro r
    have first : (if O = C then r else slashed r).head? = r.head? := by
      split
      · rfl
      · exact head_slashed r
    have last := head_joined (simple_way (O := O) plain')
    cases r with
    | nil =>
        rw [continued, show (if O = C then [] else slashed []) = ([] : List Byte) from ite_self _]
        exact ⟨fun no => absurd no last, fun no => (by cases no)⟩
    | cons a r =>
        rw [continued, List.head?_append, first]
        rfl
  rw [glued, passage, components_continued plain', opened]
  by_cases absolute : s.head? = some slash
  · rw [if_pos absolute, if_pos absolute]
    exact ⟨rfl, Iff.rfl⟩
  · rw [if_neg absolute, if_neg absolute, components_open (open_slashed _), components_slashed,
      components_joined (simple_way plain)]
    refine ⟨rfl, head_append ?_, fun yes => absurd yes absolute⟩
    rw [head_slashed]
    exact head_joined (simple_way plain)

/-- A text that `temp` has room for, with the pointers of its components on the stack. -/
def Room (r : List Byte) : Prop :=
  r.length < INMAX ∧ Shallow (MAXPATHLEN / 2) 0 (components slash r)

instance (r : List Byte) : Decidable (Room r) := inferInstanceAs (Decidable (_ ∧ _))

theorem canonTemp_eq (visible : (0 : Byte) ∉ r) :
    canonTemp r = if Room r then some (canon r) else none := by
  rw [canonTemp]
  by_cases short : r.length < INMAX
  · by_cases shallow : Shallow (MAXPATHLEN / 2) 0 (components slash r)
    · obtain ⟨m, ran, -, text⟩ := InPlace.canon_spec visible shallow
      rw [if_pos short, ran, if_pos ⟨short, shallow⟩, Option.map_some, text]
    · rw [if_pos short, InPlace.canon_overflows visible shallow, if_neg fun h => shallow h.2]
      rfl
  · rw [if_neg short, if_neg fun h => short h.1]

theorem mem_slashed {a : Byte} (inside : a ∈ slashed r) : a ∈ r ∨ a = slash := by
  rw [slashed] at inside
  split at inside
  · exact (List.mem_append.mp inside).imp id List.mem_singleton.mp
  · exact Or.inl inside

theorem visible_joined {cs : List (List Byte)} (visible : ∀ c ∈ cs, (0 : Byte) ∉ c) :
    (0 : Byte) ∉ joined cs := by
  induction cs with
  | nil => exact List.not_mem_nil
  | cons c cs ih =>
      have rest := ih fun d inside => visible d (List.mem_cons_of_mem c inside)
      rw [joined, List.mem_append, not_or]
      refine ⟨visible c List.mem_cons_self, ?_⟩
      cases cs with
      | nil => exact List.not_mem_nil
      | cons d cs =>
          rw [behind_cons, List.mem_cons, not_or]
          exact ⟨by decide, rest⟩

theorem visible_way (visible : ∀ c ∈ C, (0 : Byte) ∉ c) : (0 : Byte) ∉ joined (way dot O C) := by
  refine visible_joined fun c inside => ?_
  rcases List.mem_append.mp inside with up | down
  · rw [List.eq_of_mem_replicate up]
    decide
  · exact visible c (List.mem_of_mem_drop down)

theorem visible_continued (visible : ∀ c ∈ C, (0 : Byte) ∉ c) (text : (0 : Byte) ∉ r) :
    (0 : Byte) ∉ continued O C r := by
  rw [continued, List.mem_append, not_or]
  refine ⟨?_, visible_way visible⟩
  split
  · exact text
  · exact fun inside => (mem_slashed inside).elim text (by decide)

theorem visible_glued (visible : ∀ c ∈ O, (0 : Byte) ∉ c) (visible' : ∀ c ∈ C, (0 : Byte) ∉ c)
    (text : (0 : Byte) ∉ s) : (0 : Byte) ∉ glued O C s := by
  refine visible_continued visible' ?_
  rw [List.mem_append, not_or]
  refine ⟨?_, text⟩
  split
  · exact List.not_mem_nil
  · exact fun inside => (mem_slashed inside).elim (visible_way visible) (by decide)

end Glued

/-! ## The whole path -/

/-- A canonical absolute directory. -/
structure Dir where
  names : List (List Byte)
  plain : ∀ c ∈ names, Plain c
  visible : ∀ c ∈ names, (0 : Byte) ∉ c

def Dir.text (d : Dir) : List Byte := absolute slash d.names

/-- No canonical directory is below the super root. -/
theorem Dir.superroot (d : Dir) (hascmurfs : Bool) : superroot hascmurfs d.text = false := by
  rw [Moved.superroot, Dir.text, absolute_eq, Bool.and_eq_false_iff, decide_eq_false_iff_not]
  refine Or.inr fun same => ?_
  obtain ⟨names, plain, visible⟩ := d
  cases names with
  | nil => exact absurd (congrArg List.length same) (by change ¬1 = 4; decide)
  | cons c cs =>
      have begun : (joined (c :: cs)).take 3 = [dot, dot, slash] := by
        have cut : superpre.take 4 = slash :: [dot, dot, slash] := by decide
        rw [cut, List.take_succ_cons] at same
        exact (List.cons.inj same).2
      have up : component (joined (c :: cs)) = [dot, dot] := by
        rw [← List.take_append_drop 3 (joined (c :: cs)), begun]
        rfl
      rw [(joined_front plain).1] at up
      exact (plain c List.mem_cons_self).1.2.2 up

/-- The entry `n` found from `cwd` denotes where the way from `owd` to `cwd` leads from the
directory of the entry `s` found from `owd`. -/
structure Anchored (cwd owd : Dir) (s n : List Byte) : Prop where
  absolute : n.head? = some slash ↔ s.head? = some slash
  led : denotes slash dot cwd.names n =
    follow dot (denotes slash dot owd.names s) (way dot owd.names cwd.names)
  kept : cwd = owd → denotes slash dot cwd.names n = denotes slash dot cwd.names s

/-- Every entry is anchored again, in `newsd` and in what the next make reads of the environment. -/
def ReAnchored (hascmurfs : Bool) (cwd owd : Dir) (psd ep : List Byte) : Prop :=
  ∃ e, movedmake hascmurfs cwd.text owd.text psd ep = some e ∧
    List.Forall₂ (Anchored cwd owd) (ptov psd) e.newsd ∧
    List.Forall₂ (Anchored cwd owd) (ptov psd) (ptov e.makepsd)

/-- The name of the directory that an entry is moved to, without detours. -/
def direct (cwd owd : Dir) (s : List Byte) : List Byte :=
  root s ++ [slash].intercalate (Library.Paths.settle dot (passage owd.names cwd.names s))

/-- The entries, the texts and the components fit, and the new path can be taken apart again. -/
structure Fits (cwd owd : Dir) (psd ep : List Byte) : Prop where
  few : (ptov psd).length ≤ MAXSRCDIRS
  short : ∀ s ∈ ptov psd, (glued owd.names cwd.names s).length < INMAX
  shallow : ∀ s ∈ ptov psd, Shallow (MAXPATHLEN / 2) 0 (passage owd.names cwd.names s)
  dir : Room (continued owd.names cwd.names (rooted ep))
  whole : (vtop ((ptov psd).map (direct cwd owd))).length < INMAX
  colonless : ∀ s ∈ ptov psd, colon ∉ direct cwd owd s
  filled : (ptov psd).map (direct cwd owd) ≠ [[]]

section Movedmake

variable {cwd owd : Dir} {s psd ep : List Byte}

theorem direct_eq (cwd owd : Dir) (s : List Byte) :
    canon (glued owd.names cwd.names s) = direct cwd owd s := by
  obtain ⟨parts, head⟩ := glued_spec owd.plain cwd.plain s
  rw [canon_text, parts, direct, root, root, if_congr head rfl rfl]

/-- The directory of an entry, moved by the way from `owd` to `cwd`. -/
theorem anchored_direct (cwd owd : Dir) (s : List Byte) :
    Anchored cwd owd s (direct cwd owd s) := by
  obtain ⟨parts, head⟩ := glued_spec owd.plain cwd.plain s
  have down : ∀ c ∈ owd.names, Down dot c := fun c inside => (owd.plain c inside).1
  have led : denotes slash dot cwd.names (direct cwd owd s) =
      follow dot (denotes slash dot owd.names s) (way dot owd.names cwd.names) := by
    rw [← direct_eq, denotes_canon, denotes, denotes, parts, passage, follow_append, follow_append]
    by_cases absolute : s.head? = some slash
    · rw [if_pos (head.mpr absolute), if_pos absolute, if_pos absolute, follow_nil]
    · rw [if_neg (mt head.mp absolute), if_neg absolute, if_neg absolute, follow_way _ down]
  refine ⟨?_, led, ?_⟩
  · rw [← direct_eq]
    exact (canon_spec _).2.trans head
  · rintro rfl
    rw [led, way_self, follow_nil]

theorem visible_entry (visible : (0 : Byte) ∉ psd) (inside : s ∈ ptov psd) : (0 : Byte) ∉ s := by
  rw [ptov] at inside
  split at inside
  · cases inside
  · exact fun within => visible (mem_of_mem_splitOn psd inside within)

theorem mapM_ite {α β : Type} {f : α → Option β} {R : α → Prop} [DecidablePred R] {g : α → β}
    {l : List α} (each : ∀ a ∈ l, f a = if R a then some (g a) else none) :
    l.mapM f = if ∀ a ∈ l, R a then some (l.map g) else none := by
  induction l with
  | nil => rfl
  | cons a l ih =>
      have rest := ih fun b inside => each b (List.mem_cons_of_mem a inside)
      rw [List.mapM_cons, each a List.mem_cons_self, rest, if_congr List.forall_mem_cons rfl rfl]
      by_cases first : R a
      · by_cases later : ∀ b ∈ l, R b
        · rw [if_pos first, if_pos later, if_pos ⟨first, later⟩]
          rfl
        · rw [if_pos first, if_neg later, if_neg fun h : R a ∧ _ => later h.2]
          rfl
      · rw [if_neg first, if_neg fun h : R a ∧ _ => first h.1]
        rfl

/-- What `movedmake` leaves when everything has room. -/
theorem movedmake_eq (hascmurfs : Bool) (visible : (0 : Byte) ∉ psd) (visible' : (0 : Byte) ∉ ep) :
    movedmake hascmurfs cwd.text owd.text psd ep =
      if (ptov psd).length ≤ MAXSRCDIRS ∧
          (∀ s ∈ ptov psd, Room (glued owd.names cwd.names s)) ∧
          Room (continued owd.names cwd.names (rooted ep)) ∧
          (vtop ((ptov psd).map (direct cwd owd))).length < INMAX then
        some ⟨(ptov psd).map (direct cwd owd), canon (continued owd.names cwd.names (rooted ep)),
          vtop ((ptov psd).map (direct cwd owd))⟩
      else none := by
  have start : owd.text.head? = some slash := by
    rw [Dir.text, absolute_eq]
    rfl
  have entries : (ptov psd).mapM (moved (rests owd.names cwd.names).1 (rests owd.names cwd.names).2)
      = if ∀ s ∈ ptov psd, Room (glued owd.names cwd.names s) then
          some ((ptov psd).map (direct cwd owd)) else none := by
    refine mapM_ite fun s inside => ?_
    rw [moved_eq owd.plain cwd.plain, ← direct_eq]
    exact canonTemp_eq (visible_glued owd.visible cwd.visible (visible_entry visible inside))
  have top : (0 : Byte) ∉ rooted ep := by
    rw [rooted, List.mem_cons, not_or]
    refine ⟨by decide, ?_⟩
    split
    · exact fun inside => visible' (List.mem_of_mem_drop inside)
    · exact visible'
  have dir := onward_eq owd.plain cwd.plain (rooted ep)
  rw [canonTemp_eq (visible_continued cwd.visible top)] at dir
  rw [movedmake, if_neg (not_not_intro start), owd.superroot, cwd.superroot]
  change (if _ then (List.mapM (moved (apart owd.text cwd.text).1 (apart owd.text cwd.text).2)
    (ptov psd)).bind fun newsd => (onward (apart owd.text cwd.text).1 (apart owd.text cwd.text).2
      (rooted ep)).bind fun makedir => _ else none) = _
  rw [Dir.text, Dir.text, apart_absolute owd.plain cwd.plain, entries, dir]
  by_cases few : (ptov psd).length ≤ MAXSRCDIRS
  · by_cases each : ∀ s ∈ ptov psd, Room (glued owd.names cwd.names s)
    · by_cases room : Room (continued owd.names cwd.names (rooted ep))
      · rw [if_pos few, if_pos each, if_pos room, Option.bind_some, Option.bind_some]
        refine if_congr ?_ rfl rfl
        exact ⟨fun h => ⟨few, each, room, h⟩, fun h => h.2.2.2⟩
      · rw [if_pos few, if_pos each, if_neg room, Option.bind_some]
        exact (if_neg fun h => room h.2.2.1).symm
    · rw [if_pos few, if_neg each, Option.bind_none]
      exact (if_neg fun h => each h.2.1).symm
  · rw [if_neg few, if_neg fun h => few h.1]

theorem vtop_cons (n m : List Byte) (l : List (List Byte)) :
    (vtop (n :: m :: l)).splitOn colon = n.splitOn colon ++ (vtop (m :: l)).splitOn colon := by
  rw [vtop, intercalate_cons, List.splitOn_append_cons_self, vtop]

/-- A text is in one piece only without a colon. -/
theorem length_splitOn (n : List Byte) : 1 ≤ (n.splitOn colon).length ∧
    ((n.splitOn colon).length = 1 → colon ∉ n) := by
  have some : ∀ m : List Byte, 1 ≤ (m.splitOn colon).length := fun m =>
    List.length_pos_iff.mpr (List.splitOn_ne_nil colon m)
  refine ⟨some n, fun one inside => ?_⟩
  obtain ⟨a, b, rfl⟩ := List.append_of_mem inside
  have first := some a
  have second := some b
  rw [List.splitOn_append_cons_self, List.length_append] at one
  omega

theorem length_vtop {l : List (List Byte)} (filled : l ≠ []) :
    l.length ≤ ((vtop l).splitOn colon).length ∧
      (((vtop l).splitOn colon).length = l.length → ∀ n ∈ l, colon ∉ n) := by
  induction l with
  | nil => exact absurd rfl filled
  | cons n l ih =>
      obtain ⟨one, alone⟩ := length_splitOn n
      cases l with
      | nil =>
          rw [vtop, List.intercalate_singleton]
          refine ⟨one, fun same m inside => ?_⟩
          rw [List.mem_singleton.mp inside]
          exact alone same
      | cons m l =>
          obtain ⟨more, rest⟩ := ih (List.cons_ne_nil m l)
          rw [vtop_cons, List.length_append, List.length_cons]
          refine ⟨by omega, fun same => List.forall_mem_cons.mpr ⟨alone (by omega), ?_⟩⟩
          exact rest (by omega)

/-- A path is taken apart into its entries unless one of them has a colon or only an empty one
is there. -/
theorem ptov_vtop {l : List (List Byte)} (colonless : ∀ n ∈ l, colon ∉ n) (filled : l ≠ [[]]) :
    ptov (vtop l) = l := by
  cases l with
  | nil => rfl
  | cons n l =>
      have text : vtop (n :: l) ≠ [] := by
        intro empty
        cases l with
        | nil =>
            rw [vtop, List.intercalate_singleton] at empty
            exact filled (congrArg ([·]) empty)
        | cons m l =>
            rw [vtop, intercalate_cons] at empty
            exact List.cons_ne_nil _ _ (List.append_eq_nil_iff.mp empty).2
      rw [ptov, if_neg text]
      exact List.splitOn_intercalate colon colonless (List.cons_ne_nil n l)

theorem apart_of_length {l : List (List Byte)} (same : (ptov (vtop l)).length = l.length) :
    (∀ n ∈ l, colon ∉ n) ∧ l ≠ [[]] := by
  cases l with
  | nil => exact ⟨List.forall_mem_nil _, fun no => (by cases no)⟩
  | cons n l =>
      rw [ptov] at same
      split at same
      · cases same
      · rename_i text
        refine ⟨(length_vtop (List.cons_ne_nil n l)).2 same, ?_⟩
        rintro alone
        rw [alone] at text
        exact text rfl

/-- Every entry of the search path is moved by the way from `owd` to `cwd` exactly when
everything fits. -/
theorem movedmake_anchors_iff (hascmurfs : Bool) (cwd owd : Dir) (psd ep : List Byte)
    (visible : (0 : Byte) ∉ psd) (visible' : (0 : Byte) ∉ ep) :
    ReAnchored hascmurfs cwd owd psd ep ↔ Fits cwd owd psd ep := by
  have room : ∀ s, Room (glued owd.names cwd.names s) ↔
      (glued owd.names cwd.names s).length < INMAX ∧
        Shallow (MAXPATHLEN / 2) 0 (passage owd.names cwd.names s) := fun s => by
    rw [Room, (glued_spec owd.plain cwd.plain s).1]
  have all : List.Forall₂ (Anchored cwd owd) (ptov psd) ((ptov psd).map (direct cwd owd)) :=
    List.forall₂_map_right_iff.mpr (List.forall₂_same.mpr fun s _ => anchored_direct cwd owd s)
  rw [ReAnchored, movedmake_eq hascmurfs visible visible']
  constructor
  · rintro ⟨e, ran, -, read⟩
    split at ran
    · rename_i h
      cases ran
      obtain ⟨few, each, dir, whole⟩ := h
      obtain ⟨colonless, filled⟩ := apart_of_length
        (read.length_eq.symm.trans (List.length_map _).symm)
      exact ⟨few, fun s inside => ((room s).mp (each s inside)).1,
        fun s inside => ((room s).mp (each s inside)).2, dir, whole,
        fun s inside => colonless _ (List.mem_map_of_mem inside), filled⟩
    · cases ran
  · intro h
    rw [if_pos ⟨h.few, fun s inside => (room s).mpr ⟨h.short s inside, h.shallow s inside⟩,
      h.dir, h.whole⟩]
    refine ⟨_, rfl, all, ?_⟩
    dsimp only
    rw [ptov_vtop (List.forall_mem_map.mpr h.colonless) h.filled]
    exact all

/-- The entries `x` and `/y` from `/a` to `/b`. -/
theorem movedmake_anchors_siblings :
    ReAnchored false ⟨[[98]], by decide, by decide⟩ ⟨[[97]], by decide, by decide⟩
      [120, 58, 47, 121] [] :=
  (movedmake_anchors_iff false ⟨[[98]], by decide, by decide⟩ ⟨[[97]], by decide, by decide⟩
    [120, 58, 47, 121] [] (by decide) (by decide)).mpr
    ⟨by decide, by decide, by decide, by decide, by decide, by decide, by decide⟩

/-- The only entry `.` is lost where the make stays in `/b`, and 511 directories below each other
and an entry of two components overflow the stack. -/
theorem movedmake_loses :
    ¬ReAnchored false ⟨[[98]], by decide, by decide⟩ ⟨[[98]], by decide, by decide⟩ [46] [] ∧
      ¬ReAnchored false ⟨[[98]], by decide, by decide⟩
        ⟨List.replicate 511 [97], fun _ inside => List.eq_of_mem_replicate inside ▸ by decide,
          fun _ inside => List.eq_of_mem_replicate inside ▸ by decide⟩ [120, 47, 121] [] := by
  constructor
  · rintro ⟨e, ran, -, read⟩
    rw [movedmake_eq false (by decide) (by decide), if_pos (by decide)] at ran
    cases ran
    exact absurd read.length_eq (by decide)
  · rintro ⟨e, ran, -⟩
    rw [movedmake_eq false (by decide) (by decide)] at ran
    split at ran
    · rename_i h
      have deep : ¬Shallow (MAXPATHLEN / 2) 0
          (passage (List.replicate 511 [97]) [[98]] [120, 47, 121]) := by decide +kernel
      have room := h.2.1 [120, 47, 121] (by decide)
      rw [Room, (glued_spec (Dir.plain _) (Dir.plain _) _).1] at room
      exact deep room.2
    · cases ran

end Movedmake

end MachFormal.Make.Moved
