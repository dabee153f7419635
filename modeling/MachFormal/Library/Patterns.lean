import Mathlib.Data.List.Lex
import Mathlib.Logic.Function.Basic

/-!
# Patterns with variables

A pattern is a list of letters and variables, and an assignment of words to the variables
turns it into a word.  A variable may stand in a pattern any number of times and for the
empty word.

A search that binds one variable after the other, the longest word first, comes to a dead end
when it reaches a variable after whose bindings nothing matches.  Whether it does is said here of
the pattern and the word alone.
-/

namespace MachFormal.Library.Patterns

inductive Tok (α ν : Type) where
  | lit (c : α)
  | var (v : ν)
  deriving DecidableEq

variable {α ν : Type}

def Tok.expand (b : ν → List α) : Tok α ν → List α
  | .lit c => [c]
  | .var v => b v

/-- What an assignment turns a pattern into. -/
def expand (b : ν → List α) (p : List (Tok α ν)) : List α := p.flatMap (Tok.expand b)

/-- The length that each part of the pattern gets. -/
def widths (b : ν → List α) (p : List (Tok α ν)) : List Nat := p.map fun t => (t.expand b).length

@[simp] theorem expand_nil (b : ν → List α) : expand b [] = [] := rfl

@[simp] theorem expand_lit (b : ν → List α) (c : α) (p : List (Tok α ν)) :
    expand b (.lit c :: p) = c :: expand b p := rfl

@[simp] theorem expand_var (b : ν → List α) (v : ν) (p : List (Tok α ν)) :
    expand b (.var v :: p) = b v ++ expand b p := rfl

@[simp] theorem widths_nil (b : ν → List α) : widths b [] = [] := rfl

@[simp] theorem widths_lit (b : ν → List α) (c : α) (p : List (Tok α ν)) :
    widths b (.lit c :: p) = 1 :: widths b p := rfl

@[simp] theorem widths_var (b : ν → List α) (v : ν) (p : List (Tok α ν)) :
    widths b (.var v :: p) = (b v).length :: widths b p := rfl

/-! ## Matches -/

section Matches

variable {U : ν → Bool} {e b : ν → List α} {p : List (Tok α ν)} {s : List α} {v : ν}

/-- The assignment is as given on the variables that are bound. -/
def Agree (U : ν → Bool) (e b : ν → List α) : Prop := ∀ v, U v = true → b v = e v

structure Matches (U : ν → Bool) (e : ν → List α) (p : List (Tok α ν)) (s : List α)
    (b : ν → List α) : Prop where
  agree : Agree U e b
  expand_eq : expand b p = s

/-- The assignment takes the pattern as far as a variable that is not bound. -/
structure Reaches (U : ν → Bool) (e : ν → List α) (p : List (Tok α ν)) (s : List α)
    (front : List (Tok α ν)) (a : ν → List α) : Prop where
  pattern : ∃ v back, p = front ++ .var v :: back ∧ U v = false ∧ Tok.var v ∉ front
  agree : Agree U e a
  start : expand a front <+: s

/-- A variable is reached, and no match comes as late in the search, where longer bindings are
tried first. -/
def DeadEnd (U : ν → Bool) (e : ν → List α) (p : List (Tok α ν)) (s : List α) : Prop :=
  ∃ front a, Reaches U e p s front a ∧ ∀ b, Matches U e p s b → widths b front < widths a front

theorem matches_nil : Matches U e [] s b ↔ Agree U e b ∧ s = [] :=
  ⟨fun h => ⟨h.agree, h.expand_eq.symm⟩, fun h => ⟨h.1, h.2.symm⟩⟩

theorem matches_lit {c : α} :
    Matches U e (.lit c :: p) s b ↔ ∃ s', s = c :: s' ∧ Matches U e p s' b := by
  constructor
  · intro h
    exact ⟨expand b p, h.expand_eq.symm, h.agree, rfl⟩
  · rintro ⟨s', rfl, h⟩
    exact ⟨h.agree, congrArg (c :: ·) h.expand_eq⟩

theorem matches_bound (bound : U v = true) :
    Matches U e (.var v :: p) s b ↔ ∃ s', s = e v ++ s' ∧ Matches U e p s' b := by
  constructor
  · intro h
    refine ⟨expand b p, ?_, h.agree, rfl⟩
    rw [← h.expand_eq, expand_var, h.agree v bound]
  · rintro ⟨s', rfl, h⟩
    refine ⟨h.agree, ?_⟩
    rw [expand_var, h.agree v bound, h.expand_eq]

variable [DecidableEq ν]

/-- The variables that are bound when one more is. -/
abbrev bindVar (U : ν → Bool) (v : ν) : ν → Bool := Function.update U v true

theorem agree_bind (unbound : U v = false) {w : List α} :
    Agree (bindVar U v) (Function.update e v w) b ↔ Agree U e b ∧ b v = w := by
  constructor
  · intro h
    refine ⟨fun u hu => ?_, ?_⟩
    · have other : u ≠ v := fun same => by rw [same, unbound] at hu; cases hu
      have := h u (by rw [bindVar, Function.update_of_ne other]; exact hu)
      rwa [Function.update_of_ne other] at this
    · have := h v (Function.update_self v true U)
      rwa [Function.update_self] at this
  · rintro ⟨h, rfl⟩ u hu
    by_cases same : u = v
    · rw [same, Function.update_self]
    · rw [bindVar, Function.update_of_ne same] at hu
      rw [Function.update_of_ne same]
      exact h u hu

/-- A variable is bound to some beginning of the word. -/
theorem matches_free (unbound : U v = false) :
    Matches U e (.var v :: p) s b ↔ ∃ n ≤ s.length, (b v).length = n ∧
      Matches (bindVar U v) (Function.update e v (s.take n)) p (s.drop n) b := by
  constructor
  · intro h
    have whole : b v ++ expand b p = s := h.expand_eq
    refine ⟨(b v).length, ?_, rfl, (agree_bind unbound).mpr ⟨h.agree, ?_⟩, ?_⟩
    · rw [← whole, List.length_append]
      exact Nat.le_add_right _ _
    · rw [← whole, List.take_left]
    · rw [← whole, List.drop_left]
  · rintro ⟨n, -, -, h⟩
    obtain ⟨agree, bound⟩ := (agree_bind unbound).mp h.agree
    refine ⟨agree, ?_⟩
    rw [expand_var, bound, h.expand_eq, List.take_append_drop]

end Matches

/-! ## Dead ends -/

section DeadEnds

variable {U : ν → Bool} {e : ν → List α} {p : List (Tok α ν)} {s : List α} {v : ν}

theorem not_deadEnd_nil : ¬DeadEnd U e ([] : List (Tok α ν)) s := by
  rintro ⟨front, a, ⟨⟨v, back, pattern, -⟩, -, -⟩, -⟩
  cases front <;> cases pattern

/-- Behind a part of the pattern whose text is known the dead ends are those of the rest. -/
theorem deadEnd_known {t : Tok α ν} {x : List α} (known : ∀ v, U v = false → t ≠ .var v)
    (text : ∀ a, Agree U e a → t.expand a = x)
    (reads : ∀ b, Matches U e (t :: p) s b ↔ ∃ s', s = x ++ s' ∧ Matches U e p s' b) :
    DeadEnd U e (t :: p) s ↔ ∃ s', s = x ++ s' ∧ DeadEnd U e p s' := by
  have expands : ∀ {a : ν → List α} (q : List (Tok α ν)), Agree U e a →
      expand a (t :: q) = x ++ expand a q := fun q agree => by
    rw [expand, List.flatMap_cons, text _ agree]
    rfl
  have longer : ∀ {a b : ν → List α} (q : List (Tok α ν)), Agree U e a → Agree U e b →
      (widths b (t :: q) < widths a (t :: q) ↔ widths b q < widths a q) := fun q first second => by
    rw [widths, widths, List.map_cons, List.map_cons, text _ first, text _ second,
      List.cons_lt_cons_iff, or_iff_right (Nat.lt_irrefl _)]
    exact and_iff_right rfl
  constructor
  · rintro ⟨front, a, ⟨⟨v, back, pattern, unbound, fresh⟩, agree, start⟩, late⟩
    cases front with
    | nil => exact absurd (List.cons_eq_cons.mp pattern).1 (known v unbound)
    | cons u front =>
        obtain ⟨rfl, rfl⟩ := List.cons_eq_cons.mp pattern
        rw [expands _ agree] at start
        obtain ⟨rest, rfl⟩ := start
        refine ⟨expand a front ++ rest, List.append_assoc _ _ _, front, a, ⟨⟨v, back, rfl, unbound,
          fun inside => fresh (List.mem_cons_of_mem _ inside)⟩, agree, List.prefix_append _ _⟩, ?_⟩
        intro b h
        exact (longer front agree h.agree).mp
          (late b ((reads b).mpr ⟨_, List.append_assoc _ _ _, h⟩))
  · rintro ⟨s', rfl, front, a, ⟨⟨v, back, rfl, unbound, fresh⟩, agree, start⟩, late⟩
    refine ⟨t :: front, a, ⟨⟨v, back, rfl, unbound, ?_⟩, agree, ?_⟩, fun b h => ?_⟩
    · rw [List.mem_cons, not_or]
      exact ⟨(known v unbound).symm, fresh⟩
    · rw [expands _ agree]
      exact (List.prefix_append_right_inj x).mpr start
    · obtain ⟨s'', same, h⟩ := (reads b).mp h
      rw [List.append_cancel_left_eq] at same
      subst same
      exact (longer front agree h.agree).mpr (late b h)

theorem deadEnd_lit {c : α} :
    DeadEnd U e (.lit c :: p) s ↔ ∃ s', s = c :: s' ∧ DeadEnd U e p s' :=
  deadEnd_known (t := .lit c) (x := [c]) (fun _ _ same => by cases same) (fun _ _ => rfl)
    fun _ => matches_lit

theorem deadEnd_bound (bound : U v = true) :
    DeadEnd U e (.var v :: p) s ↔ ∃ s', s = e v ++ s' ∧ DeadEnd U e p s' :=
  deadEnd_known (t := .var v) (fun u unbound same => by cases same; rw [bound] at unbound; cases unbound)
    (fun _ agree => agree v bound) fun _ => matches_bound bound

variable [DecidableEq ν]

/-- Nothing matches, or there is a dead end behind a binding that is no shorter than the one of
any match. -/
theorem deadEnd_free (unbound : U v = false) :
    DeadEnd U e (.var v :: p) s ↔ (∀ b, ¬Matches U e (.var v :: p) s b) ∨
      ∃ n ≤ s.length,
        DeadEnd (bindVar U v) (Function.update e v (s.take n)) p (s.drop n) ∧
        ∀ m, n < m → m ≤ s.length → ∀ b,
          ¬Matches (bindVar U v) (Function.update e v (s.take m)) p (s.drop m) b := by
  constructor
  · rintro ⟨front, a, ⟨⟨u, back, pattern, unbound', fresh⟩, agree, start⟩, late⟩
    cases front with
    | nil => exact Or.inl fun b h => absurd (late b h) (List.not_lt_nil _)
    | cons t front =>
        obtain ⟨rfl, rfl⟩ := List.cons_eq_cons.mp pattern
        have other : u ≠ v := fun same => fresh (same ▸ List.mem_cons_self)
        obtain ⟨rest, rfl⟩ := start
        rw [expand_var, List.append_assoc] at late ⊢
        refine Or.inr ⟨(a v).length, ?_, ⟨front, a, ⟨⟨u, back, rfl, ?_, ?_⟩, ?_, ?_⟩, ?_⟩, ?_⟩
        · rw [List.length_append]
          exact Nat.le_add_right _ _
        · rw [bindVar, Function.update_of_ne other]
          exact unbound'
        · exact fun inside => fresh (List.mem_cons_of_mem _ inside)
        · exact (agree_bind unbound).mpr ⟨agree, List.take_left.symm⟩
        · rw [List.drop_left]
          exact List.prefix_append _ _
        · intro b h
          have width : (b v).length = (a v).length := by
            rw [((agree_bind unbound).mp h.agree).2, List.take_left]
          have := late b ((matches_free unbound).mpr ⟨_, by simp, width, h⟩)
          rw [widths_var, widths_var, width, List.cons_lt_cons_iff] at this
          exact (this.resolve_left (Nat.lt_irrefl _)).2
        · intro m longer short b h
          have width : (b v).length = m := by
            rw [((agree_bind unbound).mp h.agree).2, List.length_take, Nat.min_eq_left short]
          have := late b ((matches_free unbound).mpr ⟨m, short, width, h⟩)
          rw [widths_var, widths_var, width, List.cons_lt_cons_iff] at this
          omega
  · rintro (none | ⟨n, short, ⟨front, a, ⟨⟨u, back, rfl, unbound', fresh⟩, agree, start⟩, late⟩,
      longer⟩)
    · refine ⟨[], e, ⟨⟨v, p, rfl, unbound, List.not_mem_nil⟩, fun _ _ => rfl, ?_⟩, ?_⟩
      · exact List.nil_prefix
      · exact fun b h => absurd h (none b)
    · obtain ⟨agree, bound⟩ := (agree_bind unbound).mp agree
      have other : u ≠ v := by
        rintro rfl
        rw [bindVar, Function.update_self] at unbound'
        cases unbound'
      have width : (a v).length = n := by
        rw [bound, List.length_take, Nat.min_eq_left short]
      refine ⟨.var v :: front, a, ⟨⟨u, back, rfl, ?_, ?_⟩, agree, ?_⟩, ?_⟩
      · rwa [bindVar, Function.update_of_ne other] at unbound'
      · intro inside
        cases inside with
        | head => exact other rfl
        | tail _ inside => exact fresh inside
      · rw [expand_var, bound]
        obtain ⟨rest, same⟩ := start
        exact ⟨rest, by rw [List.append_assoc, same, List.take_append_drop]⟩
      · intro b h
        obtain ⟨m, short', width', h⟩ := (matches_free unbound).mp h
        rw [widths_var, widths_var, width, width', List.cons_lt_cons_iff]
        rcases Nat.lt_trichotomy m n with less | rfl | more
        · exact Or.inl less
        · exact Or.inr ⟨rfl, late b h⟩
        · exact absurd h (longer m more short' b)

end DeadEnds

end MachFormal.Library.Patterns
