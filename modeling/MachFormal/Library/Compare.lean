import Mathlib.Data.List.Basic
import Mathlib.Order.Basic

/-!
# Comparing strings

Strings are compared character by character up to the first difference or a terminator.  What
is behind a terminator does not count, and behind the end of a list there is one.  The
characters have values, which may be negative.
-/

namespace MachFormal.Library.Compare

section Comparison

variable {α : Type} [DecidableEq α] (nul : α) (v : α → Int)

/-- The difference of the first characters that differ. -/
def strcmp : List α → List α → Int
  | [], [] => 0
  | [], b :: _ => v nul - v b
  | a :: _, [] => v a - v nul
  | a :: s, b :: t => if a = b then if a = nul then 0 else strcmp s t else v a - v b

/-- The same, for at most `n` characters. -/
def strncmp : List α → List α → Nat → Int
  | _, _, 0 => 0
  | [], [], _ => 0
  | [], b :: _, _ => v nul - v b
  | a :: _, [], _ => v a - v nul
  | a :: s, b :: t, n + 1 => if a = b then if a = nul then 0 else strncmp s t n else v a - v b

variable {nul : α} {v : α → Int} {s t u : List α}

theorem strcmp_self (s : List α) : strcmp nul v s s = 0 := by
  induction s with
  | nil => rfl
  | cons a s ih => rw [strcmp, if_pos rfl, ih, ite_self]

theorem strcmp_swap (s t : List α) : strcmp nul v t s = -strcmp nul v s t := by
  induction s generalizing t with
  | nil =>
      cases t with
      | nil => rfl
      | cons b t => exact (Int.neg_sub _ _).symm
  | cons a s ih =>
      cases t with
      | nil => exact (Int.neg_sub _ _).symm
      | cons b t =>
          rw [strcmp, strcmp]
          rcases eq_or_ne a b with rfl | differ
          · rw [if_pos rfl, if_pos rfl, ih]
            split
            · rfl
            · rfl
          · rw [if_neg differ, if_neg differ.symm, Int.neg_sub]

theorem strcmp_total (s t : List α) : strcmp nul v s t ≤ 0 ∨ strcmp nul v t s ≤ 0 := by
  have swap := @strcmp_swap α _ nul v s t
  omega

theorem strcmp_eq (s t : List α) : strcmp nul v s t =
    if s.headD nul = t.headD nul then
      if s.headD nul = nul then 0 else strcmp nul v s.tail t.tail
    else v (s.headD nul) - v (t.headD nul) := by
  cases s with
  | nil =>
      cases t with
      | nil => simp [strcmp]
      | cons b t =>
          rw [strcmp, List.headD_nil, List.headD_cons]
          split
          · next same => rw [if_pos rfl, ← same, Int.sub_self]
          · rfl
  | cons a s =>
      cases t with
      | nil =>
          rw [strcmp, List.headD_nil, List.headD_cons]
          rcases eq_or_ne a nul with rfl | differ
          · rw [if_pos rfl, if_pos rfl, Int.sub_self]
          · rw [if_neg differ]
      | cons b t => rfl

theorem strcmp_trans (injective : v.Injective) (first : strcmp nul v s t ≤ 0)
    (second : strcmp nul v t u ≤ 0) : strcmp nul v s u ≤ 0 := by
  induction s generalizing t u with
  | nil =>
      rw [strcmp_eq] at first second ⊢
      rw [List.headD_nil] at first ⊢
      rcases eq_or_ne nul (t.headD nul) with same | differ
      · rw [← same, if_pos rfl] at second
        split
        · exact Int.le_of_eq (if_pos rfl)
        · next other => rwa [if_neg other] at second
      · rw [if_neg differ] at first
        have unequal : v nul ≠ v (t.headD nul) := injective.ne differ
        rcases eq_or_ne nul (u.headD nul) with same | other
        · refine Int.le_of_eq ?_
          rw [if_pos same, if_pos rfl]
        · rw [if_neg other]
          rcases eq_or_ne (t.headD nul) (u.headD nul) with equal | apart
          · rwa [← equal]
          · rw [if_neg apart] at second
            omega
  | cons a s ih =>
      rw [strcmp_eq] at first second ⊢
      rw [List.headD_cons, List.tail_cons] at first ⊢
      rcases eq_or_ne a (t.headD nul) with same | differ
      · rw [if_pos same] at first
        rw [← same] at second
        rcases eq_or_ne a (u.headD nul) with same' | other
        · rw [if_pos same'] at second ⊢
          split
          · exact Int.le_refl 0
          · next filled =>
              rw [if_neg filled] at first second
              exact ih first second
        · rwa [if_neg other] at second ⊢
      · rw [if_neg differ] at first
        have unequal : v a ≠ v (t.headD nul) := injective.ne differ
        rcases eq_or_ne (t.headD nul) (u.headD nul) with equal | apart
        · rw [← equal, if_neg differ]
          exact first
        · rw [if_neg apart] at second
          have distinct : a ≠ u.headD nul := by
            rintro rfl
            omega
          rw [if_neg distinct]
          omega

/-- Texts that compare to zero are the same. -/
theorem strcmp_eq_zero (injective : v.Injective) (text : nul ∉ s) (text' : nul ∉ t) :
    strcmp nul v s t = 0 ↔ s = t := by
  refine ⟨fun same => ?_, fun same => same ▸ strcmp_self s⟩
  induction s generalizing t with
  | nil =>
      cases t with
      | nil => rfl
      | cons b t =>
          have equal : nul = b := injective (Int.sub_eq_zero.mp same)
          exact absurd (equal ▸ List.mem_cons_self) text'
  | cons a s ih =>
      cases t with
      | nil =>
          have equal : a = nul := injective (Int.sub_eq_zero.mp same)
          exact absurd (equal ▸ List.mem_cons_self) text
      | cons b t =>
          rw [List.mem_cons, not_or] at text text'
          rw [strcmp] at same
          rcases eq_or_ne a b with rfl | differ
          · rw [if_pos rfl, if_neg (Ne.symm text.1)] at same
            rw [ih text.2 text'.2 same]
          · rw [if_neg differ] at same
            exact absurd (injective (Int.sub_eq_zero.mp same)) differ

/-- What is behind a terminator does not count. -/
theorem strcmp_terminator (s t u : List α) :
    strcmp nul v (s ++ nul :: t) u = strcmp nul v s u := by
  induction s generalizing u with
  | nil =>
      cases u with
      | nil => exact Int.sub_self _
      | cons b u =>
          rw [List.nil_append, strcmp, strcmp]
          rcases eq_or_ne nul b with rfl | differ
          · rw [if_pos rfl, if_pos rfl, Int.sub_self]
          · rw [if_neg differ]
  | cons a s ih =>
      cases u with
      | nil => rfl
      | cons b u => rw [List.cons_append, strcmp, strcmp, ih]

/-- A text comes before all that begin with it. -/
theorem strcmp_append_le (visible : ∀ c ∈ t, v nul < v c) : strcmp nul v s (s ++ t) ≤ 0 := by
  induction s with
  | nil =>
      cases t with
      | nil => exact Int.le_refl 0
      | cons b t =>
          have := visible b List.mem_cons_self
          rw [List.nil_append, strcmp]
          omega
  | cons a s ih =>
      rw [List.cons_append, strcmp, if_pos rfl]
      split
      · exact Int.le_refl 0
      · exact ih

/-- What lies between a text and one that begins with it begins with it too. -/
theorem prefix_of_between (injective : v.Injective) (visible : ∀ c ∈ s, v nul < v c)
    (low : strcmp nul v s u ≤ 0) (high : strcmp nul v u (s ++ t) ≤ 0) : s <+: u := by
  induction s generalizing u with
  | nil => exact List.nil_prefix
  | cons a s ih =>
      have positive := visible a List.mem_cons_self
      cases u with
      | nil =>
          rw [strcmp] at low
          omega
      | cons b u =>
          rw [List.cons_append, strcmp] at high
          rw [strcmp] at low
          rcases eq_or_ne a b with rfl | differ
          · have other : a ≠ nul := by
              rintro rfl
              omega
            rw [if_pos rfl, if_neg other] at low high
            have rest := ih (fun c inside => visible c (List.mem_cons_of_mem a inside)) low high
            exact List.cons_prefix_cons.mpr ⟨rfl, rest⟩
          · rw [if_neg differ] at low
            rw [if_neg differ.symm] at high
            exact absurd (injective (Int.le_antisymm (by omega) (by omega))) differ

theorem strncmp_eq_zero (injective : v.Injective) (text : nul ∉ t) :
    strncmp nul v s t t.length = 0 ↔ t <+: s := by
  induction t generalizing s with
  | nil => exact ⟨fun _ => List.nil_prefix, fun _ => by cases s <;> rfl⟩
  | cons b t ih =>
      rw [List.mem_cons, not_or] at text
      cases s with
      | nil =>
          refine ⟨fun same => ?_, fun front => (by cases List.prefix_nil.mp front)⟩
          exact absurd (injective (Int.sub_eq_zero.mp same)) text.1
      | cons a s =>
          rw [List.length_cons, strncmp, List.cons_prefix_cons]
          rcases eq_or_ne a b with rfl | differ
          · rw [if_pos rfl, if_neg (Ne.symm text.1), ih text.2]
            exact (and_iff_right rfl).symm
          · rw [if_neg differ]
            exact ⟨fun same => absurd (injective (Int.sub_eq_zero.mp same)) differ,
              fun h => absurd h.1.symm differ⟩

end Comparison

end MachFormal.Library.Compare
