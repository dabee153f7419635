import Mathlib.Data.List.Infix
import Mathlib.Data.List.TakeWhile

/-!
# Words and the gaps between them

A text is taken apart into words, each with the blanks before it, and the blanks behind the last
word.  Texts and their parts correspond to each other, so that what is done to the words one by
one can be read off the parts.
-/

namespace MachFormal.Library.Words

variable {α : Type}

/-- A word and the blanks before it. -/
structure Piece (α : Type) where
  gap : List α
  word : List α
  deriving DecidableEq

structure Line (α : Type) where
  pieces : List (Piece α)
  tail : List α
  deriving DecidableEq

def Piece.text (p : Piece α) : List α := p.gap ++ p.word

def Line.text (l : Line α) : List α := l.pieces.flatMap Piece.text ++ l.tail

def Line.words (l : Line α) : List (List α) := l.pieces.map Piece.word

@[simp] theorem text_nil (tail : List α) : Line.text ⟨[], tail⟩ = tail := rfl

@[simp] theorem text_cons (p : Piece α) (ps : List (Piece α)) (tail : List α) :
    Line.text ⟨p :: ps, tail⟩ = p.gap ++ (p.word ++ Line.text ⟨ps, tail⟩) := by
  simp only [Line.text, Piece.text, List.flatMap_cons, List.append_assoc]

section Splitting

variable (blank : α → Bool)

/-- One more letter in front. -/
def Line.cons (c : α) : Line α → Line α
  | ⟨[], tail⟩ => if blank c then ⟨[], c :: tail⟩ else ⟨[⟨[], [c]⟩], tail⟩
  | ⟨p :: ps, tail⟩ =>
      if blank c then ⟨⟨c :: p.gap, p.word⟩ :: ps, tail⟩
      else if p.gap.isEmpty then ⟨⟨[], c :: p.word⟩ :: ps, tail⟩
      else ⟨⟨[], [c]⟩ :: p :: ps, tail⟩

def split (x : List α) : Line α := x.foldr (Line.cons blank) ⟨[], []⟩

structure Piece.Formed (p : Piece α) : Prop where
  gap : ∀ c ∈ p.gap, blank c = true
  word : ∀ c ∈ p.word, blank c = false
  ne_nil : p.word ≠ []

/-- Words are apart from each other, and there are only blanks between them. -/
structure Line.Formed (l : Line α) : Prop where
  pieces : ∀ p ∈ l.pieces, p.Formed blank
  apart : ∀ p ∈ l.pieces.tail, p.gap ≠ []
  tail : ∀ c ∈ l.tail, blank c = true

variable {blank} {l : Line α} {p : Piece α} {ps : List (Piece α)} {tail : List α}

theorem Line.Formed.rest (h : Line.Formed blank ⟨p :: ps, tail⟩) : Line.Formed blank ⟨ps, tail⟩ where
  pieces q inside := h.pieces q (List.mem_cons_of_mem p inside)
  apart q inside := h.apart q (List.mem_of_mem_tail inside)
  tail := h.tail

theorem text_cons_letter (c : α) (l : Line α) : (l.cons blank c).text = c :: l.text := by
  obtain ⟨ps, tail⟩ := l
  cases ps with
  | nil =>
      rw [Line.cons]
      split <;> rfl
  | cons p ps =>
      rw [Line.cons]
      split
      · rfl
      · split
        · rename_i empty
          rw [text_cons, text_cons, List.isEmpty_iff.mp empty]
          rfl
        · rfl

theorem formed_cons_letter (c : α) (h : l.Formed blank) : (l.cons blank c).Formed blank := by
  obtain ⟨ps, tail⟩ := l
  cases letter : blank c with
  | true =>
      cases ps with
      | nil =>
          rw [Line.cons, if_pos letter]
          refine ⟨h.pieces, h.apart, fun d inside => ?_⟩
          rcases List.mem_cons.mp inside with rfl | inside
          · exact letter
          · exact h.tail d inside
      | cons p ps =>
          rw [Line.cons, if_pos letter]
          have first := h.pieces p List.mem_cons_self
          refine ⟨fun q inside => ?_, h.apart, h.tail⟩
          rcases List.mem_cons.mp inside with rfl | inside
          · refine ⟨fun d inside => ?_, first.word, first.ne_nil⟩
            rcases List.mem_cons.mp inside with rfl | inside
            · exact letter
            · exact first.gap d inside
          · exact h.pieces q (List.mem_cons_of_mem p inside)
  | false =>
      have single : Piece.Formed blank ⟨[], [c]⟩ :=
        ⟨List.forall_mem_nil _, List.forall_mem_singleton.mpr letter, List.cons_ne_nil c []⟩
      have other : ¬blank c = true := fun yes => Bool.noConfusion (letter.symm.trans yes)
      cases ps with
      | nil =>
          rw [Line.cons, if_neg other]
          refine ⟨fun q inside => ?_, h.apart, h.tail⟩
          rwa [List.mem_singleton.mp inside]
      | cons p ps =>
          have first := h.pieces p List.mem_cons_self
          rw [Line.cons, if_neg other]
          split
          · refine ⟨fun q inside => ?_, h.apart, h.tail⟩
            rcases List.mem_cons.mp inside with rfl | inside
            · refine ⟨List.forall_mem_nil _, fun d inside => ?_, List.cons_ne_nil _ _⟩
              rcases List.mem_cons.mp inside with rfl | inside
              · exact letter
              · exact first.word d inside
            · exact h.pieces q (List.mem_cons_of_mem p inside)
          · rename_i apart
            refine ⟨fun q inside => ?_, fun q inside => ?_, h.tail⟩
            · rcases List.mem_cons.mp inside with rfl | inside
              · exact single
              · exact h.pieces q inside
            · rcases List.mem_cons.mp inside with rfl | inside
              · exact fun empty => apart (List.isEmpty_iff.mpr empty)
              · exact h.apart q inside

@[simp] theorem text_split (x : List α) : (split blank x).text = x := by
  induction x with
  | nil => rfl
  | cons c x ih => exact (text_cons_letter c _).trans (congrArg (c :: ·) ih)

theorem split_formed (x : List α) : (split blank x).Formed blank := by
  induction x with
  | nil =>
      exact ⟨List.forall_mem_nil _, List.forall_mem_nil _, List.forall_mem_nil _⟩
  | cons c x ih => exact formed_cons_letter c ih

/-- A word in front of a gap. -/
theorem split_word {w x : List α} (word : ∀ c ∈ w, blank c = false) (some : w ≠ [])
    (rest : split blank x = ⟨ps, tail⟩) (apart : ∀ p ∈ ps.head?, p.gap ≠ []) :
    split blank (w ++ x) = ⟨⟨[], w⟩ :: ps, tail⟩ := by
  induction w with
  | nil => exact absurd rfl some
  | cons c w ih =>
      have letter : ¬blank c = true := Bool.eq_false_iff.mp (word c List.mem_cons_self)
      change Line.cons blank c (split blank (w ++ x)) = _
      cases w with
      | nil =>
          rw [List.nil_append, rest]
          cases ps with
          | nil => exact if_neg letter
          | cons p ps =>
              have gap := apart p rfl
              rw [Line.cons, if_neg letter, if_neg fun empty => gap (List.isEmpty_iff.mp empty)]
      | cons d w =>
          rw [ih (fun e inside => word e (List.mem_cons_of_mem c inside)) (List.cons_ne_nil d w),
            Line.cons, if_neg letter]
          rfl

theorem split_gap {g x : List α} (gap : ∀ c ∈ g, blank c = true) {w : List α}
    (rest : split blank x = ⟨⟨[], w⟩ :: ps, tail⟩) :
    split blank (g ++ x) = ⟨⟨g, w⟩ :: ps, tail⟩ := by
  induction g with
  | nil => exact rest
  | cons c g ih =>
      change Line.cons blank c (split blank (g ++ x)) = _
      rw [ih (fun e inside => gap e (List.mem_cons_of_mem c inside)), Line.cons,
        if_pos (gap c List.mem_cons_self)]

theorem split_blanks {g : List α} (gap : ∀ c ∈ g, blank c = true) : split blank g = ⟨[], g⟩ := by
  induction g with
  | nil => rfl
  | cons c g ih =>
      change Line.cons blank c (split blank g) = _
      rw [ih (fun e inside => gap e (List.mem_cons_of_mem c inside)), Line.cons,
        if_pos (gap c List.mem_cons_self)]

/-- The parts of a text are found again. -/
theorem split_text (h : l.Formed blank) : split blank l.text = l := by
  obtain ⟨ps, tail⟩ := l
  induction ps with
  | nil => exact split_blanks h.tail
  | cons p ps ih =>
      have first := h.pieces p List.mem_cons_self
      rw [text_cons]
      refine split_gap first.gap (split_word first.word first.ne_nil (ih h.rest) fun q head => ?_)
      cases ps with
      | nil => cases head
      | cons q' ps =>
          cases head
          exact h.apart q List.mem_cons_self

/-! ## A loop over the words -/

theorem takeWhile_gap (h : Line.Formed blank ⟨p :: ps, tail⟩) :
    (Line.text ⟨p :: ps, tail⟩).takeWhile blank = p.gap ∧
      (Line.text ⟨p :: ps, tail⟩).dropWhile blank = p.word ++ Line.text ⟨ps, tail⟩ := by
  have first := h.pieces p List.mem_cons_self
  rw [text_cons]
  cases word : p.word with
  | nil => exact absurd word first.ne_nil
  | cons c w =>
      have letter : ¬blank c = true :=
        Bool.eq_false_iff.mp (first.word c (word ▸ List.mem_cons_self))
      rw [List.takeWhile_append_of_pos first.gap, List.dropWhile_append_of_pos first.gap,
        List.cons_append, List.takeWhile_cons_of_neg letter, List.dropWhile_cons_of_neg letter,
        List.append_nil]
      exact ⟨rfl, rfl⟩

theorem takeWhile_word (h : Line.Formed blank ⟨p :: ps, tail⟩) :
    (p.word ++ Line.text ⟨ps, tail⟩).takeWhile (fun c => !blank c) = p.word ∧
      (p.word ++ Line.text ⟨ps, tail⟩).dropWhile (fun c => !blank c) =
        Line.text ⟨ps, tail⟩ := by
  have first := h.pieces p List.mem_cons_self
  have letters : ∀ c ∈ p.word, (!blank c) = true := fun c inside => by
    rw [first.word c inside, Bool.not_false]
  rw [List.takeWhile_append_of_pos letters, List.dropWhile_append_of_pos letters]
  cases text : Line.text ⟨ps, tail⟩ with
  | nil => exact ⟨List.append_nil _, rfl⟩
  | cons c x =>
      have stops : ¬(!blank c) = true := by
        rw [Bool.not_eq_true', Bool.not_eq_false]
        cases ps with
        | nil =>
            have tail : tail = c :: x := text
            exact h.tail c (tail ▸ List.mem_cons_self)
        | cons q ps =>
            have gap := h.apart q List.mem_cons_self
            have blanks := (h.pieces q (List.mem_cons_of_mem p List.mem_cons_self)).gap
            rw [text_cons] at text
            cases start : q.gap with
            | nil => exact absurd start gap
            | cons d g =>
                rw [start] at text
                cases text
                exact blanks c (start ▸ List.mem_cons_self)
      have here := @List.takeWhile_cons_of_neg _ (fun c => !blank c) c x stops
      have there := @List.dropWhile_cons_of_neg _ (fun c => !blank c) c x stops
      rw [here, there, List.append_nil]
      exact ⟨rfl, rfl⟩

end Splitting

/-! ## Repeated words -/

section Repeated

variable [DecidableEq α]

/-- The pieces whose words are not among those before. -/
def firsts : List (List α) → List (Piece α) → List (Piece α)
  | _, [] => []
  | before, p :: ps =>
      if p.word ∈ before then firsts (before ++ [p.word]) ps
      else p :: firsts (before ++ [p.word]) ps

/-- The pieces whose words do not end any of those that stay. -/
def unended : List (List α) → List (Piece α) → List (Piece α)
  | _, [] => []
  | kept, p :: ps =>
      if ∃ v ∈ kept, p.word <:+ v then unended kept ps
      else p :: unended (kept ++ [p.word]) ps

variable {before kept : List (List α)} {ps : List (Piece α)}

theorem unended_sublist (kept : List (List α)) (ps : List (Piece α)) : (unended kept ps).Sublist ps := by
  induction ps generalizing kept with
  | nil => exact List.Sublist.slnil
  | cons p ps ih =>
      rw [unended]
      split
      · exact (ih kept).cons p
      · exact (ih _).cons_cons p

/-- What is left ends nothing that is left, so it stays. -/
theorem unended_unended (kept : List (List α)) (ps : List (Piece α)) :
    unended kept (unended kept ps) = unended kept ps := by
  induction ps generalizing kept with
  | nil => rfl
  | cons p ps ih =>
      by_cases ended : ∃ v ∈ kept, p.word <:+ v
      · rw [unended, if_pos ended, ih]
      · rw [unended, if_neg ended, unended, if_neg ended, ih]

/-- Where a word that ends an earlier one has occurred before, those that stay are the first
ones. -/
theorem unended_eq_firsts (same : ∀ v, v ∈ kept ↔ v ∈ before)
    (distinct : ∀ front w back, ps.map Piece.word = front ++ w :: back →
      ∀ v ∈ before ++ front, w <:+ v → w ∈ before ++ front) :
    unended kept ps = firsts before ps := by
  induction ps generalizing kept before with
  | nil => rfl
  | cons p ps ih =>
      have later : ∀ front w back, ps.map Piece.word = front ++ w :: back →
          ∀ v ∈ before ++ [p.word] ++ front, w <:+ v → w ∈ before ++ [p.word] ++ front := by
        intro front w back split
        have occurred := distinct (p.word :: front) w back (by rw [List.map_cons, split]; rfl)
        rwa [← List.append_cons]
      have ended_iff : (∃ v ∈ kept, p.word <:+ v) ↔ p.word ∈ before := by
        constructor
        · rintro ⟨v, member, ended⟩
          have occurred := distinct [] p.word _ rfl v (by simpa using (same v).mp member) ended
          rwa [List.append_nil] at occurred
        · exact fun member => ⟨p.word, (same p.word).mpr member, List.suffix_refl _⟩
      rw [unended, firsts]
      by_cases member : p.word ∈ before
      · rw [if_pos member, if_pos (ended_iff.mpr member)]
        refine ih (fun v => (same v).trans ?_) later
        rw [List.mem_append, List.mem_singleton]
        exact ⟨Or.inl, fun h => h.elim id fun equal => equal ▸ member⟩
      · rw [if_neg member, if_neg fun h => member (ended_iff.mp h)]
        refine congrArg (p :: ·) (ih (fun v => ?_) later)
        rw [List.mem_append, List.mem_append, same v]

/-- Each word is there once more at its first place. -/
theorem mem_firsts {w : List α} (inside : w ∈ ps.map Piece.word) :
    w ∈ before ∨ w ∈ (firsts before ps).map Piece.word := by
  induction ps generalizing before with
  | nil => cases inside
  | cons p ps ih =>
      have later : w ∈ ps.map Piece.word →
          (w ∈ before ∨ w = p.word) ∨ w ∈ (firsts (before ++ [p.word]) ps).map Piece.word := by
        intro inside
        refine (@ih (before ++ [p.word]) inside).imp_left fun member => ?_
        exact (List.mem_append.mp member).imp_right List.mem_singleton.mp
      rw [List.map_cons, List.mem_cons] at inside
      rw [firsts]
      split
      · rename_i repeated
        rcases inside with rfl | inside
        · exact Or.inl repeated
        · rcases later inside with (member | rfl) | member
          · exact Or.inl member
          · exact Or.inl repeated
          · exact Or.inr member
      · rw [List.map_cons, List.mem_cons]
        rcases inside with rfl | inside
        · exact Or.inr (Or.inl rfl)
        · rcases later inside with (member | rfl) | member
          · exact Or.inl member
          · exact Or.inr (Or.inl rfl)
          · exact Or.inr (Or.inr member)

variable {blank : α → Bool} {tail : List α}

omit [DecidableEq α] in
theorem text_subset {qs : List (Piece α)} (sub : qs.Sublist ps) (tail : List α) :
    Line.text ⟨qs, tail⟩ ⊆ Line.text ⟨ps, tail⟩ := by
  intro c inside
  rw [Line.text, List.mem_append, List.mem_flatMap] at inside ⊢
  exact inside.imp_left fun ⟨p, member, letter⟩ => ⟨p, sub.subset member, letter⟩

omit [DecidableEq α] in
/-- Pieces behind the first one may be left out. -/
theorem Line.Formed.sublist {p : Piece α} {qs : List (Piece α)}
    (h : Line.Formed blank ⟨p :: ps, tail⟩) (sub : qs.Sublist ps) :
    Line.Formed blank ⟨p :: qs, tail⟩ where
  pieces q inside := h.pieces q <| by
    rcases List.mem_cons.mp inside with rfl | inside
    · exact List.mem_cons_self
    · exact List.mem_cons_of_mem p (sub.subset inside)
  apart q inside := h.apart q (sub.subset inside)
  tail := h.tail

theorem unended_formed (h : Line.Formed blank ⟨ps, tail⟩) :
    Line.Formed blank ⟨unended [] ps, tail⟩ := by
  cases ps with
  | nil => exact h
  | cons p ps =>
      rw [unended, if_neg (by rintro ⟨v, member, -⟩; cases member)]
      exact h.sublist (unended_sublist _ ps)

end Repeated

/-! ## Words one by one -/

section Mapping

variable {blank : α → Bool}

/-- Every word is replaced. -/
def Line.map (f : List α → List α) (l : Line α) : Line α :=
  ⟨l.pieces.map fun p => ⟨p.gap, f p.word⟩, l.tail⟩

theorem Line.Formed.map {f : List α → List α} {l : Line α} (h : l.Formed blank)
    (words : ∀ w ∈ l.words, f w ≠ [] ∧ ∀ c ∈ f w, blank c = false) : (l.map f).Formed blank where
  pieces q inside := by
    obtain ⟨p, member, rfl⟩ := List.mem_map.mp inside
    obtain ⟨some, letters⟩ := words p.word (List.mem_map_of_mem member)
    exact ⟨(h.pieces p member).gap, letters, some⟩
  apart q inside := by
    rw [Line.map, ← List.map_tail] at inside
    obtain ⟨p, member, rfl⟩ := List.mem_map.mp inside
    exact h.apart p member
  tail := h.tail

theorem Line.map_map_of {f g : List α → List α} {l : Line α} (back : ∀ w ∈ l.words, g (f w) = w) :
    (l.map f).map g = l := by
  obtain ⟨ps, tail⟩ := l
  rw [Line.map, Line.map, Line.mk.injEq]
  refine ⟨?_, rfl⟩
  rw [List.map_map]
  refine (List.map_congr_left fun p member => ?_).trans (List.map_id ps)
  simp only [Function.comp_apply, back p.word (List.mem_map_of_mem member), id_eq]

end Mapping

end MachFormal.Library.Words
