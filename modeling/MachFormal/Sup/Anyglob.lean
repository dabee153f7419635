import MachFormal.Sup.Scmio

/-!
# Patterns of omitted files

`anyglob` says whether a file name matches a pattern of an `omitany` line.  It first passes
over what the pattern and the name have in common, whatever these characters mean in a
pattern, and then looks at the first special character.

Both strings end with a NUL.  Where the code reads behind it, there is no result.
-/

namespace MachFormal.Sup.Anyglob

def star : Byte := 42
def question : Byte := 63
def opening : Byte := 91
def closing : Byte := 93
def hyphen : Byte := 45

/-- The value of a `char`; on some machines it has a sign. -/
def charValue (signed : Bool) (c : Byte) : Int := if signed then c.toInt else c.toNat

/-! ## The code -/

/-- The loop over the common beginning. -/
def literal : List Byte → List Byte → List Byte × List Byte
  | p :: ps, m :: ms => if p = m then literal ps ms else (p :: ps, m :: ms)
  | ps, ms => (ps, ms)

/-- What stands before and after the first closing bracket. -/
def closed (more : List Byte) : Option (List Byte × List Byte) :=
  if more.contains closing then
    some (more.takeWhile (· ≠ closing), (more.dropWhile (· ≠ closing)).tail)
  else none

/-- The loop over the members of a bracket; `start` stands for `p == pb`, and `previous` is
the character before `p`. -/
def listed (signed : Bool) (c : Byte) : Bool → Byte → List Byte → Bool
  | _, _, [] => false
  | start, previous, p :: ps =>
      if p = hyphen then
        if start ∧ c = hyphen then true
        else if start then listed signed c false p ps
        else
          match ps with
          | [] => false
          | next :: _ =>
              if charValue signed previous < charValue signed c ∧
                  charValue signed c ≤ charValue signed next then true
              else listed signed c false p ps
      else if c = p then true
      else listed signed c false p ps

/-- The loop of a star: the rest of the pattern is tried behind every character. -/
def behind (rest : List Byte → Option Bool) : List Byte → Option Bool
  | [] => some false
  | _ :: ms =>
      match rest ms with
      | some false => behind rest ms
      | other => other

theorem literal_length (ps ms : List Byte) : (literal ps ms).1.length ≤ ps.length := by
  induction ps generalizing ms with
  | nil => cases ms <;> exact Nat.le_refl _
  | cons p ps ih =>
      cases ms with
      | nil => exact Nat.le_refl _
      | cons m ms =>
          rw [literal]
          split
          · exact Nat.le_succ_of_le (ih ms)
          · exact Nat.le_refl _

theorem closed_length {more body rest : List Byte} (split : closed more = some (body, rest)) :
    body.length + rest.length < more.length := by
  rw [closed] at split
  split at split
  next inside =>
    obtain ⟨rfl, rfl⟩ := Prod.mk.inj (Option.some.inj split)
    have whole := congrArg List.length (List.takeWhile_append_dropWhile
      (p := fun b : Byte => decide (b ≠ closing)) (l := more))
    have remains : more.dropWhile (· ≠ closing) ≠ [] := fun empty =>
      of_decide_eq_true (List.dropWhile_eq_nil_iff.mp empty closing (List.contains_iff_mem.mp inside)) rfl
    have positive := List.length_pos_iff.mpr remains
    rw [List.length_append] at whole
    rw [List.length_tail]
    omega
  next => cases split

/-- The `switch`: what `anyglob` does where the common beginning ends.  It calls itself for
the rest of the pattern. -/
def switch (signed : Bool) (call : List Byte → List Byte → Option Bool) :
    List Byte → List Byte → Option Bool
  | [], m => some m.isEmpty
  | p :: ps, m =>
      if p = star then
        if ps = [] then some true else behind (call ps) m
      else if p = question then
        match m with
        | [] => none
        | _ :: m => call ps m
      else if p = opening then
        match ps with
        | [] => none
        | first :: more =>
            match closed more with
            | none => some false
            | some (body, rest) =>
                if listed signed (m.headD 0) false first body then
                  match m with
                  | [] => none
                  | _ :: m => call rest m
                else some false
      else some false

/-- `anyglob`, with a bound on the depth of the recursion. -/
def globs (signed : Bool) : Nat → List Byte → List Byte → Option Bool
  | 0, _, _ => none
  | depth + 1, pattern, matched =>
      switch signed (globs signed depth) (literal pattern matched).1 (literal pattern matched).2

/-- Every call is for a shorter pattern. -/
def anyglob (signed : Bool) (pattern matched : List Byte) : Option Bool :=
  globs signed (pattern.length + 1) pattern matched

theorem switch_congr (signed : Bool) {call call' : List Byte → List Byte → Option Bool}
    (p m : List Byte) (same : ∀ ps, ps.length < p.length → call ps = call' ps) :
    switch signed call p m = switch signed call' p m := by
  cases p with
  | nil => rfl
  | cons p ps =>
      have next := same ps (Nat.lt_succ_self _)
      simp only [switch]
      congr 1
      · rw [next]
      · congr 1
        · rw [next]
        · congr 1
          cases ps with
          | nil => rfl
          | cons first more =>
              dsimp only
              cases split : closed more with
              | none => rfl
              | some parts =>
                  have within := closed_length split
                  have later := same parts.2 (by simp only [List.length_cons]; omega)
                  dsimp only
                  rw [later]

theorem globs_eq (signed : Bool) {depth depth' : Nat} {pattern : List Byte}
    (enough : pattern.length < depth) (enough' : pattern.length < depth') :
    globs signed depth pattern = globs signed depth' pattern := by
  induction depth generalizing depth' pattern with
  | zero => exact absurd enough (Nat.not_lt_zero _)
  | succ depth ih =>
      obtain ⟨depth', rfl⟩ := Nat.exists_eq_succ_of_ne_zero (Nat.ne_zero_of_lt enough')
      funext matched
      have shorter := literal_length pattern matched
      exact switch_congr signed _ _ fun ps less => ih (by omega) (by omega)

theorem anyglob_eq (signed : Bool) (pattern matched : List Byte) :
    anyglob signed pattern matched =
      switch signed (anyglob signed) (literal pattern matched).1 (literal pattern matched).2 := by
  have shorter := literal_length pattern matched
  rw [anyglob, globs]
  exact switch_congr signed _ _ fun ps less => globs_eq signed (by omega) (by omega)

/-! ## The language of a pattern -/

/-- The characters that the members of a bracket list: single ones and ranges. -/
def member (signed : Bool) (c : Byte) : List Byte → Bool
  | [] => false
  | [a] => c = a
  | [a, b] => c = a || c = b
  | a :: b :: d :: members =>
      if b = hyphen then
        (charValue signed a ≤ charValue signed c && charValue signed c ≤ charValue signed d) ||
          member signed c members
      else c = a || member signed c (b :: d :: members)

/-- Before the pattern `ps`, the character stands for itself.  A bracket that is not closed
is no bracket. -/
def Ordinary (c : Byte) (ps : List Byte) : Prop :=
  c ≠ star ∧ c ≠ question ∧ (c = opening → closed ps.tail = none)

inductive Matches (signed : Bool) : List Byte → List Byte → Prop where
  | nil : Matches signed [] []
  | star {ps ms : List Byte} (any : List Byte) (later : Matches signed ps ms) :
      Matches signed (star :: ps) (any ++ ms)
  | question {ps ms : List Byte} (c : Byte) (later : Matches signed ps ms) :
      Matches signed (question :: ps) (c :: ms)
  | bracket {first c : Byte} {more body rest ms : List Byte}
      (split : closed more = some (body, rest)) (inside : member signed c (first :: body) = true)
      (later : Matches signed rest ms) : Matches signed (opening :: first :: more) (c :: ms)
  | self {c : Byte} {ps ms : List Byte} (ordinary : Ordinary c ps)
      (later : Matches signed ps ms) : Matches signed (c :: ps) (c :: ms)

/-- For this name, `anyglob` stays inside the two strings and answers for the language. -/
def Correct (signed : Bool) (pattern name : CString) : Prop :=
  ∃ result, anyglob signed pattern.data name.data = some result ∧
    (result = true ↔ Matches signed pattern.data name.data)

/-- The run comes to no place where it goes wrong.  Where `right` is `false`, it is only asked
that it stays inside of the two strings.

Behind a star that is not the last character there must be a match that leaves something to
the star, before which the run stays inside of the strings; or there is no match at all, not
even for an empty star.  A star and a bracket that the name has, too, are passed over as if
they were ordinary characters, and a bracket must not depend on what the code makes of its
members. -/
inductive Clear (signed : Bool) : Bool → List Byte → List Byte → Prop where
  | ends (right : Bool) (ms : List Byte) : Clear signed right [] ms
  | passed {right : Bool} {c : Byte} {ps ms : List Byte} (ordinary : Ordinary c ps)
      (later : Clear signed right ps ms) : Clear signed right (c :: ps) (c :: ms)
  | differs {right : Bool} {c : Byte} {ps ms : List Byte} (ordinary : Ordinary c ps)
      (follows : c = opening → ps ≠ []) (other : ms.head? ≠ some c) :
      Clear signed right (c :: ps) ms
  | question {right : Bool} {ps ms : List Byte} (c : Byte) (later : Clear signed right ps ms) :
      Clear signed right (question :: ps) (c :: ms)
  | last {right : Bool} {ms : List Byte} (other : ms.head? ≠ some star) :
      Clear signed right [star] ms
  | alike {right : Bool} {ps ms : List Byte} (later : Clear signed right ps ms)
      (same : right = true → Matches signed (star :: ps) (star :: ms) → Matches signed ps ms) :
      Clear signed right (star :: ps) (star :: ms)
  | found {right : Bool} {ps ms rest : List Byte} (goesOn : ps ≠ [])
      (other : ms.head? ≠ some star) (suffix : rest <:+ ms) (proper : rest ≠ ms)
      (inside : Matches signed ps rest) (later : Clear signed true ps rest)
      (earlier : ∀ t, t <:+ ms → t ≠ ms → rest.length < t.length → Clear signed false ps t) :
      Clear signed right (star :: ps) ms
  | nowhere {right : Bool} {ps ms : List Byte} (goesOn : ps ≠ [])
      (other : ms.head? ≠ some star) (none : right = true → ∀ t, t <:+ ms → ¬Matches signed ps t)
      (later : ∀ t, t <:+ ms → t ≠ ms → Clear signed right ps t) :
      Clear signed right (star :: ps) ms
  | bracket {right : Bool} {first c : Byte} {more body rest ms : List Byte}
      (split : closed more = some (body, rest)) (other : c ≠ opening)
      (same : right = true → listed signed c false first body = member signed c (first :: body))
      (later : listed signed c false first body = true → Clear signed right rest ms) :
      Clear signed right (opening :: first :: more) (c :: ms)
  | bracketEnd {right : Bool} {first : Byte} {more body rest : List Byte}
      (split : closed more = some (body, rest)) (none : listed signed 0 false first body = false) :
      Clear signed right (opening :: first :: more) []

/-- No bracket of the pattern is closed. -/
def Unclosed : List Byte → Prop
  | [] => True
  | c :: ps => (c = opening → closed ps.tail = none) ∧ Unclosed ps

/-! ## Runs of the code -/

section Runs

variable {signed : Bool} {ps ms : List Byte}

theorem anyglob_nil (ms : List Byte) : anyglob signed [] ms = some ms.isEmpty := by
  rw [anyglob_eq]
  cases ms <;> rfl

/-- Where pattern and name have the same character, it does not matter which. -/
theorem anyglob_cons (c : Byte) (ps ms : List Byte) :
    anyglob signed (c :: ps) (c :: ms) = anyglob signed ps ms := by
  rw [anyglob_eq, literal, if_pos rfl, ← anyglob_eq]

theorem anyglob_other {p : Byte} (other : ms.head? ≠ some p) :
    anyglob signed (p :: ps) ms = switch signed (anyglob signed) (p :: ps) ms := by
  rw [anyglob_eq]
  cases ms with
  | nil => rfl
  | cons m ms => rw [literal, if_neg fun same => other (congrArg some same.symm)]

theorem anyglob_last (other : ms.head? ≠ some star) : anyglob signed [star] ms = some true :=
  anyglob_other other

theorem anyglob_star (goesOn : ps ≠ []) (other : ms.head? ≠ some star) :
    anyglob signed (star :: ps) ms = behind (anyglob signed ps) ms := by
  rw [anyglob_other other]
  simp only [switch]
  rw [if_pos trivial, if_neg goesOn]

theorem anyglob_question (c : Byte) :
    anyglob signed (question :: ps) (c :: ms) = anyglob signed ps ms := by
  by_cases same : c = question
  · rw [same, anyglob_cons]
  · exact anyglob_other fun equal => same (Option.some.inj equal)

/-- At an ordinary character that the name does not have, the code gives up. -/
theorem anyglob_ordinary {c : Byte} (ordinary : Ordinary c ps) (follows : c = opening → ps ≠ [])
    (other : ms.head? ≠ some c) : anyglob signed (c :: ps) ms = some false := by
  obtain ⟨noStar, noQuestion, unclosed⟩ := ordinary
  rw [anyglob_other other]
  simp only [switch]
  rw [if_neg noStar, if_neg noQuestion]
  split
  next bracket =>
    cases ps with
    | nil => exact absurd rfl (follows bracket)
    | cons first more =>
        have none := unclosed bracket
        rw [List.tail_cons] at none
        dsimp only
        rw [none]
  next => rfl

theorem anyglob_bracket {first c : Byte} {more body rest : List Byte}
    (split : closed more = some (body, rest)) (other : c ≠ opening) :
    anyglob signed (opening :: first :: more) (c :: ms) =
      if listed signed c false first body then anyglob signed rest ms else some false := by
  have differs : (c :: ms).head? ≠ some opening := fun equal => other (Option.some.inj equal)
  rw [anyglob_other differs]
  simp only [switch, split]
  rfl

/-- The rest of the pattern is found behind a character, if nothing goes wrong before. -/
theorem behind_found {call : List Byte → Option Bool} {rest : List Byte} (suffix : rest <:+ ms)
    (proper : rest ≠ ms) (yes : call rest = some true)
    (earlier : ∀ t, t <:+ ms → t ≠ ms → rest.length < t.length → (call t).isSome) :
    behind call ms = some true := by
  induction ms with
  | nil => exact absurd (List.suffix_nil.mp suffix) proper
  | cons m ms ih =>
      have inside : rest <:+ ms := (List.suffix_cons_iff.mp suffix).resolve_left proper
      rw [behind]
      by_cases here : rest = ms
      · rw [← here, yes]
      · have further := ih inside here fun t part other => earlier t (part.trans (List.suffix_cons m ms))
          fun same => absurd (same ▸ part).length_le (Nat.not_succ_le_self _)
        have shorter : rest.length < ms.length :=
          lt_of_le_of_ne inside.length_le fun same => here (inside.eq_of_length same)
        obtain ⟨answer, called⟩ := Option.isSome_iff_exists.mp
          (earlier ms (List.suffix_cons m ms) (List.ne_cons_self) shorter)
        rw [called]
        cases answer with
        | true => rfl
        | false => exact further

theorem behind_nowhere {call : List Byte → Option Bool} :
    behind call ms = some false ↔ ∀ t, t <:+ ms → t ≠ ms → call t = some false := by
  induction ms with
  | nil => exact ⟨fun _ t part other => absurd (List.suffix_nil.mp part) other, fun _ => rfl⟩
  | cons m ms ih =>
      rw [behind]
      constructor
      · intro none t part other
        have inside : t <:+ ms := (List.suffix_cons_iff.mp part).resolve_left other
        cases called : call ms with
        | none => rw [called] at none; cases none
        | some answer =>
            rw [called] at none
            cases answer with
            | true => cases none
            | false =>
                by_cases here : t = ms
                · rw [here, called]
                · exact ih.mp none t inside here
      · intro all
        rw [all ms (List.suffix_cons m ms) List.ne_cons_self]
        refine ih.mpr fun t part other => all t (part.trans (List.suffix_cons m ms)) fun same => ?_
        exact absurd (same ▸ part).length_le (Nat.not_succ_le_self _)

theorem behind_isSome {call : List Byte → Option Bool}
    (all : ∀ t, t <:+ ms → t ≠ ms → (call t).isSome) : (behind call ms).isSome := by
  induction ms with
  | nil => rfl
  | cons m ms ih =>
      have further := ih fun t part other => all t (part.trans (List.suffix_cons m ms)) fun same =>
        absurd (same ▸ part).length_le (Nat.not_succ_le_self _)
      obtain ⟨answer, called⟩ := Option.isSome_iff_exists.mp
        (all ms (List.suffix_cons m ms) List.ne_cons_self)
      rw [behind, called]
      cases answer with
      | true => rfl
      | false => exact further

theorem exists_of_behind {call : List Byte → Option Bool} (yes : behind call ms = some true) :
    ∃ rest, rest <:+ ms ∧ rest ≠ ms ∧ call rest = some true ∧
      ∀ t, t <:+ ms → t ≠ ms → rest.length < t.length → call t = some false := by
  induction ms with
  | nil => cases yes
  | cons m ms ih =>
      rw [behind] at yes
      cases called : call ms with
      | none => rw [called] at yes; cases yes
      | some answer =>
          rw [called] at yes
          cases answer with
          | true =>
              refine ⟨ms, List.suffix_cons m ms, List.ne_cons_self, called, fun t part other longer => ?_⟩
              have inside : t <:+ ms := (List.suffix_cons_iff.mp part).resolve_left other
              exact absurd inside.length_le (Nat.not_le_of_lt longer)
          | false =>
              obtain ⟨rest, suffix, proper, found, earlier⟩ := ih yes
              refine ⟨rest, suffix.trans (List.suffix_cons m ms), fun same => ?_, found,
                fun t part other longer => ?_⟩
              · exact absurd (same ▸ suffix).length_le (Nat.not_succ_le_self _)
              · have inside : t <:+ ms := (List.suffix_cons_iff.mp part).resolve_left other
                by_cases here : t = ms
                · rw [here, called]
                · exact earlier t inside here longer

end Runs

/-! ## Matches -/

section Language

variable {signed : Bool} {ps ms : List Byte}

theorem matches_nil : Matches signed [] ms ↔ ms = [] :=
  ⟨fun found => by cases found; rfl, by rintro rfl; exact .nil⟩

theorem matches_star : Matches signed (star :: ps) ms ↔ ∃ t, t <:+ ms ∧ Matches signed ps t := by
  constructor
  · intro found
    cases found with
    | star any later => exact ⟨_, List.suffix_append any _, later⟩
    | self ordinary => exact absurd rfl ordinary.1
  · rintro ⟨t, ⟨any, rfl⟩, later⟩
    exact .star any later

theorem matches_question :
    Matches signed (question :: ps) ms ↔ ∃ c t, ms = c :: t ∧ Matches signed ps t := by
  constructor
  · intro found
    cases found with
    | question c later => exact ⟨c, _, rfl, later⟩
    | self ordinary => exact absurd rfl ordinary.2.1
  · rintro ⟨c, t, rfl, later⟩
    exact .question c later

theorem matches_ordinary {c : Byte} (ordinary : Ordinary c ps) :
    Matches signed (c :: ps) ms ↔ ∃ t, ms = c :: t ∧ Matches signed ps t := by
  constructor
  · intro found
    cases found with
    | star => exact absurd rfl ordinary.1
    | question => exact absurd rfl ordinary.2.1
    | bracket split =>
        have none := ordinary.2.2 rfl
        rw [List.tail_cons, split] at none
        cases none
    | self _ later => exact ⟨_, rfl, later⟩
  · rintro ⟨t, rfl, later⟩
    exact .self ordinary later

theorem matches_bracket {first : Byte} {more body rest : List Byte}
    (split : closed more = some (body, rest)) :
    Matches signed (opening :: first :: more) ms ↔
      ∃ c t, ms = c :: t ∧ member signed c (first :: body) = true ∧ Matches signed rest t := by
  constructor
  · intro found
    cases found with
    | bracket split' inside later =>
        obtain ⟨rfl, rfl⟩ := Prod.mk.inj (Option.some.inj (split.symm.trans split'))
        exact ⟨_, _, rfl, inside, later⟩
    | self ordinary =>
        have none := ordinary.2.2 rfl
        rw [List.tail_cons, split] at none
        cases none
  · rintro ⟨c, t, rfl, inside, later⟩
    exact .bracket split inside later

end Language

/-! ## The pairs for which the code is right -/

section Pairs

variable {signed : Bool} {ps ms : List Byte}

/-- `anyglob` answers, and if it is asked for, it answers for the language. -/
def Answers (signed right : Bool) (ps ms : List Byte) : Prop :=
  ∃ result, anyglob signed ps ms = some result ∧
    (right = true → (result = true ↔ Matches signed ps ms))

theorem Answers.isSome {right : Bool} (answers : Answers signed right ps ms) :
    (anyglob signed ps ms).isSome := by
  obtain ⟨result, answered, -⟩ := answers
  rw [answered]
  rfl

theorem Answers.eq_false (answers : Answers signed true ps ms) (other : ¬Matches signed ps ms) :
    anyglob signed ps ms = some false := by
  obtain ⟨result, answered, same⟩ := answers
  rw [answered, Bool.eq_false_iff.mpr (other ∘ (same rfl).mp)]

theorem Answers.eq_true (answers : Answers signed true ps ms) (found : Matches signed ps ms) :
    anyglob signed ps ms = some true := by
  obtain ⟨result, answered, same⟩ := answers
  rw [answered, (same rfl).mpr found]

theorem answers_of_clear {right : Bool} (clear : Clear signed right ps ms) :
    Answers signed right ps ms := by
  induction clear with
  | ends right ms =>
      refine ⟨_, anyglob_nil ms, fun _ => ?_⟩
      rw [matches_nil, List.isEmpty_iff]
  | @passed right c ps ms ordinary later ih =>
      obtain ⟨result, answered, same⟩ := ih
      refine ⟨result, (anyglob_cons c ps ms).trans answered, fun asked => ?_⟩
      rw [same asked, matches_ordinary ordinary]
      exact ⟨fun found => ⟨ms, rfl, found⟩, fun ⟨_, equal, found⟩ => (List.cons.inj equal).2 ▸ found⟩
  | differs ordinary follows other =>
      refine ⟨false, anyglob_ordinary ordinary follows other, fun _ => ?_⟩
      refine iff_of_false Bool.false_ne_true fun found => ?_
      obtain ⟨t, rfl, -⟩ := (matches_ordinary ordinary).mp found
      exact other rfl
  | @question right ps ms c later ih =>
      obtain ⟨result, answered, same⟩ := ih
      refine ⟨result, (anyglob_question c).trans answered, fun asked => ?_⟩
      rw [same asked, matches_question]
      exact ⟨fun found => ⟨c, ms, rfl, found⟩,
        fun ⟨_, _, equal, found⟩ => (List.cons.inj equal).2 ▸ found⟩
  | @last right ms other =>
      exact ⟨true, anyglob_last other, fun _ =>
        iff_of_true rfl (matches_star.mpr ⟨[], List.nil_suffix, .nil⟩)⟩
  | @alike right ps ms later same ih =>
      obtain ⟨result, answered, equal⟩ := ih
      refine ⟨result, (anyglob_cons star ps ms).trans answered, fun asked => ?_⟩
      rw [equal asked]
      exact ⟨fun found => matches_star.mpr ⟨ms, List.suffix_cons star ms, found⟩, same asked⟩
  | found goesOn other suffix proper inside later earlier ih ihEarlier =>
      refine ⟨true, ?_, fun _ => iff_of_true rfl (matches_star.mpr ⟨_, suffix, inside⟩)⟩
      rw [anyglob_star goesOn other]
      exact behind_found suffix proper (ih.eq_true inside) fun t part differs longer =>
        (ihEarlier t part differs longer).isSome
  | @nowhere right ps ms goesOn other none later ih =>
      cases right with
      | true =>
          refine ⟨false, ?_, fun _ => iff_of_false Bool.false_ne_true fun found => ?_⟩
          · rw [anyglob_star goesOn other]
            exact behind_nowhere.mpr fun t part differs => (ih t part differs).eq_false (none rfl t part)
          · obtain ⟨t, part, inside⟩ := matches_star.mp found
            exact none rfl t part inside
      | false =>
          have answered : (anyglob signed (star :: ps) ms).isSome := by
            rw [anyglob_star goesOn other]
            exact behind_isSome fun t part differs => (ih t part differs).isSome
          obtain ⟨result, answered⟩ := Option.isSome_iff_exists.mp answered
          exact ⟨result, answered, fun asked => by cases asked⟩
  | @bracket right first c more body rest ms split other same later ih =>
      cases member : listed signed c false first body with
      | true =>
          obtain ⟨result, answered, equal⟩ := ih member
          refine ⟨result, ?_, fun asked => ?_⟩
          · rw [anyglob_bracket split other, if_pos member, answered]
          · rw [equal asked, matches_bracket split]
            exact ⟨fun found => ⟨c, ms, rfl, (same asked).symm.trans member, found⟩,
              fun ⟨_, _, cons, _, found⟩ => (List.cons.inj cons).2 ▸ found⟩
      | false =>
          refine ⟨false, ?_, fun asked => iff_of_false Bool.false_ne_true fun found => ?_⟩
          · rw [anyglob_bracket split other, if_neg (Bool.eq_false_iff.mp member)]
          · obtain ⟨c', t, cons, inside, -⟩ := (matches_bracket split).mp found
            rw [← (List.cons.inj cons).1, ← same asked, member] at inside
            cases inside
  | bracketEnd split none =>
      refine ⟨false, ?_, fun _ => iff_of_false Bool.false_ne_true fun found => ?_⟩
      · rw [anyglob_other (by rintro ⟨⟩)]
        simp only [switch, split, List.headD_nil, none]
        rfl
      · obtain ⟨_, _, cons, -⟩ := (matches_bracket split).mp found
        cases cons

theorem clear_of_answers_star (goesOn : ∀ {ms},
      (anyglob signed ps ms = some true → Matches signed ps ms) ∧
        ∀ right, Answers signed right ps ms → Clear signed right ps ms) :
    (anyglob signed (star :: ps) ms = some true → Matches signed (star :: ps) ms) ∧
      ∀ right, Answers signed right (star :: ps) ms → Clear signed right (star :: ps) ms := by
  by_cases same : ms.head? = some star
  · obtain ⟨t, rfl⟩ := List.head?_eq_some_iff.mp same
    have shorter (found : Matches signed ps t) : Matches signed (star :: ps) (star :: t) :=
      matches_star.mpr ⟨t, List.suffix_cons star t, found⟩
    refine ⟨fun yes => shorter (goesOn.1 ((anyglob_cons star ps t).symm.trans yes)),
      fun right ⟨result, answered, equal⟩ => ?_⟩
    rw [anyglob_cons] at answered
    have sound (yes : result = true) : Matches signed ps t := goesOn.1 (answered.trans (by rw [yes]))
    exact .alike (goesOn.2 right ⟨result, answered, fun asked =>
      ⟨sound, fun found => (equal asked).mpr (shorter found)⟩⟩)
      fun asked found => sound ((equal asked).mpr found)
  by_cases last : ps = []
  · subst last
    exact ⟨fun _ => matches_star.mpr ⟨[], List.nil_suffix, .nil⟩, fun right _ => .last same⟩
  refine ⟨fun yes => ?_, fun right ⟨result, answered, equal⟩ => ?_⟩
  · rw [anyglob_star last same] at yes
    obtain ⟨rest, suffix, -, found, -⟩ := exists_of_behind yes
    exact matches_star.mpr ⟨rest, suffix, goesOn.1 found⟩
  · rw [anyglob_star last same] at answered
    cases result with
    | true =>
        obtain ⟨rest, suffix, proper, found, earlier⟩ := exists_of_behind answered
        have inside := goesOn.1 found
        exact .found last same suffix proper inside
          (goesOn.2 true ⟨true, found, fun _ => iff_of_true rfl inside⟩)
          fun t part differs longer =>
            goesOn.2 false ⟨false, earlier t part differs longer, fun asked => by cases asked⟩
    | false =>
        have none (asked : right = true) (t : List Byte) (part : t <:+ ms) : ¬Matches signed ps t :=
          fun found => Bool.false_ne_true ((equal asked).mpr (matches_star.mpr ⟨t, part, found⟩))
        exact .nowhere last same none fun t part differs => goesOn.2 right
          ⟨false, behind_nowhere.mp answered t part differs,
            fun asked => iff_of_false Bool.false_ne_true (none asked t part)⟩

/-- Without brackets a name that the code accepts is in the language, and where the code is
right nothing has gone wrong. -/
theorem clear_of_answers (unclosed : Unclosed ps) :
    (anyglob signed ps ms = some true → Matches signed ps ms) ∧
      ∀ right, Answers signed right ps ms → Clear signed right ps ms := by
  induction ps generalizing ms with
  | nil =>
      refine ⟨fun yes => ?_, fun right _ => .ends right ms⟩
      rw [anyglob_nil] at yes
      exact matches_nil.mpr (List.isEmpty_iff.mp (Option.some.inj yes))
  | cons c ps ih =>
      obtain ⟨here, later⟩ := unclosed
      by_cases isStar : c = star
      · subst isStar
        exact clear_of_answers_star fun {ms} => @ih ms later
      by_cases isQuestion : c = question
      · subst isQuestion
        cases ms with
        | nil =>
            have beyond : anyglob signed (question :: ps) [] = none := anyglob_other (by rintro ⟨⟩)
            refine ⟨fun yes => ?_, fun right answers => ?_⟩
            · rw [beyond] at yes
              cases yes
            · have some_ := answers.isSome
              rw [beyond] at some_
              cases some_
        | cons m ms =>
            obtain ⟨sound, clear⟩ := @ih ms later
            refine ⟨fun yes => .question m (sound ((anyglob_question m).symm.trans yes)),
              fun right ⟨result, answered, same⟩ => .question m (clear right
                ⟨result, (anyglob_question m).symm.trans answered, fun asked => ?_⟩)⟩
            rw [same asked, matches_question]
            exact ⟨fun ⟨_, _, equal, found⟩ => (List.cons.inj equal).2 ▸ found,
              fun found => ⟨m, ms, rfl, found⟩⟩
      have ordinary : Ordinary c ps := ⟨isStar, isQuestion, here⟩
      by_cases same : ms.head? = some c
      · obtain ⟨t, rfl⟩ := List.head?_eq_some_iff.mp same
        obtain ⟨sound, clear⟩ := @ih t later
        refine ⟨fun yes => .self ordinary (sound ((anyglob_cons c ps t).symm.trans yes)),
          fun right ⟨result, answered, same⟩ => .passed ordinary (clear right
            ⟨result, (anyglob_cons c ps t).symm.trans answered, fun asked => ?_⟩)⟩
        rw [same asked, matches_ordinary ordinary]
        exact ⟨fun ⟨_, equal, found⟩ => (List.cons.inj equal).2 ▸ found, fun found => ⟨t, rfl, found⟩⟩
      · by_cases follows : c = opening → ps ≠ []
        · have no : anyglob signed (c :: ps) ms = some false := anyglob_ordinary ordinary follows same
          exact ⟨fun yes => absurd (no.symm.trans yes) (by decide),
            fun right _ => .differs ordinary follows same⟩
        · -- the pattern ends with an opening bracket, behind which the code looks
          push Not at follows
          obtain ⟨rfl, rfl⟩ := follows
          have beyond : anyglob signed [opening] ms = none := anyglob_other same
          refine ⟨fun yes => absurd (beyond.symm.trans yes) (by decide), fun right answers => ?_⟩
          have some_ := answers.isSome
          rw [beyond] at some_
          cases some_

end Pairs

/-- The pattern `a*.o`. -/
def objects : CString := ⟨[97, 42, 46, 111], by decide⟩

/-- The name `a.o`. -/
def object : CString := ⟨[97, 46, 111], by decide⟩

end MachFormal.Sup.Anyglob
