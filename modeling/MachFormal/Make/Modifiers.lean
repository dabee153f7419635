import Mathlib.Data.List.Basic
import MachFormal.Library.Compare
import MachFormal.Library.Words

/-!
# List modifiers of macros

`$(name:u)` leaves out words that were there before, and `$(name:a=b)` replaces the endings of
words.  Both walk over the value of the macro, and what they write goes elsewhere.  The words
that `uniqtrans` has seen are in a table of strings, which is searched from every character on,
so that a word also counts as seen when it ends one that was.

How the value of a macro is found, and the other modifiers, are parameters.
-/

namespace MachFormal.Make.Modifiers

open Library.Words

abbrev Byte := BitVec 8

def isspace (c : Byte) : Bool := c = 32 || (9 ≤ c.toNat && c.toNat ≤ 13)

def strcmp : List Byte → List Byte → Int := Library.Compare.strcmp 0 BitVec.toInt
def strncmp : List Byte → List Byte → Nat → Int := Library.Compare.strncmp 0 BitVec.toInt

/-- Some string of the table is the word, from a character of the table on. -/
def seen (psave : List Byte) : List Byte → Bool
  | [] => false
  | c :: q => strcmp (c :: q) psave = 0 || seen psave q

/-- The blanks in front, the word behind them, and what follows it. -/
def gap (p : List Byte) : List Byte := p.takeWhile isspace
def word (p : List Byte) : List Byte := (p.dropWhile isspace).takeWhile fun c => !isspace c
def behind (p : List Byte) : List Byte := (p.dropWhile isspace).dropWhile fun c => !isspace c

theorem length_behind {p : List Byte} (some : p.dropWhile isspace ≠ []) :
    (behind p).length < p.length := by
  have shorter := (List.dropWhile_sublist (l := p) isspace).length_le
  rw [behind]
  cases start : p.dropWhile isspace with
  | nil => exact absurd start some
  | cons c rest =>
      have visible : isspace c = false := by
        have := List.head_dropWhile_not isspace some
        simpa only [start, List.head_cons] using this
      have letter : (!isspace c) = true := by rw [visible, Bool.not_false]
      have step := @List.dropWhile_cons_of_pos _ (fun c => !isspace c) c rest letter
      have after := (List.dropWhile_sublist (l := rest) fun c => !isspace c).length_le
      rw [start, List.length_cons] at shorter
      rw [step]
      omega

/-- The loop of `uniqtrans`, with the table up to `r`. -/
def uniqLoop (temp p : List Byte) : List Byte :=
  if h : p.dropWhile isspace = [] then gap p
  else
    have := length_behind h
    if seen (word p) temp then uniqLoop temp (behind p)
    else gap p ++ (word p ++ uniqLoop (temp ++ (word p ++ [0])) (behind p))
termination_by p.length

def uniqtrans (value : List Byte) : List Byte := uniqLoop [] value

/-- The word gets another ending; `p` is where the word and what follows it start. -/
def suffix (source target p : List Byte) : List Byte :=
  if source.length ≤ (word p).length ∧
      strncmp ((p.dropWhile isspace).drop ((word p).length - source.length)) source
        source.length = 0 then
    (word p).take ((word p).length - source.length) ++ target
  else word p

/-- The loop of `sufftrans`; the first two arguments are `from` and `to`. -/
def sufftrans (source target p : List Byte) : List Byte :=
  if h : p.dropWhile isspace = [] then gap p
  else
    have := length_behind h
    gap p ++ (suffix source target p ++ sufftrans source target (behind p))
termination_by p.length

/-! ## The modifiers of a reference -/

/-- A string without its terminator. -/
structure Str where
  data : List Byte
  noNul : (0 : Byte) ∉ data

/-- `x_func`. -/
inductive Func where
  | condtrans
  | sufftrans
  | substrans

/-- `struct xlt`, with indexes into the modifier. -/
structure Xlt where
  sepp : Option Nat
  endp : Option Nat
  func : Option Func

/-- The rest of the macro processor. -/
structure Macros where
  straightrans : List Byte → Str
  subst : List Byte → Str
  cshtrans : List Byte → Byte → List Byte
  condtrans : List Byte → List Byte → Nat → Option (List Byte)
  substrans : List Byte → List Byte → Nat → Option Nat → Option (List Byte)

/-- Marked characters lose their mark. -/
def unquote (vn : List Byte) : List Byte := vn.map (· &&& 0x7f)

def colon : Byte := 58

def uniqMods : List (List Byte) := [[58, 117], [58, 85]]

def cshMods : List (List Byte) :=
  [[58, 101], [58, 104], [58, 114], [58, 116], [58, 69], [58, 72], [58, 82], [58, 84]]

/-- What a reference stands for, or nothing when its modifier is not recognized. -/
def trans (M : Macros) (vn vb : List Byte) (xp : Xlt) : Option (List Byte) :=
  let vn := unquote vn
  if vb = [] then some (M.straightrans vn).data
  else if uniqMods.contains vb then some (uniqtrans (M.straightrans vn).data)
  else if cshMods.contains vb then some (M.cshtrans vn (vb.getD 1 0))
  else
    match xp.sepp, xp.func with
    | some sep, some .sufftrans =>
        some (sufftrans (M.subst ((vb.take sep).drop 1)).data (M.subst (vb.drop (sep + 1))).data
          (M.straightrans vn).data)
    | some sep, some .condtrans => M.condtrans vn vb sep
    | some sep, some .substrans => M.substrans vn vb sep xp.endp
    | _, _ => none

/-! ## What the loops do to the words -/

section Loops

variable {ps : List (Piece Byte)} {tail : List Byte}

theorem loop_end (h : Line.Formed isspace ⟨[], tail⟩) :
    tail.dropWhile isspace = [] ∧ gap tail = tail :=
  ⟨List.dropWhile_eq_nil_iff.mpr h.tail, List.takeWhile_eq_self_iff.mpr h.tail⟩

theorem loop_step {p : Piece Byte} (h : Line.Formed isspace ⟨p :: ps, tail⟩) :
    (Line.text ⟨p :: ps, tail⟩).dropWhile isspace = p.word ++ Line.text ⟨ps, tail⟩ ∧
      (Line.text ⟨p :: ps, tail⟩).dropWhile isspace ≠ [] ∧
      gap (Line.text ⟨p :: ps, tail⟩) = p.gap ∧ word (Line.text ⟨p :: ps, tail⟩) = p.word ∧
      behind (Line.text ⟨p :: ps, tail⟩) = Line.text ⟨ps, tail⟩ := by
  obtain ⟨front, back⟩ := takeWhile_gap h
  obtain ⟨letters, rest⟩ := takeWhile_word h
  refine ⟨back, ?_, front, ?_, ?_⟩
  · rw [back]
    exact fun empty => (h.pieces p List.mem_cons_self).ne_nil (List.append_eq_nil_iff.mp empty).1
  · rw [word, back, letters]
  · rw [behind, back, rest]

theorem strcmp_terminated {v w t : List Byte} (text : (0 : Byte) ∉ v) (text' : (0 : Byte) ∉ w) :
    strcmp (v ++ 0 :: t) w = 0 ↔ v = w := by
  rw [strcmp, Library.Compare.strcmp_terminator]
  exact Library.Compare.strcmp_eq_zero (fun _ _ => BitVec.toInt_inj.mp) text text'

theorem seen_append {v w t : List Byte} (text : (0 : Byte) ∉ v) (text' : (0 : Byte) ∉ w)
    (some : w ≠ []) : seen w (v ++ 0 :: t) = true ↔ w <:+ v ∨ seen w t = true := by
  induction v with
  | nil =>
      have other : ¬strcmp ([] ++ 0 :: t) w = 0 := fun same =>
        some ((strcmp_terminated List.not_mem_nil text').mp same).symm
      rw [List.nil_append] at other ⊢
      rw [seen, Bool.or_eq_true, decide_eq_true_eq, List.suffix_nil]
      exact or_congr ⟨fun h => absurd h other, fun h => absurd h some⟩ Iff.rfl
  | cons c v ih =>
      have here := @strcmp_terminated (c :: v) w t text text'
      rw [List.cons_append] at here ⊢
      rw [seen, Bool.or_eq_true, decide_eq_true_eq, here,
        ih fun inside => text (List.mem_cons_of_mem c inside), List.suffix_cons_iff, or_assoc]
      exact or_congr eq_comm Iff.rfl

/-- The strings of the table. -/
def table (words : List (List Byte)) : List Byte := words.flatMap (· ++ [0])

theorem seen_table {words : List (List Byte)} {w : List Byte} (text : ∀ v ∈ words, (0 : Byte) ∉ v)
    (text' : (0 : Byte) ∉ w) (some : w ≠ []) :
    seen w (table words) = true ↔ ∃ v ∈ words, w <:+ v := by
  induction words with
  | nil => exact ⟨fun no => (by cases no), fun ⟨v, member, _⟩ => (by cases member)⟩
  | cons v words ih =>
      have step := @seen_append v w (table words) (text v List.mem_cons_self) text' some
      have split : table (v :: words) = v ++ 0 :: table words := by
        simp only [table, List.flatMap_cons, List.append_assoc, List.singleton_append]
      rw [split, step, ih fun v member => text v (List.mem_cons_of_mem _ member),
        List.exists_mem_cons_iff]

theorem table_append (words : List (List Byte)) (w : List Byte) :
    table (words ++ [w]) = table words ++ (w ++ [0]) := by
  rw [table, table, List.flatMap_append, List.flatMap_singleton]

theorem uniqLoop_next {p : List Byte} (temp : List Byte) (more : p.dropWhile isspace ≠ []) :
    uniqLoop temp p = if seen (word p) temp then uniqLoop temp (behind p)
      else gap p ++ (word p ++ uniqLoop (temp ++ (word p ++ [0])) (behind p)) := by
  rw [uniqLoop, dif_neg more]

theorem sufftrans_next {p : List Byte} (source target : List Byte)
    (more : p.dropWhile isspace ≠ []) : sufftrans source target p =
      gap p ++ (suffix source target p ++ sufftrans source target (behind p)) := by
  rw [sufftrans, dif_neg more]

/-- `uniqtrans` leaves out the words that end one of those it has kept. -/
theorem uniqLoop_eq {kept : List (List Byte)} (h : Line.Formed isspace ⟨ps, tail⟩)
    (text : ∀ v ∈ kept, (0 : Byte) ∉ v) (text' : ∀ p ∈ ps, (0 : Byte) ∉ p.word) :
    uniqLoop (table kept) (Line.text ⟨ps, tail⟩) = Line.text ⟨unended kept ps, tail⟩ := by
  induction ps generalizing kept with
  | nil =>
      obtain ⟨empty, blanks⟩ := loop_end h
      rw [text_nil, uniqLoop, dif_pos empty, blanks]
      rfl
  | cons p ps ih =>
      obtain ⟨-, more, front, letters, rest⟩ := loop_step h
      have visible := text' p List.mem_cons_self
      have step := seen_table text visible (h.pieces p List.mem_cons_self).ne_nil
      have later : ∀ q ∈ ps, (0 : Byte) ∉ q.word := fun q inside =>
        text' q (List.mem_cons_of_mem p inside)
      rw [uniqLoop_next _ more, front, letters, rest, unended]
      by_cases ended : ∃ v ∈ kept, p.word <:+ v
      · rw [if_pos (step.mpr ended), if_pos ended]
        exact ih h.rest text later
      · rw [if_neg fun yes => ended (step.mp yes), if_neg ended, ← table_append, ih h.rest ?_ later,
          text_cons]
        intro v member
        rcases List.mem_append.mp member with member | member
        · exact text v member
        · rwa [List.mem_singleton.mp member]

/-- The word with its ending replaced, if it has it. -/
def replaceEnding (a b w : List Byte) : List Byte :=
  if a <:+ w then w.take (w.length - a.length) ++ b else w

theorem strncmp_start {a s : List Byte} (text : (0 : Byte) ∉ a) :
    strncmp s a a.length = 0 ↔ a <+: s :=
  Library.Compare.strncmp_eq_zero (fun _ _ => BitVec.toInt_inj.mp) text

theorem suffix_eq {p : Piece Byte} {a b : List Byte} (h : Line.Formed isspace ⟨p :: ps, tail⟩)
    (text : (0 : Byte) ∉ a) :
    suffix a b (Line.text ⟨p :: ps, tail⟩) = replaceEnding a b p.word := by
  obtain ⟨back, -, -, letters, -⟩ := loop_step h
  have ending : (a.length ≤ p.word.length ∧
      strncmp ((p.word ++ Line.text ⟨ps, tail⟩).drop (p.word.length - a.length)) a a.length = 0) ↔
      a <:+ p.word := by
    constructor
    · rintro ⟨short, same⟩
      rw [strncmp_start text, List.drop_append_of_le_length (Nat.sub_le _ _)] at same
      have width : a.length = (p.word.drop (p.word.length - a.length)).length := by
        rw [List.length_drop]
        omega
      have equal := List.prefix_of_prefix_length_le same (List.prefix_append _ _) width.le
      rw [equal.eq_of_length width]
      exact List.drop_suffix _ _
    · rintro ⟨front, whole⟩
      have width : p.word.length - a.length = front.length := by
        rw [← whole, List.length_append, Nat.add_sub_cancel]
      refine ⟨?_, (strncmp_start text).mpr ?_⟩
      · rw [← whole, List.length_append]
        exact Nat.le_add_left _ _
      · rw [width, ← whole, List.append_assoc, List.drop_left]
        exact List.prefix_append _ _
  rw [suffix, replaceEnding, letters, back]
  exact if_congr ending rfl rfl

/-- `sufftrans` replaces the endings of the words and leaves the rest as it is. -/
theorem sufftrans_eq {a b : List Byte} {l : Library.Words.Line Byte} (h : l.Formed isspace)
    (text : (0 : Byte) ∉ a) : sufftrans a b l.text = (l.map (replaceEnding a b)).text := by
  obtain ⟨ps, tail⟩ := l
  induction ps with
  | nil =>
      obtain ⟨empty, blanks⟩ := loop_end h
      rw [text_nil, sufftrans, dif_pos empty, blanks]
      rfl
  | cons p ps ih =>
      obtain ⟨-, more, front, -, rest⟩ := loop_step h
      rw [sufftrans_next _ _ more, front, rest, suffix_eq h text, ih h.rest]
      simp only [Line.map, List.map_cons, text_cons]

end Loops

/-! ## What the modifiers do -/

section Values

variable {x a b : List Byte}

/-- The words of a value. -/
def wordsOf (x : List Byte) : List (List Byte) := (split isspace x).words

/-- Every word that is equal to an earlier one is left out with the blanks before it. -/
def firstsOf (x : List Byte) : List Byte :=
  Line.text ⟨firsts [] (split isspace x).pieces, (split isspace x).tail⟩

/-- Every word gets the other ending. -/
def withEndings (a b x : List Byte) : List Byte :=
  ((split isspace x).map (replaceEnding a b)).text

theorem uniqtrans_eq (text : (0 : Byte) ∉ x) : uniqtrans x =
    Line.text ⟨unended [] (split isspace x).pieces, (split isspace x).tail⟩ := by
  have loop := @uniqLoop_eq (split isspace x).pieces (split isspace x).tail []
    (split_formed x) (List.forall_mem_nil _) fun p member inside => text ?_
  · rw [uniqtrans, ← loop]
    exact congrArg (uniqLoop []) (text_split x).symm
  · have whole : (split isspace x).text = x := text_split x
    rw [← whole, Line.text, List.mem_append, List.mem_flatMap]
    exact Or.inl ⟨p, member, List.mem_append_right _ inside⟩

/-- A word that ends an earlier one has occurred before. -/
def Distinct (x : List Byte) : Prop :=
  ∀ front w back, wordsOf x = front ++ w :: back → ∀ v ∈ front, w <:+ v → w ∈ front

theorem uniqtrans_firsts (text : (0 : Byte) ∉ x) (distinct : Distinct x) :
    uniqtrans x = firstsOf x := by
  rw [uniqtrans_eq text, firstsOf,
    @unended_eq_firsts _ _ [] [] _ (fun _ => Iff.rfl) distinct]

theorem kept_formed (x : List Byte) :
    Line.Formed isspace ⟨unended [] (split isspace x).pieces, (split isspace x).tail⟩ :=
  unended_formed (split_formed x)

theorem wordsOf_text {l : Library.Words.Line Byte} (h : l.Formed isspace) : wordsOf l.text = l.words := by
  rw [wordsOf, split_text h]

theorem mem_wordsOf_uniqtrans (text : (0 : Byte) ∉ x) (distinct : Distinct x) {w : List Byte}
    (inside : w ∈ wordsOf x) : w ∈ wordsOf (uniqtrans x) := by
  have kept := (mem_firsts inside).resolve_left List.not_mem_nil
  rw [uniqtrans_eq text, wordsOf_text (kept_formed x), Line.words,
    @unended_eq_firsts _ _ [] [] _ (fun _ => Iff.rfl) distinct]
  exact kept

theorem uniqtrans_uniqtrans (text : (0 : Byte) ∉ x) : uniqtrans (uniqtrans x) = uniqtrans x := by
  have text' : (0 : Byte) ∉ uniqtrans x := by
    rw [uniqtrans_eq text]
    intro inside
    have within := text_subset (unended_sublist [] _) _ inside
    exact text (text_split x ▸ within)
  rw [uniqtrans_eq text', uniqtrans_eq text, split_text (kept_formed x), unended_unended]

theorem sufftrans_endings (text : (0 : Byte) ∉ a) : sufftrans a b x = withEndings a b x := by
  have loop := @sufftrans_eq a b (split isspace x) (split_formed x) text
  rwa [text_split] at loop

/-- A new ending without blanks, which no word had, can be replaced by the old one. -/
theorem replaceEnding_back {w : List Byte} (fresh : ¬b <:+ w) :
    replaceEnding b a (replaceEnding a b w) = w := by
  by_cases ended : a <:+ w
  · obtain ⟨front, rfl⟩ := ended
    have there : replaceEnding a b (front ++ a) = front ++ b := by
      rw [replaceEnding, if_pos (List.suffix_append front a), List.length_append,
        Nat.add_sub_cancel, List.take_left]
    rw [there, replaceEnding, if_pos (List.suffix_append front b), List.length_append,
      Nat.add_sub_cancel, List.take_left]
  · have same : replaceEnding a b w = w := if_neg ended
    rw [same, replaceEnding, if_neg fresh]

theorem withEndings_back (visible : ∀ c ∈ b, isspace c = false)
    (fresh : ∀ w ∈ wordsOf x, ¬b <:+ w) : withEndings b a (withEndings a b x) = x := by
  have formed : ((split isspace x).map (replaceEnding a b)).Formed isspace := by
    refine (split_formed x).map fun w inside => ?_
    obtain ⟨p, member, rfl⟩ := List.mem_map.mp inside
    have piece := (split_formed x).pieces p member
    rw [replaceEnding]
    split
    · refine ⟨fun empty => ?_, fun c letter => ?_⟩
      · exact fresh p.word inside ((List.append_eq_nil_iff.mp empty).2 ▸ List.nil_suffix)
      · rcases List.mem_append.mp letter with letter | letter
        · exact piece.word c (List.mem_of_mem_take letter)
        · exact visible c letter
    · exact ⟨piece.ne_nil, piece.word⟩
  rw [withEndings, withEndings, split_text formed,
    Line.map_map_of fun w inside => replaceEnding_back (fresh w inside), text_split]

/-- What the modifiers make of a value, for two endings. -/
structure Modified (x a b : List Byte) : Prop where
  firsts : Distinct x → uniqtrans x = firstsOf x
  occurs : Distinct x → ∀ w ∈ wordsOf x, w ∈ wordsOf (uniqtrans x)
  idempotent : uniqtrans (uniqtrans x) = uniqtrans x
  endings : sufftrans a b x = withEndings a b x
  back : (∀ c ∈ b, isspace c = false) → (∀ w ∈ wordsOf x, ¬b <:+ w) →
    sufftrans b a (sufftrans a b x) = x

theorem modified (text : (0 : Byte) ∉ x) (text' : (0 : Byte) ∉ a) (text'' : (0 : Byte) ∉ b) :
    Modified x a b where
  firsts := uniqtrans_firsts text
  occurs distinct _ := mem_wordsOf_uniqtrans text distinct
  idempotent := uniqtrans_uniqtrans text
  endings := sufftrans_endings text'
  back visible fresh := by
    rw [sufftrans_endings text', sufftrans_endings text'', withEndings_back visible fresh]

end Values

/-! ## References with modifiers -/

section References

variable (M : Macros) (vn a b : List Byte)

theorem trans_uniq {vb : List Byte} (mod : vb ∈ uniqMods) (xp : Xlt) :
    trans M vn vb xp = some (uniqtrans (M.straightrans (unquote vn)).data) := by
  have some : vb ≠ [] := by
    rintro rfl
    rcases List.mem_cons.mp mod with no | mod
    · cases no
    · cases List.mem_singleton.mp mod
  rw [trans, if_neg some, if_pos (List.contains_iff_mem.mpr mod)]

def equals : Byte := 61

/-- `:a=b`, as `findname` leaves it. -/
def endingMod : List Byte := colon :: (a ++ equals :: b)

theorem equals_mem (a b : List Byte) : equals ∈ endingMod a b :=
  List.mem_cons_of_mem colon (List.mem_append_right a List.mem_cons_self)

theorem trans_suff (endp : Option Nat) :
    trans M vn (endingMod a b) ⟨some (a.length + 1), endp, some .sufftrans⟩ =
      some (sufftrans (M.subst a).data (M.subst b).data (M.straightrans (unquote vn)).data) := by
  have uniq : ¬uniqMods.contains (endingMod a b) = true := fun yes =>
    absurd (equals_mem a b) ((by decide : ∀ vb ∈ uniqMods, equals ∉ vb) _
      (List.contains_iff_mem.mp yes))
  have csh : ¬cshMods.contains (endingMod a b) = true := fun yes =>
    absurd (equals_mem a b) ((by decide : ∀ vb ∈ cshMods, equals ∉ vb) _
      (List.contains_iff_mem.mp yes))
  have front : ((endingMod a b).take (a.length + 1)).drop 1 = a := by
    rw [endingMod, List.take_succ_cons, List.take_left, List.drop_one, List.tail_cons]
  have rest : (endingMod a b).drop (a.length + 1 + 1) = b := by
    rw [endingMod, List.drop_succ_cons, ← List.drop_drop, List.drop_left, List.drop_one,
      List.tail_cons]
  have some : endingMod a b ≠ [] := List.cons_ne_nil _ _
  rw [trans, if_neg some, if_neg uniq, if_neg csh]
  simp only [front, rest]

/-- `:u` and `:U` give the first words, as long as no word ends an earlier one, and `:a=b` gives
every word its other ending. -/
theorem list_modifiers (xp : Xlt) (endp : Option Nat) :
    (∀ vb ∈ uniqMods, trans M vn vb xp =
      some (uniqtrans (M.straightrans (unquote vn)).data)) ∧
    trans M vn (endingMod a b) ⟨some (a.length + 1), endp, some .sufftrans⟩ =
      some (sufftrans (M.subst a).data (M.subst b).data (M.straightrans (unquote vn)).data) ∧
    Modified (M.straightrans (unquote vn)).data (M.subst a).data (M.subst b).data :=
  ⟨fun _ mod => trans_uniq M vn mod xp, trans_suff M vn a b endp,
    modified (M.straightrans (unquote vn)).noNul (M.subst a).noNul (M.subst b).noNul⟩

end References

/-- In `ab b` the second word is left out, which is the only one of its kind; and `x` does not
come back when the new ending is `y z`. -/
theorem not_list_modifiers :
    ([98] ∈ wordsOf [97, 98, 32, 98] ∧ [98] ∉ wordsOf (uniqtrans [97, 98, 32, 98]) ∧
      uniqtrans [97, 98, 32, 98] ≠ firstsOf [97, 98, 32, 98]) ∧
    (∀ w ∈ wordsOf [120], ¬[121, 32, 122] <:+ w) ∧
      sufftrans [121, 32, 122] [] (sufftrans [] [121, 32, 122] [120]) ≠ [120] := by
  rw [uniqtrans_eq (by decide), sufftrans_endings (by decide), sufftrans_endings (by decide)]
  decide

end MachFormal.Make.Modifiers
