import Mathlib.Data.List.DropRight
import MachFormal.Library.Paths
import MachFormal.Sup.Transfer

/-!
# Splitting a name

`path` copies a name to the buffer for the directory part and walks back through it with a
pointer `y`, first over the separators at the end and then over the file part.  The pointer
is an index into the buffer; for the empty name it stands before the start at first.
-/

namespace MachFormal.Libcs.Path

open Library.Paths Sup

def dot : Byte := 46

/-! ## The code -/

/-- `while (y > direc && ...) --y`, for a pointer that is not before the start. -/
def retreat (passes : Byte → Bool) (direc : List Byte) : Nat → Nat
  | 0 => 0
  | y + 1 => if passes (direc.getD (y + 1) 0) then retreat passes direc y else y + 1

/-- The string that a buffer holds from an index on. -/
def stringAt (buffer : List Byte) (y : Nat) : Name := (buffer.drop y).takeWhile (· ≠ 0)

/-- The loop that chops off separators. -/
def chop (direc : List Byte) : Int → Int
  | .ofNat y => .ofNat (retreat (· = slash) direc y)
  | .negSucc n => .negSucc n

/-- `path`: the directory part and the file part. -/
def path (original : CString) : Name × Name :=
  let direc := original.data ++ [0]
  let y : Int := (direc.length : Int) - 1 - 1
  let y := chop direc y + 1
  let direc := direc.set y.toNat 0
  let y := retreat (· ≠ slash) direc y.toNat
  let (direc, y) := if direc.getD y 0 = slash then (direc.set y 0, y + 1) else (direc, y)
  let file := if direc.getD y 0 ≠ 0 then stringAt direc y else [dot]
  let direc := if y = 0 then [dot] else if direc.getD 0 0 = 0 then [slash] else stringAt direc 0
  (direc, file)

/-! ## The rules -/

/-- A name without the separators at its end, except as first character. -/
def trimmed : Name → Name
  | [] => []
  | c :: rest => c :: rest.rdropWhile (· = slash)

/-- What it means to remove them. -/
structure Trims (s t : Name) : Prop where
  append : ∃ n, s = t ++ List.replicate n slash
  ends : ∀ front, t = front ++ [slash] → front = []
  leading : t = [] → s = []

/-- The parts of a name from which the separators have been removed. -/
inductive Splits : Name → Name → Name → Prop where
  | empty : Splits [] [dot] [dot]
  | root : Splits [slash] [slash] [dot]
  | plain {t : Name} (filled : t ≠ []) (simple : slash ∉ t) : Splits t [dot] t
  | top {back : Name} (filled : back ≠ []) (simple : slash ∉ back) :
      Splits (slash :: back) [slash] back
  | inner {front back : Name} (nested : front ≠ []) (filled : back ≠ []) (simple : slash ∉ back) :
      Splits (front ++ slash :: back) front back

/-! ## Trimming -/

theorem trimmed_concat {s : Name} (filled : s ≠ []) (c : Byte) :
    trimmed (s ++ [c]) = if c = slash then trimmed s else s ++ [c] := by
  cases s with
  | nil => exact absurd rfl filled
  | cons b rest =>
      rw [List.cons_append, trimmed, List.rdropWhile_concat, trimmed]
      simp only [decide_eq_true_eq]
      split <;> rfl

theorem trimmed_append (s : Name) : ∃ n, s = trimmed s ++ List.replicate n slash := by
  cases s with
  | nil => exact ⟨0, rfl⟩
  | cons c rest =>
      have all : ∀ b ∈ rest.rtakeWhile (· = slash), b = slash := fun b inside => by
        simpa using List.mem_rtakeWhile_imp inside
      refine ⟨(rest.rtakeWhile (· = slash)).length, ?_⟩
      rw [trimmed, List.cons_append, ← List.eq_replicate_of_mem all,
        List.rdropWhile_append_rtakeWhile]

/-- What is left does not end with a separator, unless it is one. -/
theorem trimmed_ends {s front : Name} (ends : trimmed s = front ++ [slash]) : front = [] := by
  cases s with
  | nil => cases front <;> cases ends
  | cons c rest =>
      cases front with
      | nil => rfl
      | cons b front =>
          rw [trimmed, List.cons_append] at ends
          have same := (List.cons.inj ends).2
          have filled : rest.rdropWhile (· = slash) ≠ [] := by simp [same]
          have last := List.rdropWhile_last_not (fun b => decide (b = slash)) rest filled
          simp [same] at last

theorem trims (s : Name) : Trims s (trimmed s) where
  append := trimmed_append s
  ends := fun _ => trimmed_ends
  leading := by
    intro empty
    cases s with
    | nil => rfl
    | cons c rest => cases empty

theorem noNul_trimmed (original : CString) : (0 : Byte) ∉ trimmed original.data := by
  obtain ⟨n, whole⟩ := trimmed_append original.data
  intro nul
  exact original.noNul (whole ▸ List.mem_append_left _ nul)

theorem last_slash {t : Name} (inside : slash ∈ t) :
    ∃ front back, t = front ++ slash :: back ∧ slash ∉ back := by
  obtain ⟨back, front, whole, first⟩ :=
    List.eq_append_cons_of_mem (List.mem_reverse.mpr inside)
  refine ⟨front.reverse, back.reverse, ?_, fun again => first (List.mem_reverse.mp again)⟩
  have turned := congrArg List.reverse whole
  rwa [List.reverse_reverse, List.reverse_append, List.reverse_cons, List.append_assoc] at turned

/-- There is a rule for every trimmed name. -/
theorem splits_total (s : Name) : ∃ direc file, Splits (trimmed s) direc file := by
  by_cases inside : slash ∈ trimmed s
  · obtain ⟨front, back, whole, simple⟩ := last_slash inside
    rw [whole]
    by_cases empty : back = []
    · subst empty
      obtain rfl := trimmed_ends whole
      exact ⟨_, _, .root⟩
    · cases front with
      | nil => exact ⟨_, _, .top empty simple⟩
      | cons b front => exact ⟨_, _, .inner (List.cons_ne_nil b front) empty simple⟩
  · by_cases empty : trimmed s = []
    · rw [empty]
      exact ⟨_, _, .empty⟩
    · exact ⟨_, _, .plain empty inside⟩

/-! ## Walking back -/

theorem getD_append (a b : List Byte) (k : Nat) : (a ++ b).getD (a.length + k) 0 = b.getD k 0 := by
  rw [List.getD_eq_getElem?_getD, List.getElem?_append_right (Nat.le_add_right _ _),
    Nat.add_sub_cancel_left, List.getD_eq_getElem?_getD]

theorem stringAt_append (a : List Byte) {b : Name} (noNul : (0 : Byte) ∉ b) (c : List Byte) :
    stringAt (a ++ (b ++ 0 :: c)) a.length = b := by
  have all : ∀ x ∈ b, decide (x ≠ 0) = true := fun x inside =>
    decide_eq_true fun zero => noNul (zero ▸ inside)
  rw [stringAt, List.drop_left, List.takeWhile_append_of_pos all, List.takeWhile_cons_of_neg
    (by simp), List.append_nil]

theorem retreat_stays {passes : Byte → Bool} {buffer : List Byte} {y : Nat}
    (stays : y = 0 ∨ passes (buffer.getD y 0) = false) : retreat passes buffer y = y := by
  cases y with
  | zero => rfl
  | succ y =>
      rcases stays with zero | stays
      · cases zero
      · rw [retreat, stays]
        exact if_neg Bool.false_ne_true

theorem retreat_passes {passes : Byte → Bool} {buffer : List Byte} (y n : Nat)
    (all : ∀ k < n, passes (buffer.getD (y + 1 + k) 0) = true) :
    retreat passes buffer (y + n) = retreat passes buffer y := by
  induction n with
  | zero => rfl
  | succ n ih =>
      have last := all n (Nat.lt_succ_self n)
      rw [Nat.add_right_comm] at last
      rw [← Nat.add_assoc, retreat, if_pos last]
      exact ih fun k less => all k (Nat.lt_succ_of_lt less)

/-- The first loop finds the end of the trimmed name. -/
theorem retreat_slashes {s : Name} (filled : s ≠ []) (tail : List Byte) :
    retreat (· = slash) (s ++ tail) (s.length - 1) + 1 = (trimmed s).length := by
  induction s using List.reverseRecOn generalizing tail with
  | nil => exact absurd rfl filled
  | append_singleton s c ih =>
      by_cases empty : s = []
      · subst empty
        rfl
      · obtain ⟨k, length⟩ := Nat.exists_eq_succ_of_ne_zero (mt List.length_eq_zero_iff.mp empty)
        have here : ((s ++ [c]) ++ tail).getD (k + 1) 0 = c := by
          have last := getD_append s ([c] ++ tail) 0
          rw [Nat.add_zero, length] at last
          rw [List.append_assoc]
          exact last
        rw [List.length_append, List.length_singleton, Nat.add_sub_cancel, length, retreat, here,
          trimmed_concat empty]
        by_cases same : c = slash
        · have before := ih empty ([c] ++ tail)
          rw [length] at before
          rw [if_pos same, if_pos (decide_eq_true same), List.append_assoc]
          exact before
        · rw [if_neg same, if_neg (by simp [same]), List.length_append, length]
          rfl

/-- Up to the NUL behind it, a text without separators is passed over. -/
theorem getD_simple {text : Name} (simple : slash ∉ text) (tail : List Byte) {k : Nat}
    (within : k ≤ text.length) : (text ++ 0 :: tail).getD k 0 ≠ slash := by
  by_cases inside : k < text.length
  · rw [List.getD_eq_getElem?_getD, List.getElem?_append_left inside,
      List.getElem?_eq_getElem inside]
    exact fun same => simple (same ▸ List.getElem_mem inside)
  · obtain rfl : k = text.length := Nat.le_antisymm within (Nat.le_of_not_lt inside)
    have last : _ = (0 : Byte) := getD_append text (0 :: tail) 0
    rw [Nat.add_zero] at last
    rw [last]
    exact fun same => by cases same

theorem retreat_text (front : List Byte) (c : Byte) {text : Name} (simple : slash ∉ text)
    (tail : List Byte) :
    retreat (· ≠ slash) (front ++ c :: (text ++ 0 :: tail)) (front ++ c :: text).length =
      retreat (· ≠ slash) (front ++ c :: (text ++ 0 :: tail)) front.length := by
  rw [List.length_append, List.length_cons]
  refine retreat_passes _ _ fun k less => decide_eq_true ?_
  have here := getD_append (front ++ [c]) (text ++ 0 :: tail) k
  rw [List.append_assoc, List.length_append, List.singleton_append, List.length_singleton] at here
  rw [here]
  exact getD_simple simple tail (Nat.le_of_lt_succ less)

/-- The second loop finds the last separator of the trimmed name. -/
theorem retreat_inner (front : List Byte) {back : Name} (simple : slash ∉ back)
    (tail : List Byte) :
    retreat (· ≠ slash) (front ++ slash :: (back ++ 0 :: tail)) (front ++ slash :: back).length =
      front.length := by
  rw [retreat_text front slash simple tail]
  have here := getD_append front (slash :: (back ++ 0 :: tail)) 0
  rw [Nat.add_zero] at here
  exact retreat_stays (Or.inr (by rw [here]; rfl))

/-- Without a separator it stops at the start. -/
theorem retreat_plain {t : Name} (simple : slash ∉ t) (tail : List Byte) :
    retreat (· ≠ slash) (t ++ 0 :: tail) t.length = 0 := by
  cases t with
  | nil => rfl
  | cons c rest =>
      rw [List.mem_cons, not_or] at simple
      exact retreat_text [] c simple.2 tail

/-! ## The result -/

/-- What is in the buffer when the separators have been chopped off. -/
theorem chop_spec (original : CString) :
    ∃ tail, chop (original.data ++ [0]) (((original.data ++ [0]).length : Int) - 1 - 1) + 1 =
        ((trimmed original.data).length : Int) ∧
      (original.data ++ [0]).set (trimmed original.data).length 0 =
        trimmed original.data ++ 0 :: tail := by
  obtain ⟨n, whole⟩ := trimmed_append original.data
  obtain ⟨c, tail, rest⟩ : ∃ c tail, List.replicate n slash ++ [(0 : Byte)] = c :: tail := by
    cases n with
    | zero => exact ⟨_, _, rfl⟩
    | succ n => exact ⟨_, _, rfl⟩
  refine ⟨tail, ?_, ?_⟩
  · by_cases empty : original.data = []
    · rw [empty]
      rfl
    · have positive := List.length_pos_iff.mpr empty
      have found := retreat_slashes empty [0]
      have start : ((original.data ++ [0]).length : Int) - 1 - 1 =
          Int.ofNat (original.data.length - 1) := by
        rw [List.length_append, List.length_singleton]
        simp only [Int.ofNat_eq_natCast]
        omega
      rw [start, chop, ← found]
      rfl
  · have buffer : original.data ++ [0] = trimmed original.data ++ c :: tail := by
      rw [← rest, ← List.append_assoc, ← whole]
    rw [buffer, List.set_append_right _ _ (Nat.le_refl _), Nat.sub_self]
    rfl

theorem path_splits (original : CString) :
    Splits (trimmed original.data) (path original).1 (path original).2 := by
  obtain ⟨tail, chopped, buffer⟩ := chop_spec original
  have noNul := noNul_trimmed original
  have ends (front : Name) (last : trimmed original.data = front ++ [slash]) : front = [] :=
    trimmed_ends last
  simp only [path, chopped, Int.toNat_natCast, buffer]
  generalize trimmed original.data = t at noNul ends
  by_cases inside : slash ∈ t
  · obtain ⟨front, back, rfl, simple⟩ := last_slash inside
    have found := getD_append front (slash :: (back ++ 0 :: tail)) 0
    rw [Nat.add_zero] at found
    have cut : (front ++ slash :: (back ++ 0 :: tail)).set front.length 0 =
        front ++ 0 :: (back ++ 0 :: tail) := by
      rw [List.set_append_right _ _ (Nat.le_refl _), Nat.sub_self]
      rfl
    have behind : stringAt (front ++ 0 :: (back ++ 0 :: tail)) (front.length + 1) = back := by
      have text := stringAt_append (front ++ [0]) (b := back)
        (fun nul => noNul (List.mem_append_right _ (List.mem_cons_of_mem _ nul))) tail
      rwa [List.append_assoc, List.length_append, List.singleton_append,
        List.length_singleton] at text
    have first : (front ++ 0 :: (back ++ 0 :: tail)).getD (front.length + 1) 0 =
        (back ++ 0 :: tail).getD 0 0 := by
      have here := getD_append (front ++ [0]) (back ++ 0 :: tail) 0
      rwa [List.append_assoc, List.length_append, List.singleton_append,
        List.length_singleton, Nat.add_zero] at here
    rw [List.append_assoc, List.cons_append, retreat_inner front simple tail, found]
    simp only [List.getD_cons_zero, if_true, cut, behind, first, Nat.add_one_ne_zero, if_false]
    have before : (if (front ++ 0 :: (back ++ 0 :: tail)).getD 0 0 = 0 then [slash]
        else stringAt (front ++ 0 :: (back ++ 0 :: tail)) 0) =
        if front = [] then [slash] else front := by
      cases front with
      | nil => rfl
      | cons b front =>
          have filled : b ≠ 0 := fun zero => noNul (zero ▸ List.mem_cons_self)
          rw [List.cons_append, List.getD_cons_zero, if_neg filled, if_neg (List.cons_ne_nil _ _)]
          exact stringAt_append [] (b := b :: front)
            (fun nul => noNul (List.mem_append_left _ nul)) (back ++ 0 :: tail)
    rw [before]
    cases back with
    | nil =>
        obtain rfl := ends front rfl
        exact .root
    | cons c back =>
        have filled : c ≠ 0 := fun zero =>
          noNul (zero ▸ List.mem_append_right _ (List.mem_cons_of_mem _ List.mem_cons_self))
        rw [List.cons_append, List.getD_cons_zero, if_pos filled]
        cases front with
        | nil => exact .top (List.cons_ne_nil c back) simple
        | cons b front => exact .inner (List.cons_ne_nil b front) (List.cons_ne_nil c back) simple
  · rw [retreat_plain inside tail]
    cases t with
    | nil => exact .empty
    | cons c rest =>
        have filled : c ≠ 0 := fun zero => noNul (zero ▸ List.mem_cons_self)
        have other : c ≠ slash := fun same => inside (same ▸ List.mem_cons_self)
        have whole := stringAt_append [] noNul tail
        rw [List.nil_append, List.length_nil] at whole
        simp only [List.cons_append, List.getD_cons_zero, if_neg other, if_pos filled, if_true,
          ne_eq]
        rw [← List.cons_append, whole]
        exact .plain (List.cons_ne_nil c rest) inside

theorem Splits.slash_not_mem {t direc file : Name} (splits : Splits t direc file) :
    slash ∉ file := by
  cases splits with
  | empty => decide
  | root => decide
  | plain _ simple => exact simple
  | top _ simple => exact simple
  | inner _ _ simple => exact simple

theorem lastPart {front : Name} {back : Name} (simple : slash ∉ back) :
    ((front ++ slash :: back).reverse.takeWhile (· ≠ slash)).reverse = back := by
  have all : ∀ b ∈ back.reverse, decide (b ≠ slash) = true := fun b inside =>
    decide_eq_true fun same => simple (same ▸ List.mem_reverse.mp inside)
  rw [List.reverse_append, List.reverse_cons, List.append_assoc,
    List.takeWhile_append_of_pos all, List.singleton_append,
    List.takeWhile_cons_of_neg (by simp), List.append_nil, List.reverse_reverse]

/-- The rules leave no choice: the parts are the ones that the client works with. -/
theorem Splits.parts {s direc file : Name} (splits : Splits (trimmed s) direc file) :
    direc = dirPart s ∧ file = filePart s := by
  have same : dirPart.chop s = trimmed s := by cases s <;> rfl
  rw [dirPart, filePart, same]
  generalize trimmed s = t at splits
  cases splits with
  | empty => exact ⟨rfl, rfl⟩
  | root => exact ⟨rfl, rfl⟩
  | plain filled simple =>
      have all : ∀ b ∈ file.reverse, decide (b ≠ slash) = true := fun b inside =>
        decide_eq_true fun same => simple (same ▸ List.mem_reverse.mp inside)
      have whole : (file.reverse.takeWhile (· ≠ slash)).reverse = file := by
        rw [List.takeWhile_eq_self_iff.mpr all, List.reverse_reverse]
      simp only [whole, if_true, if_neg filled]
      exact ⟨rfl, trivial⟩
  | top filled simple =>
      have part : (([] ++ slash :: file).reverse.takeWhile (· ≠ slash)).reverse = file :=
        lastPart simple
      rw [List.nil_append] at part
      simp only [part, List.length_cons, if_neg filled]
      exact ⟨by rw [if_neg (by omega), if_pos trivial], trivial⟩
  | inner nested filled simple =>
      have part : ((direc ++ slash :: file).reverse.takeWhile (· ≠ slash)).reverse = file :=
        lastPart simple
      have positive := List.length_pos_iff.mpr nested
      simp only [part, if_neg filled, List.length_append, List.length_cons]
      refine ⟨?_, trivial⟩
      rw [if_neg (by omega), if_neg (by omega), show direc.length + (file.length + 1) -
        file.length - 1 = direc.length by omega, List.take_left]

theorem parts_splits (s : Name) : Splits (trimmed s) (dirPart s) (filePart s) := by
  obtain ⟨direc, file, splits⟩ := splits_total s
  obtain ⟨rfl, rfl⟩ := splits.parts
  exact splits

theorem path_eq (original : CString) :
    path original = (dirPart original.data, filePart original.data) := by
  have parts := (path_splits original).parts
  rw [← parts.1, ← parts.2]

/-! ## What the names stand for -/

/-- Files, in which `.` leads nowhere else from the root and the current directory. -/
structure Files (ν : Type) extends Places Byte ν where
  root_dot : lookup root [dot] = some root
  current_dot : lookup current [dot] = some current

variable {ν : Type} (files : Files ν)

def joined (parts : Name × Name) : Name := parts.1 ++ slash :: parts.2

theorem Splits.filled {t direc file : Name} (splits : Splits t direc file) : file ≠ [] := by
  cases splits with
  | empty => exact List.cons_ne_nil _ _
  | root => exact List.cons_ne_nil _ _
  | plain filled _ => exact filled
  | top filled _ => exact filled
  | inner _ filled _ => exact filled

theorem Splits.joined_getLast {t direc file : Name} (splits : Splits t direc file) :
    (joined (direc, file)).getLast? ≠ some slash := by
  intro last
  rw [joined, List.getLast?_append_cons, List.getLast?_cons_of_ne_nil splits.filled] at last
  exact splits.slash_not_mem (List.mem_of_getLast? last)

theorem components_trimmed (s : Name) :
    components slash (trimmed s) = components slash s := by
  obtain ⟨n, whole⟩ := trimmed_append s
  have same := components_replicate slash (trimmed s) n
  rw [← whole] at same
  exact same.symm

theorem head_trimmed (s : Name) : (trimmed s).head? = s.head? := by cases s <;> rfl

theorem components_joined {t direc file : Name} (splits : Splits t direc file) :
    components slash (joined (direc, file)) = components slash direc ++ [file] := by
  rw [joined, components_append, components_single slash splits.slash_not_mem splits.filled]

theorem Splits.direc_filled {t direc file : Name} (splits : Splits t direc file) : direc ≠ [] := by
  cases splits with
  | inner nested _ _ => exact nested
  | _ => exact List.cons_ne_nil _ _

/-- Whatever the components of a name are folded to, it is the same for the joined name, if
`.` changes nothing at the start. -/
theorem Splits.foldl {β : Type} (f : β → Name → β) (root current : β) (root_dot : f root [dot] = root)
    (current_dot : f current [dot] = current) {t direc file : Name}
    (splits : Splits t direc file) :
    (components slash direc ++ [file]).foldl f (if direc.head? = some slash then root else current)
      = (components slash t).foldl f (if t.head? = some slash then root else current) := by
  have here : components slash [dot] = [[dot]] := by decide
  have top : components slash [slash] = [] := by decide
  cases splits with
  | empty =>
      rw [here, List.singleton_append, List.foldl_cons, List.foldl_cons]
      exact (congrArg (f · [dot]) current_dot).trans current_dot
  | root =>
      rw [top, List.nil_append, List.foldl_cons]
      exact root_dot
  | plain filled simple =>
      have other : t.head? ≠ some slash := fun first => simple (List.mem_of_mem_head? first)
      rw [here, List.singleton_append, List.foldl_cons, if_neg other,
        components_single slash simple filled]
      exact congrArg (f · t) current_dot
  | top filled simple =>
      rw [top, components_cons, components_single slash simple filled]
      rfl
  | inner nested filled simple =>
      rw [components_append, components_single slash simple filled]
      cases direc with
      | nil => exact absurd rfl nested
      | cons b front => rfl

theorem foldl_parts {β : Type} (f : β → Name → β) {root current : β} (root_dot : f root [dot] = root)
    (current_dot : f current [dot] = current) (name : Name) :
    (components slash name).foldl f (if name.head? = some slash then root else current) =
      f ((components slash (dirPart name)).foldl f
        (if (dirPart name).head? = some slash then root else current)) (filePart name) := by
  have whole := (parts_splits name).foldl f root current root_dot current_dot
  rw [List.foldl_append, List.foldl_cons, List.foldl_nil, components_trimmed, head_trimmed] at whole
  exact whole.symm

/-- The components of both names lead to the same place. -/
theorem Splits.walk {t direc file : Name} (splits : Splits t direc file) :
    files.walk (files.start slash (joined (direc, file))) (components slash (joined (direc, file)))
      = files.walk (files.start slash t) (components slash t) := by
  have first : (joined (direc, file)).head? = direc.head? := by
    cases direc with
    | nil => exact absurd rfl splits.direc_filled
    | cons b rest => rfl
  have whole := splits.foldl (fun x c => x.bind (files.lookup · c)) (some files.root)
    (some files.current) files.root_dot files.current_dot
  rw [Places.walk_eq_foldl, Places.walk_eq_foldl, components_joined splits, Places.start,
    Places.start, first, apply_ite some, apply_ite some]
  exact whole

/-- The parts name what the name itself does, but a name that ends with a separator may have
to be the name of a directory. -/
theorem resolve_joined (original : CString) :
    files.resolve slash original.data =
      (files.resolve slash (joined (path original))).filter fun x =>
        original.data.getLast? ≠ some slash || files.opens x := by
  have splits := path_splits original
  have last := splits.joined_getLast
  rw [Prod.mk.eta] at last
  have same := splits.walk files
  rw [Prod.mk.eta, Places.start, Places.start, head_trimmed, components_trimmed] at same
  rw [Places.resolve, Places.resolve, Places.start, Places.start, same, Option.filter_filter]
  congr 1
  funext x
  simp [last]

/-- For every name exactly one rule holds, `path` follows it, and the parts together name
what the name itself does. -/
theorem path_rules (original : CString) :
    Trims original.data (trimmed original.data) ∧
      (∀ parts : Name × Name, Splits (trimmed original.data) parts.1 parts.2 ↔
        parts = path original) ∧
      slash ∉ (path original).2 ∧
      ∀ (ν : Type) (files : Files ν),
        files.resolve slash original.data =
          (files.resolve slash (joined (path original))).filter fun x =>
            original.data.getLast? ≠ some slash || files.opens x := by
  refine ⟨trims original.data, fun parts => ⟨fun splits => ?_, ?_⟩,
    (path_splits original).slash_not_mem, fun _ files => resolve_joined files original⟩
  · rw [path_eq, ← splits.parts.1, ← splits.parts.2]
  · rintro rfl
    exact path_splits original

end MachFormal.Libcs.Path
