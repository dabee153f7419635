import Mathlib.Data.List.Basic
import MachFormal.Library.Patterns
import MachFormal.Library.Text

/-!
# Pattern rules

`unify` looks for words that its variables can stand for, so that a pattern becomes the name of
a target.  A variable that is met for the first time is given all that is left of the name, and
the word is cut by one letter whenever the rest of the pattern does not match behind it; met
again, it is compared through a pointer into its row.

When the empty word has failed too, the terminator is stored once more, before the row.
-/

namespace MachFormal.Make.Unify

open Library.Patterns Library.Text

abbrev Byte := BitVec 8

def percent : Byte := 37
def backslash : Byte := 92

/-- `%` and `%0` to `%9`. -/
abbrev Var := Fin 11

/-- The variable that is named behind a percent sign, and what follows it. -/
def variableOf : List Byte → Var × List Byte
  | [] => (0, [])
  | c :: p => if isDigit 10 c then (Fin.ofNat 11 (c.toNat - 48 + 1), p) else (0, c :: p)

theorem length_variableOf (p : List Byte) : (variableOf p).2.length ≤ p.length := by
  cases p with
  | nil => exact Nat.le_refl _
  | cons c p =>
      rw [variableOf]
      split
      · exact Nat.le_succ _
      · exact Nat.le_refl _

/-- The letters and variables of a pattern. -/
def tokens : List Byte → List (Tok Byte Var)
  | [] => []
  | c :: p =>
      if c = percent then
        have := length_variableOf p
        .var (variableOf p).1 :: tokens (variableOf p).2
      else .lit c :: tokens p
termination_by p => p.length

/-- `h` is the empty literal of the first call, or points into `var`. -/
inductive Ptr where
  | literal
  | into (a : Int)

def Ptr.next : Ptr → Ptr
  | .literal => .literal
  | .into a => .into (a + 1)

abbrev Memory := Int → Byte

def put (mem : Memory) (a : Int) (c : Byte) : Memory := fun x => if x = a then c else mem x

theorem put_self (mem : Memory) (a : Int) (c : Byte) : put mem a c a = c := if_pos rfl

theorem put_of_ne (mem : Memory) {a x : Int} (other : x ≠ a) (c : Byte) : put mem a c x = mem x :=
  if_neg other

/-- The memory around `var`, which starts at 0, and `used`.  The stores into `var` are kept, each
with its row and the index in it. -/
structure State where
  mem : Memory
  used : Var → Bool
  stores : List (Var × Int)

/-- `*h`. -/
def State.at (st : State) : Ptr → Byte
  | .literal => 0
  | .into a => st.mem a

def State.setUsed (st : State) (vn : Var) (value : Bool) : State :=
  { st with used := Function.update st.used vn value }

section Code

variable (BUFSIZ : Nat)

/-- `var[vn]`. -/
def row (vn : Var) : Int := vn.val * BUFSIZ

/-- `var[vn][i] = c`. -/
def State.store (st : State) (vn : Var) (i : Int) (c : Byte) : State :=
  { st with mem := put st.mem (row BUFSIZ vn + i) c, stores := st.stores ++ [(vn, i)] }

/-- What is left of the name goes to the row, with its terminator. -/
def copy (vn : Var) (i : Int) : List Byte → State → State
  | [], st => st.store BUFSIZ vn i 0
  | c :: s, st => copy vn (i + 1) s (st.store BUFSIZ vn i c)

mutual

def unify (s : List Byte) (h : Ptr) (p : List Byte) (st : State) : Bool × State :=
  if st.at h ≠ 0 then
    match s with
    | [] => (false, st)
    | c :: s => if c = st.at h then unify s h.next p st else (false, st)
  else
    match p with
    | [] => (s.isEmpty, st)
    | c :: p =>
        have := length_variableOf p
        if c ≠ percent then
          match s with
          | [] => (false, st)
          | d :: s => if d = c then unify s h p st else (false, st)
        else if st.used (variableOf p).1 then
          unify s (.into (row BUFSIZ (variableOf p).1)) (variableOf p).2 st
        else
          bindings (s.length + 1) s h (variableOf p).1 (variableOf p).2
            ((copy BUFSIZ (variableOf p).1 0 s st).setUsed (variableOf p).1 true)
termination_by (p.length, 0, s.length)

/-- The last loop of `unify`, where `q` is `n` letters behind `s` and `r` one less behind the
start of the row. -/
def bindings (n : Nat) (s : List Byte) (h : Ptr) (vn : Var) (p : List Byte) (st : State) :
    Bool × State :=
  match n with
  | 0 => (false, st.setUsed vn false)
  | n + 1 =>
      match unify (s.drop n) h p st with
      | (true, st) => (true, st)
      | (false, st) => bindings n s h vn p (st.store BUFSIZ vn (n - 1) 0)
termination_by (p.length, 1, n)

end

/-- The string at an address, if it ends before so many bytes. -/
def text (mem : Memory) : Nat → Int → Option (List Byte)
  | 0, _ => none
  | n + 1, a => if mem a = 0 then some [] else (text mem n (a + 1)).map (mem a :: ·)

/-- The loop of `instant`; nothing when it is fatal or reads on behind a row. -/
def substitute (st : State) (a : List Byte) : Option (List Byte) :=
  match a with
  | [] => some []
  | c :: rest =>
      have := length_variableOf rest
      if c ≠ percent then
        if c = backslash ∧ rest.head? = some percent then
          (substitute st rest.tail).map (percent :: ·)
        else (substitute st rest).map (c :: ·)
      else if st.used (variableOf rest).1 = false then none
      else do
        let word ← text st.mem BUFSIZ (row BUFSIZ (variableOf rest).1)
        let after ← substitute st (variableOf rest).2
        some (word ++ after)
termination_by a.length
decreasing_by
  · simp only [List.length_tail, List.length_cons]
    omega
  · simp
  · simp only [List.length_cons]
    omega

/-- What `instant` writes. -/
def instant (st : State) : Option (List Byte) → Option (List Byte)
  | none => some []
  | some a => substitute BUFSIZ st a

end Code

@[simp] theorem tokens_nil : tokens [] = [] := by rw [tokens]

theorem tokens_percent (p : List Byte) :
    tokens (percent :: p) = .var (variableOf p).1 :: tokens (variableOf p).2 := by
  rw [tokens, if_pos rfl]

theorem tokens_lit {c : Byte} (other : c ≠ percent) (p : List Byte) :
    tokens (c :: p) = .lit c :: tokens p := by
  rw [tokens, if_neg other]

/-! ## Rows -/

/-- The memory holds a string at the address. -/
def Text (mem : Memory) : Int → List Byte → Prop
  | a, [] => mem a = 0
  | a, c :: l => c ≠ 0 ∧ mem a = c ∧ Text mem (a + 1) l

section Texts

variable {mem mem' : Memory} {a x : Int} {l : List Byte}

theorem Text.congr (h : Text mem a l)
    (same : ∀ x, a ≤ x → x ≤ a + l.length → mem' x = mem x) : Text mem' a l := by
  induction l generalizing a with
  | nil => exact (same a (Int.le_refl a) (by simp)).trans h
  | cons c l ih =>
      obtain ⟨visible, head, tail⟩ := h
      rw [List.length_cons, Nat.cast_add, Nat.cast_one] at same
      refine ⟨visible, (same a (Int.le_refl a) (by omega)).trans head, ih tail fun x low high => ?_⟩
      exact same x (by omega) (by omega)

theorem Text.last (h : Text mem a l) : mem (a + l.length) = 0 := by
  induction l generalizing a with
  | nil => rwa [List.length_nil, Nat.cast_zero, Int.add_zero]
  | cons c l ih =>
      rw [List.length_cons, Nat.cast_add, Nat.cast_one, Int.add_comm (l.length : Int) 1,
        ← Int.add_assoc]
      exact ih h.2.2

/-- A terminator that is stored before a string, over its own or behind it does no harm. -/
theorem Text.nul (h : Text mem a l) (apart : x < a ∨ a + l.length ≤ x) :
    Text (put mem x 0) a l := by
  refine h.congr fun y low high => ?_
  by_cases same : y = x
  · have last : x = a + l.length := by omega
    rw [same, put_self, last, h.last]
  · exact put_of_ne mem same 0

theorem Text.drop {front : List Byte} (h : Text mem a (front ++ l)) :
    Text mem (a + front.length) l := by
  induction front generalizing a with
  | nil => rwa [List.length_nil, Nat.cast_zero, Int.add_zero]
  | cons c front ih =>
      rw [List.length_cons, Nat.cast_add, Nat.cast_one, Int.add_comm (front.length : Int) 1,
        ← Int.add_assoc]
      exact ih h.2.2

/-- The last letter is cut off. -/
theorem Text.cut {c : Byte} (h : Text mem a (l ++ [c])) :
    Text (put mem (a + l.length) 0) a l := by
  induction l generalizing a with
  | nil =>
      rw [List.length_nil, Nat.cast_zero, Int.add_zero]
      exact put_self mem a 0
  | cons d l ih =>
      obtain ⟨visible, head, tail⟩ := h
      rw [List.length_cons, Nat.cast_add, Nat.cast_one, Int.add_comm (l.length : Int) 1,
        ← Int.add_assoc]
      exact ⟨visible, (put_of_ne mem (by omega) 0).trans head, ih tail⟩

theorem text_eq (h : Text mem a l) {n : Nat} (short : l.length < n) : text mem n a = some l := by
  induction l generalizing a n with
  | nil =>
      cases n with
      | zero => cases short
      | succ n => exact if_pos h
  | cons c l ih =>
      cases n with
      | zero => cases short
      | succ n =>
          obtain ⟨visible, head, tail⟩ := h
          rw [text, if_neg (head ▸ visible), ih tail (Nat.lt_of_succ_lt_succ short), head]
          rfl

end Texts

variable {BUFSIZ : Nat}

/-- The rows of the variables in use hold these words. -/
structure Holds (BUFSIZ : Nat) (st : State) (e : Var → List Byte) : Prop where
  text : ∀ v, st.used v = true → Text st.mem (row BUFSIZ v) (e v)
  short : ∀ v, st.used v = true → (e v).length < BUFSIZ

/-- The pointer stands in front of the end of a word in use. -/
def Points (BUFSIZ : Nat) (U : Var → Bool) (e : Var → List Byte) : Ptr → List Byte → Prop
  | .literal, g => g = []
  | .into a, g => ∃ v front, U v = true ∧ e v = front ++ g ∧ a = row BUFSIZ v + front.length

/-- The index does not belong to the row. -/
def Outside (BUFSIZ : Nat) (i : Int) : Prop := i < 0 ∨ BUFSIZ ≤ i

/-- Some store went outside its row. -/
def Strays (BUFSIZ : Nat) (st : State) : Prop := ∃ x ∈ st.stores, Outside BUFSIZ x.2

theorem row_apart {u v : Var} (other : u ≠ v) :
    row BUFSIZ u + BUFSIZ ≤ row BUFSIZ v ∨ row BUFSIZ v + BUFSIZ ≤ row BUFSIZ u := by
  rcases Nat.lt_or_gt_of_ne (Fin.val_ne_of_ne other) with less | more
  · left
    have := Nat.mul_le_mul_right BUFSIZ (Nat.succ_le_of_lt less)
    simp only [row]
    rw [Nat.succ_mul] at this
    exact_mod_cast this
  · right
    have := Nat.mul_le_mul_right BUFSIZ (Nat.succ_le_of_lt more)
    simp only [row]
    rw [Nat.succ_mul] at this
    exact_mod_cast this

theorem strays_store {st : State} {vn : Var} {i : Int} {c : Byte} :
    Strays BUFSIZ (st.store BUFSIZ vn i c) ↔ Strays BUFSIZ st ∨ Outside BUFSIZ i := by
  simp only [Strays, State.store, List.mem_append, List.mem_singleton]
  constructor
  · rintro ⟨x, before | rfl, out⟩
    · exact Or.inl ⟨x, before, out⟩
    · exact Or.inr out
  · rintro (⟨x, before, out⟩ | out)
    · exact ⟨x, Or.inl before, out⟩
    · exact ⟨_, Or.inr rfl, out⟩

@[simp] theorem store_used (st : State) (vn : Var) (i : Int) (c : Byte) :
    (st.store BUFSIZ vn i c).used = st.used := rfl

theorem store_mem_self (st : State) (vn : Var) (i : Int) (c : Byte) :
    (st.store BUFSIZ vn i c).mem (row BUFSIZ vn + i) = c :=
  put_self st.mem (row BUFSIZ vn + i) c

theorem store_mem_of_ne (st : State) (vn : Var) {i x : Int} (c : Byte)
    (other : x ≠ row BUFSIZ vn + i) : (st.store BUFSIZ vn i c).mem x = st.mem x :=
  put_of_ne st.mem other c

theorem Points.deref {st : State} {e : Var → List Byte} {h : Ptr} {g : List Byte}
    (holds : Holds BUFSIZ st e) (points : Points BUFSIZ st.used e h g) :
    match g with
    | [] => st.at h = 0
    | c :: _ => c ≠ 0 ∧ st.at h = c := by
  cases h with
  | literal =>
      cases points
      rfl
  | into a =>
      obtain ⟨v, front, used, whole, rfl⟩ := points
      have string := holds.text v used
      rw [whole] at string
      cases g with
      | nil => exact string.drop
      | cons c g => exact ⟨string.drop.1, string.drop.2.1⟩

theorem Points.next {U : Var → Bool} {e : Var → List Byte} {h : Ptr} {c : Byte} {g : List Byte}
    (points : Points BUFSIZ U e h (c :: g)) : Points BUFSIZ U e h.next g := by
  cases h with
  | literal => cases points
  | into a =>
      obtain ⟨v, front, used, whole, rfl⟩ := points
      refine ⟨v, front ++ [c], used, ?_, ?_⟩
      · rw [whole, List.append_assoc]
        rfl
      · rw [List.length_append, List.length_singleton, Nat.cast_add, Nat.cast_one]
        omega

/-- The pointer stays at an end while one more variable is bound. -/
theorem Points.bind {U : Var → Bool} {e : Var → List Byte} {h : Ptr} {v : Var} {w : List Byte}
    (points : Points BUFSIZ U e h []) (unbound : U v = false) :
    Points BUFSIZ (bindVar U v) (Function.update e v w) h [] := by
  cases h with
  | literal => exact points
  | into a =>
      obtain ⟨u, front, used, whole, rfl⟩ := points
      have other : u ≠ v := fun same => by rw [same, unbound] at used; cases used
      refine ⟨u, front, ?_, ?_, rfl⟩
      · rw [bindVar, Function.update_of_ne other]
        exact used
      · rw [Function.update_of_ne other]
        exact whole

theorem copy_spec (vn : Var) (i : Int) (s : List Byte) (st : State) (visible : (0 : Byte) ∉ s)
    (low : 0 ≤ i) (high : i + s.length < BUFSIZ) :
    (∀ x, (x < row BUFSIZ vn + i ∨ row BUFSIZ vn + i + s.length < x) →
      (copy BUFSIZ vn i s st).mem x = st.mem x) ∧
    Text (copy BUFSIZ vn i s st).mem (row BUFSIZ vn + i) s ∧
    (copy BUFSIZ vn i s st).used = st.used ∧
    (Strays BUFSIZ (copy BUFSIZ vn i s st) ↔ Strays BUFSIZ st) := by
  induction s generalizing i st with
  | nil =>
      rw [List.length_nil, Nat.cast_zero, Int.add_zero] at high ⊢
      refine ⟨fun x apart => ?_, ?_, rfl, ?_⟩
      · exact store_mem_of_ne st vn 0 (by omega)
      · exact put_self st.mem _ 0
      · rw [copy, strays_store, Outside]
        exact ⟨fun h => h.resolve_right (by omega), Or.inl⟩
  | cons c s ih =>
      rw [List.length_cons, Nat.cast_add, Nat.cast_one] at high ⊢
      obtain ⟨frame, string, used, strays⟩ := ih (i + 1) (st.store BUFSIZ vn i c)
        (fun inside => visible (List.mem_cons_of_mem c inside)) (by omega) (by omega)
      refine ⟨fun x apart => ?_, ⟨?_, ?_, ?_⟩, used, ?_⟩
      · rw [copy, frame x (by omega)]
        exact store_mem_of_ne st vn c (by omega)
      · exact fun same => visible (same ▸ List.mem_cons_self)
      · rw [copy, frame _ (by omega)]
        exact store_mem_self st vn i c
      · rwa [Int.add_assoc]
      · rw [copy, strays, strays_store, Outside]
        exact ⟨fun h => h.resolve_right (by omega), Or.inl⟩

/-! ## The search -/

/-- What a call does that has `p` left of the pattern and `s` of the name. -/
structure Result (BUFSIZ : Nat) (U : Var → Bool) (e : Var → List Byte) (p : List (Tok Byte Var))
    (s : List Byte) (st : State) (r : Bool × State) : Prop where
  succeeded : r.1 = true → ∃ b, Matches U e p s b ∧ Holds BUFSIZ r.2 b ∧
    ∀ v, r.2.used v = true ↔ U v = true ∨ Tok.var v ∈ p
  failed : r.1 = false → (∀ b, ¬Matches U e p s b) ∧ Holds BUFSIZ r.2 e ∧ r.2.used = U
  strays : Strays BUFSIZ r.2 ↔ Strays BUFSIZ st ∨ DeadEnd U e p s

/-- The name does not go on as the rest of the pattern does. -/
theorem Result.refused {U : Var → Bool} {e : Var → List Byte} {p : List (Tok Byte Var)}
    {s : List Byte} {st : State} (holds : Holds BUFSIZ st e) (used : st.used = U)
    (none : ∀ b, ¬Matches U e p s b) (smooth : ¬DeadEnd U e p s) :
    Result BUFSIZ U e p s st (false, st) where
  succeeded h := by cases h
  failed _ := ⟨none, holds, used⟩
  strays := ⟨Or.inl, fun h => h.resolve_right smooth⟩

section Steps

variable {s p : List Byte} {h : Ptr} {st : State} {c : Byte}

theorem unify_head (head : st.at h = c) (visible : c ≠ 0) :
    unify BUFSIZ s h p st = match s with
      | [] => (false, st)
      | d :: s => if d = c then unify BUFSIZ s h.next p st else (false, st) := by
  rw [unify.eq_def, head, if_pos visible]

theorem unify_nil (ended : st.at h = 0) : unify BUFSIZ s h [] st = (s.isEmpty, st) := by
  rw [unify.eq_def, if_neg (not_not_intro ended)]

theorem unify_lit (ended : st.at h = 0) (other : c ≠ percent) :
    unify BUFSIZ s h (c :: p) st = match s with
      | [] => (false, st)
      | d :: s => if d = c then unify BUFSIZ s h p st else (false, st) := by
  rw [unify.eq_def, if_neg (not_not_intro ended)]
  exact if_pos other

theorem unify_bound (ended : st.at h = 0) (used : st.used (variableOf p).1 = true) :
    unify BUFSIZ s h (percent :: p) st =
      unify BUFSIZ s (.into (row BUFSIZ (variableOf p).1)) (variableOf p).2 st := by
  rw [unify.eq_def, if_neg (not_not_intro ended)]
  exact (if_neg (not_not_intro rfl)).trans (if_pos used)

theorem unify_free (ended : st.at h = 0) (unused : st.used (variableOf p).1 = false) :
    unify BUFSIZ s h (percent :: p) st =
      bindings BUFSIZ (s.length + 1) s h (variableOf p).1 (variableOf p).2
        ((copy BUFSIZ (variableOf p).1 0 s st).setUsed (variableOf p).1 true) := by
  rw [unify.eq_def, if_neg (not_not_intro ended)]
  exact (if_neg (not_not_intro rfl)).trans (if_neg (Bool.eq_false_iff.mp unused))

end Steps

/-- The word that `h` points to is compared first. -/
theorem unify_walk {st : State} {e : Var → List Byte} {h : Ptr} {g s p : List Byte}
    (holds : Holds BUFSIZ st e) (points : Points BUFSIZ st.used e h g) :
    (∃ rest h', s = g ++ rest ∧ Points BUFSIZ st.used e h' [] ∧
      unify BUFSIZ s h p st = unify BUFSIZ rest h' p st) ∨
    (¬g <+: s ∧ unify BUFSIZ s h p st = (false, st)) := by
  induction g generalizing s h with
  | nil => exact Or.inl ⟨s, h, rfl, points, rfl⟩
  | cons c g ih =>
      obtain ⟨visible, deref⟩ := points.deref holds
      rw [unify_head deref visible]
      cases s with
      | nil => exact Or.inr ⟨fun start => (by cases List.prefix_nil.mp start), rfl⟩
      | cons d s =>
          by_cases same : d = c
          · rcases @ih h.next s points.next with ⟨rest, h', rfl, ended, equal⟩ | ⟨apart, equal⟩
            · exact Or.inl ⟨rest, h', by rw [same]; rfl, ended, (if_pos same).trans equal⟩
            · refine Or.inr ⟨fun start => ?_, (if_pos same).trans equal⟩
              exact apart (List.cons_prefix_cons.mp start).2
          · exact Or.inr ⟨fun start => same (List.cons_prefix_cons.mp start).1.symm, if_neg same⟩

/-- The row of a variable is cut by one letter, or nothing but a terminator is stored before
it. -/
theorem Holds.cut {st : State} {e : Var → List Byte} {v : Var} {s : List Byte} {n : Nat}
    (used : st.used v = true) (short : n ≤ s.length)
    (holds : Holds BUFSIZ st (Function.update e v (s.take n))) :
    Holds BUFSIZ (st.store BUFSIZ v (n - 1) 0) (Function.update e v (s.take (n - 1))) where
  text u busy := by
    have string := holds.text u busy
    have fits := holds.short u busy
    have room := holds.short v used
    rw [Function.update_self, List.length_take, Nat.min_eq_left short] at room
    by_cases same : u = v
    · subst same
      rw [Function.update_self] at string ⊢
      cases n with
      | zero => exact string.nul (Or.inl (by simp))
      | succ n =>
          rw [List.take_succ_eq_append_getElem short] at string
          have cut := string.cut
          rw [List.length_take, Nat.min_eq_left (Nat.le_of_succ_le short)] at cut
          have index : ((n + 1 : Nat) : Int) - 1 = n := by omega
          rw [index]
          exact cut
    · rw [Function.update_of_ne same] at string fits ⊢
      refine string.nul ?_
      rcases @row_apart BUFSIZ u v same with before | behind
      · right
        omega
      · left
        omega
  short u busy := by
    have fits := holds.short u busy
    by_cases same : u = v
    · subst same
      rw [Function.update_self, List.length_take] at fits ⊢
      omega
    · rwa [Function.update_of_ne same] at fits ⊢

section Search

variable {U : Var → Bool} {e : Var → List Byte} {st : State} {s p : List Byte} {h : Ptr}

/-- What is to be shown of the calls that have `p` left. -/
def Spec (BUFSIZ : Nat) (p : List Byte) : Prop :=
  ∀ {U : Var → Bool} {e : Var → List Byte} {st : State} {s : List Byte} {h : Ptr},
    st.used = U → Holds BUFSIZ st e → Points BUFSIZ U e h [] → (0 : Byte) ∉ s →
    s.length < BUFSIZ → Result BUFSIZ U e (tokens p) s st (unify BUFSIZ s h p st)

theorem spec_nil : Spec BUFSIZ [] := by
  rintro U e st s h rfl holds points - -
  rw [unify_nil (points.deref holds), tokens_nil]
  cases s with
  | nil =>
      refine ⟨fun _ => ⟨e, ⟨fun _ _ => rfl, rfl⟩, holds, fun v => ?_⟩, (fun no => by cases no), ?_⟩
      · exact ⟨Or.inl, fun h => h.resolve_right List.not_mem_nil⟩
      · exact ⟨Or.inl, fun h => h.resolve_right not_deadEnd_nil⟩
  | cons c s =>
      exact .refused holds rfl (fun b h => by cases (matches_nil.mp h).2) not_deadEnd_nil

/-- What is behind a part of the pattern that can only be read in one way. -/
theorem Result.behind {t : Tok Byte Var} {p : List (Tok Byte Var)} {front s : List Byte}
    {r : Bool × State} (bound : ∀ v, t = .var v → U v = true)
    (matches_iff : ∀ b s, Matches U e (t :: p) s b ↔ ∃ s', s = front ++ s' ∧ Matches U e p s' b)
    (deadEnd_iff : ∀ s, DeadEnd U e (t :: p) s ↔ ∃ s', s = front ++ s' ∧ DeadEnd U e p s')
    (result : Result BUFSIZ U e p s st r) : Result BUFSIZ U e (t :: p) (front ++ s) st r where
  succeeded done := by
    obtain ⟨b, matched, holds, used⟩ := result.succeeded done
    refine ⟨b, (matches_iff b _).mpr ⟨s, rfl, matched⟩, holds, fun v => (used v).trans ?_⟩
    rw [List.mem_cons]
    exact ⟨Or.imp_right Or.inr, fun h => h.elim Or.inl fun h => h.elim
      (fun same => Or.inl (bound v same.symm)) Or.inr⟩
  failed done := by
    obtain ⟨none, holds, used⟩ := result.failed done
    refine ⟨fun b h => ?_, holds, used⟩
    obtain ⟨s', same, h⟩ := (matches_iff b _).mp h
    rw [List.append_cancel_left_eq] at same
    exact none b (same ▸ h)
  strays := by
    rw [result.strays, deadEnd_iff]
    refine or_congr_right ⟨fun h => ⟨s, rfl, h⟩, ?_⟩
    rintro ⟨s', same, h⟩
    rw [List.append_cancel_left_eq] at same
    exact same ▸ h

theorem spec_lit {c : Byte} (other : c ≠ percent) (ih : Spec BUFSIZ p) : Spec BUFSIZ (c :: p) := by
  rintro U e st s h rfl holds points visible short
  rw [unify_lit (points.deref holds) other, tokens_lit other]
  cases s with
  | nil =>
      refine .refused holds rfl (fun b h => ?_) (fun h => ?_)
      · obtain ⟨s', same, -⟩ := matches_lit.mp h
        cases same
      · obtain ⟨s', same, -⟩ := deadEnd_lit.mp h
        cases same
  | cons d s =>
      by_cases same : d = c
      · subst same
        dsimp only
        rw [if_pos rfl]
        refine @Result.behind _ _ _ st (.lit d) (tokens p) [d] s _ (fun v h => by cases h)
          (fun b s => matches_lit) (fun s => deadEnd_lit) ?_
        exact ih rfl holds points (fun inside => visible (List.mem_cons_of_mem d inside))
          (Nat.lt_of_succ_lt short)
      · dsimp only
        rw [if_neg same]
        refine .refused holds rfl (fun b h => ?_) (fun h => ?_)
        · obtain ⟨s', equal, -⟩ := matches_lit.mp h
          exact same (List.cons_eq_cons.mp equal).1
        · obtain ⟨s', equal, -⟩ := deadEnd_lit.mp h
          exact same (List.cons_eq_cons.mp equal).1

theorem spec_bound (ih : Spec BUFSIZ (variableOf p).2) (used : st.used (variableOf p).1 = true)
    (holds : Holds BUFSIZ st e) (points : Points BUFSIZ st.used e h []) (visible : (0 : Byte) ∉ s)
    (short : s.length < BUFSIZ) :
    Result BUFSIZ st.used e (tokens (percent :: p)) s st
      (unify BUFSIZ s h (percent :: p) st) := by
  have start : Points BUFSIZ st.used e (.into (row BUFSIZ (variableOf p).1)) (e (variableOf p).1) :=
    ⟨_, [], used, rfl, by simp⟩
  rw [unify_bound (points.deref holds) used, tokens_percent]
  rcases @unify_walk _ _ _ _ _ s (variableOf p).2 holds start with
    ⟨rest, h', rfl, ended, equal⟩ | ⟨apart, equal⟩
  · rw [equal]
    refine .behind (fun v h => ?_) (fun b s => matches_bound used) (fun s => deadEnd_bound used) ?_
    · cases h
      exact used
    · rw [List.length_append] at short
      exact ih rfl holds ended (fun inside => visible (List.mem_append_right _ inside)) (by omega)
  · rw [equal]
    refine .refused holds rfl (fun b h => ?_) (fun h => ?_)
    · obtain ⟨s', rfl, -⟩ := (matches_bound used).mp h
      exact apart (List.prefix_append _ _)
    · obtain ⟨s', rfl, -⟩ := (deadEnd_bound used).mp h
      exact apart (List.prefix_append _ _)

/-- The assignment gives the variable the first `m` letters. -/
def Binds (U : Var → Bool) (e : Var → List Byte) (v : Var) (p : List (Tok Byte Var))
    (s : List Byte) (m : Nat) (b : Var → List Byte) : Prop :=
  Matches (bindVar U v) (Function.update e v (s.take m)) p (s.drop m) b

/-- What the loop does when the words of less than `n` letters are left to be tried. -/
structure Tried (BUFSIZ : Nat) (U : Var → Bool) (e : Var → List Byte) (v : Var)
    (p : List (Tok Byte Var)) (s : List Byte) (n : Nat) (st : State) (r : Bool × State) : Prop where
  succeeded : r.1 = true → ∃ m < n, ∃ b, Binds U e v p s m b ∧ Holds BUFSIZ r.2 b ∧
    ∀ u, r.2.used u = true ↔ bindVar U v u = true ∨ Tok.var u ∈ p
  failed : r.1 = false → (∀ m < n, ∀ b, ¬Binds U e v p s m b) ∧ Holds BUFSIZ r.2 e ∧ r.2.used = U
  strays : Strays BUFSIZ r.2 ↔ Strays BUFSIZ st ∨ (0 < n ∧ ∀ m < n, ∀ b, ¬Binds U e v p s m b) ∨
    ∃ m < n, DeadEnd (bindVar U v) (Function.update e v (s.take m)) p (s.drop m) ∧
      ∀ k, m < k → k < n → ∀ b, ¬Binds U e v p s k b

/-- A variable whose words have all failed is free again. -/
theorem Holds.release {v : Var} {w : List Byte} (unbound : U v = false)
    (used : st.used = bindVar U v) (holds : Holds BUFSIZ st (Function.update e v w)) :
    Holds BUFSIZ (st.setUsed v false) e ∧ (st.setUsed v false).used = U := by
  have back : (st.setUsed v false).used = U := by
    rw [State.setUsed, used, bindVar, Function.update_idem, ← unbound, Function.update_eq_self]
  refine ⟨⟨fun u busy => ?_, fun u busy => ?_⟩, back⟩ <;>
    rw [back] at busy <;>
    have other : u ≠ v := fun same => by rw [same, unbound] at busy; cases busy
  · have string := holds.text u (by rw [used, bindVar, Function.update_of_ne other]; exact busy)
    rwa [Function.update_of_ne other] at string
  · have fits := holds.short u (by rw [used, bindVar, Function.update_of_ne other]; exact busy)
    rwa [Function.update_of_ne other] at fits

/-- One more word has failed. -/
theorem one_more {β : Type} {A : Nat → β → Prop} {D : Nat → Prop} {n : Nat} (none : ∀ b, ¬A n b) :
    (D n ∨ n = 0) ∨ (0 < n ∧ ∀ m < n, ∀ b, ¬A m b) ∨
      (∃ m < n, D m ∧ ∀ k, m < k → k < n → ∀ b, ¬A k b) ↔
    (0 < n + 1 ∧ ∀ m < n + 1, ∀ b, ¬A m b) ∨
      ∃ m < n + 1, D m ∧ ∀ k, m < k → k < n + 1 → ∀ b, ¬A k b := by
  have upTo : ∀ {m : Nat}, m < n + 1 → m < n ∨ m = n := fun less => by omega
  constructor
  · rintro ((dead | rfl) | ⟨-, earlier⟩ | ⟨m, less, dead, later⟩)
    · exact Or.inr ⟨n, Nat.lt_succ_self n, dead, fun k more less => by omega⟩
    · refine Or.inl ⟨Nat.one_pos, fun m less => ?_⟩
      rwa [Nat.lt_one_iff.mp less]
    · refine Or.inl ⟨Nat.succ_pos n, fun m less => ?_⟩
      rcases upTo less with below | rfl
      · exact earlier m below
      · exact none
    · refine Or.inr ⟨m, Nat.lt_succ_of_lt less, dead, fun k more less => ?_⟩
      rcases upTo less with below | rfl
      · exact later k more below
      · exact none
  · rintro (⟨-, earlier⟩ | ⟨m, less, dead, later⟩)
    · rcases Nat.eq_zero_or_pos n with zero | pos
      · exact Or.inl (Or.inr zero)
      · exact Or.inr (Or.inl ⟨pos, fun m less => earlier m (Nat.lt_succ_of_lt less)⟩)
    · rcases upTo less with below | rfl
      · exact Or.inr (Or.inr ⟨m, below, dead, fun k more less =>
          later k more (Nat.lt_succ_of_lt less)⟩)
      · exact Or.inl (Or.inl dead)

/-- The loop over the words for a variable that is met for the first time. -/
theorem bindings_spec {v : Var} (ih : Spec BUFSIZ p) (unbound : U v = false)
    (points : Points BUFSIZ U e h []) (visible : (0 : Byte) ∉ s) (short : s.length < BUFSIZ)
    {n : Nat} (within : n ≤ s.length + 1) (used : st.used = bindVar U v)
    (holds : Holds BUFSIZ st (Function.update e v (s.take (n - 1)))) :
    Tried BUFSIZ U e v (tokens p) s n st (bindings BUFSIZ n s h v p st) := by
  induction n generalizing st with
  | zero =>
      rw [bindings]
      refine ⟨fun no => (by cases no), fun _ => ⟨fun m less => (by cases less), ?_⟩, Or.inl, ?_⟩
      · exact holds.release unbound used
      · rintro (strays | ⟨no, -⟩ | ⟨m, no, -⟩)
        · exact strays
        · cases no
        · cases no
  | succ n again =>
      have result := @ih _ _ st (s.drop n) h used holds (points.bind unbound)
        (fun inside => visible (List.mem_of_mem_drop inside)) (by rw [List.length_drop]; omega)
      rw [Nat.add_sub_cancel] at result
      rw [bindings]
      cases answer : unify BUFSIZ (s.drop n) h p st with
      | mk success st' =>
          rw [answer] at result
          cases success with
          | true =>
              obtain ⟨b, matched, holds', used'⟩ := result.succeeded rfl
              refine ⟨fun _ => ⟨n, Nat.lt_succ_self n, b, matched, holds', used'⟩,
                fun no => (by cases no), result.strays.trans (or_congr_right ?_)⟩
              constructor
              · intro deadEnd
                exact Or.inr ⟨n, Nat.lt_succ_self n, deadEnd, fun k more less => by omega⟩
              · rintro (⟨-, none⟩ | ⟨m, less, deadEnd, later⟩)
                · exact absurd matched (none n (Nat.lt_succ_self n) b)
                · rcases Nat.lt_or_eq_of_le (Nat.le_of_lt_succ less) with below | rfl
                  · exact absurd matched (later n below (Nat.lt_succ_self n) b)
                  · exact deadEnd
          | false =>
              obtain ⟨none, holds', used'⟩ := result.failed rfl
              have busy : st'.used v = true := by rw [used', bindVar, Function.update_self]
              have tried := @again (st'.store BUFSIZ v (n - 1) 0) (by omega) used'
                (holds'.cut busy (by omega))
              refine ⟨fun done => ?_, fun done => ?_, ?_⟩
              · obtain ⟨m, less, rest⟩ := tried.succeeded done
                exact ⟨m, Nat.lt_succ_of_lt less, rest⟩
              · obtain ⟨earlier, rest⟩ := tried.failed done
                refine ⟨fun m less => ?_, rest⟩
                rcases Nat.lt_or_eq_of_le (Nat.le_of_lt_succ less) with below | rfl
                · exact earlier m below
                · exact none
              · have last : Outside BUFSIZ ((n : Int) - 1) ↔ n = 0 := by
                  rw [Outside]
                  omega
                rw [tried.strays, strays_store, result.strays, last, or_assoc, or_assoc,
                  ← one_more none, or_assoc]

theorem spec_free (ih : Spec BUFSIZ (variableOf p).2) (unused : st.used (variableOf p).1 = false)
    (holds : Holds BUFSIZ st e) (points : Points BUFSIZ st.used e h []) (visible : (0 : Byte) ∉ s)
    (short : s.length < BUFSIZ) :
    Result BUFSIZ st.used e (tokens (percent :: p)) s st
      (unify BUFSIZ s h (percent :: p) st) := by
  generalize same : (variableOf p).1 = v at unused
  obtain ⟨frame, string, used, strays⟩ := copy_spec v 0 s st visible (Int.le_refl 0)
    (by rw [Int.zero_add]; exact_mod_cast short)
  rw [Int.add_zero] at frame string
  have start : Holds BUFSIZ ((copy BUFSIZ v 0 s st).setUsed v true)
      (Function.update e v (s.take (s.length + 1 - 1))) := by
    rw [Nat.add_sub_cancel, List.take_length]
    refine ⟨fun u busy => ?_, fun u busy => ?_⟩ <;> by_cases other : u = v
    · subst other
      rwa [Function.update_self]
    · rw [Function.update_of_ne other]
      simp only [State.setUsed, used, Function.update_of_ne other] at busy
      have fits := holds.short u busy
      refine (holds.text u busy).congr fun x low high => frame x ?_
      rcases @row_apart BUFSIZ u v other with before | behind <;> omega
    · subst other
      rwa [Function.update_self]
    · rw [Function.update_of_ne other]
      simp only [State.setUsed, used, Function.update_of_ne other] at busy
      exact holds.short u busy
  have tried := bindings_spec ih unused points visible short (Nat.le_refl _)
    (congrArg (bindVar · v) used) start
  rw [unify_free (points.deref holds) (same ▸ unused), tokens_percent, same]
  have binds_iff : (∀ m < s.length + 1, ∀ b, ¬Binds st.used e v (tokens (variableOf p).2) s m b) ↔
      ∀ b, ¬Matches st.used e (.var v :: tokens (variableOf p).2) s b := by
    constructor
    · intro none b matched
      obtain ⟨n, short, -, binds⟩ := (matches_free unused).mp matched
      exact none n (Nat.lt_succ_of_le short) b binds
    · intro none m less b binds
      refine none b ((matches_free unused).mpr ⟨m, Nat.le_of_lt_succ less, ?_, binds⟩)
      rw [((agree_bind unused).mp binds.agree).2, List.length_take,
        Nat.min_eq_left (Nat.le_of_lt_succ less)]
  refine ⟨fun done => ?_, fun done => ?_, ?_⟩
  · obtain ⟨m, less, b, binds, holds', used'⟩ := tried.succeeded done
    have width : (b v).length = m := by
      rw [((agree_bind unused).mp binds.agree).2, List.length_take,
        Nat.min_eq_left (Nat.le_of_lt_succ less)]
    refine ⟨b, (matches_free unused).mpr ⟨m, Nat.le_of_lt_succ less, width, binds⟩, holds',
      fun u => (used' u).trans ?_⟩
    rw [List.mem_cons, Tok.var.injEq]
    by_cases other : u = v
    · rw [other, bindVar, Function.update_self]
      exact ⟨fun _ => Or.inr (Or.inl rfl), fun _ => Or.inl rfl⟩
    · rw [bindVar, Function.update_of_ne other]
      exact or_congr_right (or_iff_right other).symm
  · obtain ⟨none, rest⟩ := tried.failed done
    exact ⟨binds_iff.mp none, rest⟩
  · have before : Strays BUFSIZ ((copy BUFSIZ v 0 s st).setUsed v true) ↔ Strays BUFSIZ st := strays
    rw [tried.strays, before, deadEnd_free unused, ← binds_iff]
    refine or_congr_right (or_congr (and_iff_right (Nat.succ_pos _)) ?_)
    refine exists_congr fun m => and_congr Nat.lt_succ_iff (and_congr_right fun _ => ?_)
    refine forall_congr' fun k => imp_congr_right fun _ => imp_congr_left Nat.lt_succ_iff

theorem spec_percent (ih : Spec BUFSIZ (variableOf p).2) : Spec BUFSIZ (percent :: p) := by
  rintro U e st s h rfl holds points visible short
  cases used : st.used (variableOf p).1 with
  | true => exact spec_bound ih used holds points visible short
  | false => exact spec_free ih used holds points visible short

theorem unify_spec (p : List Byte) : Spec BUFSIZ p := by
  induction size : p.length using Nat.strong_induction_on generalizing p with
  | _ n ih =>
      subst size
      cases p with
      | nil => exact spec_nil
      | cons c p =>
          by_cases other : c = percent
          · subst other
            have rest : Spec BUFSIZ (variableOf p).2 :=
              ih _ (Nat.lt_succ_of_le (length_variableOf p)) _ rfl
            exact spec_percent rest
          · exact spec_lit other (ih _ (Nat.lt_succ_self p.length) p rfl)

theorem substitute_eq {b : Var → List Byte} (holds : Holds BUFSIZ st b) (plain : backslash ∉ p)
    (used : ∀ v, Tok.var v ∈ tokens p → st.used v = true) :
    substitute BUFSIZ st p = some (expand b (tokens p)) := by
  induction size : p.length using Nat.strong_induction_on generalizing p with
  | _ n ih =>
      subst size
      cases p with
      | nil => rw [substitute, tokens_nil, expand_nil]
      | cons c p =>
          have head : c ≠ backslash := fun same => plain (same ▸ List.mem_cons_self)
          have tail : backslash ∉ p := fun inside => plain (List.mem_cons_of_mem c inside)
          rw [substitute]
          by_cases other : c = percent
          · subst other
            rw [tokens_percent] at used ⊢
            have busy := used _ List.mem_cons_self
            have behind : backslash ∉ (variableOf p).2 := by
              cases p with
              | nil => exact List.not_mem_nil
              | cons d p =>
                  rw [variableOf]
                  split
                  · exact fun inside => tail (List.mem_cons_of_mem d inside)
                  · exact tail
            have rest := @ih _ (Nat.lt_succ_of_le (length_variableOf p)) _ behind
              (fun v inside => used v (List.mem_cons_of_mem _ inside)) rfl
            rw [if_neg (not_not_intro rfl), if_neg (by rw [busy]; exact Bool.noConfusion),
              text_eq (holds.text _ busy) (holds.short _ busy), rest]
            rfl
          · rw [tokens_lit other] at used ⊢
            have rest := @ih _ (Nat.lt_succ_self p.length) _ tail
              (fun v inside => used v (List.mem_cons_of_mem _ inside)) rfl
            rw [if_pos other, if_neg (fun h => head h.1), rest]
            rfl

end Search

/-! ## Pattern rules -/

/-- Before a search no variable is in use, and nothing has been stored. -/
structure Fresh (st : State) : Prop where
  unused : ∀ v, st.used v = false
  unwritten : st.stores = []

/-- What is expected of a search for a name. -/
structure Unified (BUFSIZ : Nat) (s p : List Byte) (st : State) : Prop where
  returns : (unify BUFSIZ s .literal p st).1 = true ↔ ∃ b, expand b (tokens p) = s
  marks : (unify BUFSIZ s .literal p st).1 = true →
    ∀ v, (unify BUFSIZ s .literal p st).2.used v = true ↔ Tok.var v ∈ tokens p
  reproduces : (unify BUFSIZ s .literal p st).1 = true → backslash ∉ p →
    instant BUFSIZ (unify BUFSIZ s .literal p st).2 (some p) = some s
  released : (unify BUFSIZ s .literal p st).1 = false →
    ∀ v, (unify BUFSIZ s .literal p st).2.used v = false
  within : ∀ x ∈ (unify BUFSIZ s .literal p st).2.stores, 0 ≤ x.2 ∧ x.2 < BUFSIZ

section Rules

variable {s p : List Byte} {st : State}

theorem result (text : (0 : Byte) ∉ s) (short : s.length < BUFSIZ) (fresh : Fresh st) :
    Result BUFSIZ (fun _ => false) (fun _ => []) (tokens p) s st
      (unify BUFSIZ s .literal p st) := by
  have holds : Holds BUFSIZ st fun _ => [] :=
    ⟨fun v busy => absurd busy (fresh.unused v ▸ Bool.false_ne_true),
      fun v busy => absurd busy (fresh.unused v ▸ Bool.false_ne_true)⟩
  exact unify_spec p (funext fresh.unused) holds rfl text short

theorem matches_free_iff {b : Var → List Byte} :
    Matches (fun _ => false) (fun _ => []) (tokens p) s b ↔ expand b (tokens p) = s :=
  ⟨Matches.expand_eq, fun h => ⟨fun _ no => (by cases no), h⟩⟩

/-- Every store stays inside its row exactly when the search comes to no dead end. -/
theorem within_iff (text : (0 : Byte) ∉ s) (short : s.length < BUFSIZ) (fresh : Fresh st) :
    (∀ x ∈ (unify BUFSIZ s .literal p st).2.stores, 0 ≤ x.2 ∧ x.2 < BUFSIZ) ↔
      ¬DeadEnd (fun _ => false) (fun _ => []) (tokens p) s := by
  have none : ¬Strays BUFSIZ st := by
    rintro ⟨x, inside, -⟩
    rw [fresh.unwritten] at inside
    cases inside
  rw [← not_iff_not, not_not]
  refine Iff.trans ?_ ((result text short fresh).strays.trans (or_iff_right none))
  simp only [Strays, not_forall, Outside, exists_prop, not_and_or, Int.not_le, Int.not_lt]

/-- A search does all that is expected of it exactly when it comes to no dead end; otherwise it
stores a terminator before a row. -/
theorem unified_iff (text : (0 : Byte) ∉ s) (short : s.length < BUFSIZ) (fresh : Fresh st) :
    Unified BUFSIZ s p st ↔ ¬DeadEnd (fun _ => false) (fun _ => []) (tokens p) s := by
  refine ⟨fun h => (within_iff text short fresh).mp h.within, fun smooth => ?_⟩
  have result := @result BUFSIZ s p st text short fresh
  refine ⟨⟨fun done => ?_, ?_⟩, fun done v => ?_, fun done plain => ?_, fun done v => ?_,
    (within_iff text short fresh).mpr smooth⟩
  · obtain ⟨b, matched, -⟩ := result.succeeded done
    exact ⟨b, matched.expand_eq⟩
  · rintro ⟨b, equal⟩
    refine Bool.eq_true_of_not_eq_false fun done => ?_
    exact (result.failed done).1 b (matches_free_iff.mpr equal)
  · obtain ⟨b, -, -, used⟩ := result.succeeded done
    rw [used v]
    exact or_iff_right Bool.false_ne_true
  · obtain ⟨b, matched, holds, used⟩ := result.succeeded done
    rw [instant, substitute_eq holds plain (fun v inside => (used v).mpr (Or.inr inside)),
      matched.expand_eq]
  · rw [(result.failed done).2.2]

end Rules

/-- Nothing in use, nothing stored. -/
def start : State where
  mem _ := 0
  used _ := false
  stores := []

/-- `%.o`. -/
def objects : List Byte := [37, 46, 111]

theorem tokens_objects : tokens objects = [.var 0, .lit 46, .lit 111] := by
  rw [objects, show (37 : Byte) = percent from rfl, tokens_percent]
  simp only [variableOf, show isDigit 10 46 = false from rfl, Bool.false_eq_true, if_false]
  rw [tokens_lit (by decide), tokens_lit (by decide), tokens_nil]

/-- `x.o` is an object. -/
theorem unified_object : Unified 1024 [120, 46, 111] objects start := by
  refine (unified_iff (by decide) (by decide) ⟨fun _ => rfl, rfl⟩).mpr ?_
  rw [tokens_objects, deadEnd_free rfl]
  rintro (none | ⟨n, -, deadEnd, -⟩)
  · exact none (fun _ => [120]) ⟨fun _ no => (by cases no), rfl⟩
  · obtain ⟨s, -, deadEnd⟩ := deadEnd_lit.mp deadEnd
    obtain ⟨s, -, deadEnd⟩ := deadEnd_lit.mp deadEnd
    exact not_deadEnd_nil deadEnd

/-- `x.c` is not, and to find that out a byte before the rows is overwritten. -/
theorem not_unified_source : ¬Unified 1024 [120, 46, 99] objects start := by
  intro h
  refine (within_iff (by decide) (by decide) ⟨fun _ => rfl, rfl⟩).mp h.within ?_
  rw [tokens_objects, deadEnd_free rfl]
  refine Or.inl fun b h => ?_
  have last := congrArg List.getLast? (matches_free_iff.mp (tokens_objects ▸ h))
  rw [tokens_objects, expand_var, List.getLast?_append] at last
  cases last

end MachFormal.Make.Unify
