import MachFormal.Make.Canon
import Mathlib.Data.List.Forall2
import Mathlib.Data.List.GetD

/-!
# The buffer of a canonical name

`canon` works in the string itself: the pointers `p`, `q` and `r` and those on the stack are
indices, and a character is stored only inside of the string.  The pointers on the stack find
what they pointed to, since `p` never overtakes them.
-/

namespace MachFormal.Make.InPlace

open Library.Paths Library.Lexical Make.Canon

def MAXPATHLEN : Nat := 1024

/-- What a pointer points to. -/
def at_ (m : List Byte) (q : Nat) : Byte := m.getD q 0

/-- A store outside of the string has no result. -/
def store (m : List Byte) (p : Nat) (c : Byte) : Option (List Byte) :=
  if p < m.length then some (m.set p c) else none

def storeAll (m : List Byte) (p : Nat) : List Byte → Option (List Byte)
  | [] => some m
  | c :: s => (store m p c).bind fun m => storeAll m (p + 1) s

/-- `while (*q && *q != '/') q++`. -/
def toSlash (m : List Byte) (q : Nat) : Nat :=
  if q < m.length ∧ at_ m q ≠ 0 ∧ at_ m q ≠ slash then toSlash m (q + 1) else q
termination_by m.length - q

/-- `while (*q == '/') q++`. -/
def overSlashes (m : List Byte) (q : Nat) : Nat :=
  if q < m.length ∧ at_ m q = slash then overSlashes m (q + 1) else q
termination_by m.length - q

/-- The string, what `p` is, and the stack with the last pointer in front. -/
structure Work where
  m : List Byte
  p : Nat
  stack : List Nat

/-- The component from `r` to `q`. -/
def component (w : Work) (r q : Nat) : Option Work :=
  if q = r + 1 ∧ at_ w.m r = dot then some w
  else if q ≠ r + 2 ∨ at_ w.m r ≠ dot ∨ at_ w.m (r + 1) ≠ dot then
    if w.stack.length < MAXPATHLEN / 2 then some { w with stack := r :: w.stack } else none
  else
    match w.stack with
    | _ :: stack => some { w with stack := stack }
    | [] =>
        let s := [dot, dot] ++ if at_ w.m q = 0 then [] else [slash]
        (storeAll w.m w.p s).map fun m => ⟨m, w.p + s.length, []⟩

theorem le_toSlash (m : List Byte) (q : Nat) : q ≤ toSlash m q := by
  rw [toSlash]
  split
  · exact Nat.le_trans (Nat.le_succ q) (le_toSlash m (q + 1))
  · exact Nat.le_refl q
termination_by m.length - q

theorem le_overSlashes (m : List Byte) (q : Nat) : q ≤ overSlashes m q := by
  rw [overSlashes]
  split
  · exact Nat.le_trans (Nat.le_succ q) (le_overSlashes m (q + 1))
  · exact Nat.le_refl q
termination_by m.length - q

theorem length_storeAll {m m' : List Byte} {p : Nat} {s : List Byte}
    (h : storeAll m p s = some m') : m'.length = m.length := by
  induction s generalizing m p with
  | nil => exact congrArg List.length (Option.some.inj h).symm
  | cons c s ih =>
      rw [storeAll, store] at h
      split at h
      · rw [Option.bind_some] at h
        rw [ih h, List.length_set]
      · cases h

theorem length_component {w w' : Work} {r q : Nat} (h : component w r q = some w') :
    w'.m.length = w.m.length := by
  rw [component] at h
  split at h
  · cases h
    rfl
  · split at h
    · split at h
      · cases h
        rfl
      · cases h
    · split at h
      · cases h
        rfl
      · obtain ⟨m, stored, rfl⟩ := Option.map_eq_some_iff.mp h
        exact length_storeAll stored

/-- The loop over the components. -/
def scan (w : Work) (r : Nat) : Option Work :=
  if r < w.m.length ∧ at_ w.m r ≠ 0 then
    let q := toSlash w.m (r + 1)
    match _h : component w r q with
    | none => none
    | some w' => scan w' (overSlashes w'.m q)
  else some w
termination_by w.m.length - r
decreasing_by
  have same := length_component _h
  have one := le_toSlash w.m (r + 1)
  have two := le_overSlashes w'.m (toSlash w.m (r + 1))
  omega

/-- A component is copied, with the slash behind it. -/
def copy (m : List Byte) (p q : Nat) : Option (List Byte × Nat) :=
  if q < m.length ∧ at_ m q ≠ 0 then
    match h : store m p (at_ m q) with
    | none => none
    | some m' => if at_ m q = slash then some (m', p + 1) else copy m' (p + 1) (q + 1)
  else some (m, p)
termination_by m.length - q
decreasing_by
  rw [store] at h
  split at h
  · cases h
    rw [List.length_set]
    omega
  · cases h

/-- The components on the stack, from the bottom. -/
def copyAll (m : List Byte) (p : Nat) : List Nat → Option (List Byte × Nat)
  | [] => some (m, p)
  | q :: pointers => (copy m p q).bind fun (m, p) => copyAll m p pointers

/-- `canon`, from the string with its terminator to the string with its terminator and what
the buffer still holds behind it. -/
def canon (m : List Byte) : Option (List Byte) := do
  let (p, q) := if at_ m 0 = slash then (1, overSlashes m 1) else (0, 0)
  let w ← scan ⟨m, p, []⟩ q
  let (m, p) ← copyAll w.m w.p w.stack.reverse
  let p := if 1 < p ∧ at_ m (p - 1) = slash then p - 1 else p
  store m p 0

/-- The string in a buffer. -/
def text (m : List Byte) : List Byte := m.takeWhile fun c => c ≠ 0

/-! ## Pointers -/

section Pointers

variable {m m' : List Byte} {p q : Nat} {r s : List Byte} {c : Byte}

/-- A pointer to a rest of the string. -/
structure Points (m : List Byte) (q : Nat) (r : List Byte) : Prop where
  rest : m.drop q = r ++ [0]
  visible : (0 : Byte) ∉ r

theorem Points.length (h : Points m q r) : q + r.length + 1 = m.length := by
  have length := congrArg List.length h.rest
  rw [List.length_drop, List.length_append, List.length_singleton] at length
  omega

theorem at_drop (m : List Byte) (q i : Nat) : at_ m (q + i) = (m.drop q).getD i 0 := by
  rw [at_, List.getD_eq_getElem?_getD, List.getD_eq_getElem?_getD, List.getElem?_drop]

theorem Points.get (h : Points m q r) (i : Nat) : at_ m (q + i) = r.getD i 0 := by
  rw [at_drop, h.rest]
  by_cases less : i < r.length
  · rw [List.getD_append _ _ _ _ less]
  · rw [List.getD_append_right _ _ _ _ (Nat.le_of_not_lt less),
      List.getD_eq_default _ _ (Nat.le_of_not_lt less)]
    cases i - r.length <;> rfl

theorem Points.zero_iff (h : Points m q r) : at_ m q = 0 ↔ r = [] := by
  have first := h.get 0
  rw [Nat.add_zero] at first
  rw [first]
  cases r with
  | nil => exact ⟨fun _ => rfl, fun _ => rfl⟩
  | cons c r =>
      refine ⟨fun zero => absurd (zero ▸ List.mem_cons_self) h.visible, fun no => (by cases no)⟩

theorem Points.within (h : Points m q r) : q < m.length := by
  have := h.length
  omega

theorem Points.advance (h : Points m q (c :: r)) : Points m (q + 1) r := by
  refine ⟨?_, fun inside => h.visible (List.mem_cons_of_mem c inside)⟩
  rw [← List.drop_drop, h.rest]
  rfl

/-- What is stored in front of a pointer does not concern it. -/
theorem Points.set (h : Points m q r) (less : p < q) (c : Byte) : Points (m.set p c) q r := by
  refine ⟨?_, h.visible⟩
  rw [List.drop_set_of_lt less, h.rest]

theorem component_cons (other : c ≠ slash) (r : List Byte) :
    Canon.component (c :: r) = c :: Canon.component r :=
  List.takeWhile_cons_of_pos (by simp [other])

theorem after_cons (other : c ≠ slash) (r : List Byte) : after (c :: r) = after r :=
  List.dropWhile_cons_of_pos (by simp [other])

theorem toSlash_spec (h : Points m q r) :
    toSlash m q = q + (Canon.component r).length ∧
      Points m (q + (Canon.component r).length) (after r) := by
  induction r generalizing q with
  | nil =>
      rw [toSlash, if_neg fun no => no.2.1 (h.zero_iff.mpr rfl)]
      exact ⟨rfl, h⟩
  | cons c r ih =>
      have here : at_ m q = c := h.get 0
      rw [toSlash, here]
      by_cases stop : c = slash
      · rw [if_neg fun no => no.2.2 stop, Canon.component, after,
          List.takeWhile_cons_of_neg (by simp [stop]), List.dropWhile_cons_of_neg (by simp [stop])]
        exact ⟨rfl, h⟩
      · have some : c ≠ 0 := fun zero => h.visible (zero ▸ List.mem_cons_self)
        obtain ⟨stops, points⟩ := ih h.advance
        rw [if_pos ⟨h.within, some, stop⟩, stops, component_cons stop, after_cons stop,
          List.length_cons]
        have place : q + ((Canon.component r).length + 1) = q + 1 + (Canon.component r).length := by
          omega
        rw [place]
        exact ⟨rfl, points⟩

theorem overSlashes_spec (h : Points m q r) :
    Points m (overSlashes m q) (skip r) := by
  induction r generalizing q with
  | nil =>
      have none : at_ m q ≠ slash := by
        rw [h.zero_iff.mpr rfl]
        decide
      rw [overSlashes, if_neg fun no => none no.2]
      exact h
  | cons c r ih =>
      have here : at_ m q = c := h.get 0
      rw [overSlashes, here]
      by_cases more : c = slash
      · rw [if_pos ⟨h.within, more⟩, skip, List.dropWhile_cons_of_pos (by simp [more])]
        exact ih h.advance
      · rw [if_neg fun no => more no.2, skip, List.dropWhile_cons_of_neg (by simp [more])]
        exact h

theorem store_spec (room : p < m.length) (c : Byte) :
    store m p c = some (m.set p c) ∧ (m.set p c).take (p + 1) = m.take p ++ [c] := by
  have room' : p < (m.set p c).length := by rwa [List.length_set]
  refine ⟨if_pos room, ?_⟩
  rw [List.take_succ_eq_append_getElem room', List.take_set_of_le (Nat.le_refl p),
    List.getElem_set_self]

/-- Characters are stored one behind the other. -/
theorem storeAll_spec (room : p + s.length ≤ m.length) :
    ∃ m', storeAll m p s = some m' ∧ m'.take (p + s.length) = m.take p ++ s ∧
      ∀ q r, p + s.length ≤ q → Points m q r → Points m' q r := by
  induction s generalizing m p with
  | nil => exact ⟨m, rfl, (List.append_nil _).symm, fun q r _ h => h⟩
  | cons c s ih =>
      rw [List.length_cons] at room
      obtain ⟨stored, front⟩ := store_spec (show p < m.length by omega) c
      obtain ⟨m', rest, whole, points⟩ := ih (m := m.set p c) (p := p + 1)
        (by rw [List.length_set]; omega)
      have place : p + (c :: s).length = p + 1 + s.length := by
        rw [List.length_cons]
        omega
      rw [storeAll, stored, place]
      refine ⟨m', rest, ?_, fun q r le h => points q r le (h.set (by omega) c)⟩
      rw [whole, front, List.append_assoc]
      rfl

/-- Nothing changes where the characters already stand. -/
theorem storeAll_same (same : s <+: m.drop p) : storeAll m p s = some m := by
  induction s generalizing p with
  | nil => rfl
  | cons c s ih =>
      obtain ⟨t, same⟩ := same
      have room : p < m.length := by
        have length := congrArg List.length same
        rw [List.length_drop, List.cons_append, List.length_cons] at length
        omega
      rw [List.drop_eq_getElem_cons room, List.cons_append, List.cons_eq_cons] at same
      rw [storeAll, (store_spec room c).1, Option.bind_some, same.1, List.set_getElem_self]
      exact ih ⟨t, same.2⟩

end Pointers

/-! ## The first pass -/

section FirstPass

variable {n r q : Nat} {w w' : Work} {rr t : List Byte} {c : Byte} {st : Scan}

/-- The buffer holds what has been written, and the pointers on the stack their components. -/
structure Holds (n : Nat) (w : Work) (st : Scan) : Prop where
  length : w.m.length = n + 1
  out : w.m.take w.p = st.out
  p : w.p = st.out.length
  stack : List.Forall₂ (Points w.m) w.stack st.stack

theorem scan_end (h : Points w.m r []) : scan w r = some w := by
  rw [scan, if_neg fun no => no.2 (h.zero_iff.mpr rfl)]

theorem scan_next (h : Points w.m r rr) (filled : rr ≠ [])
    (step : component w r (toSlash w.m (r + 1)) = some w') :
    scan w r = scan w' (overSlashes w'.m (toSlash w.m (r + 1))) := by
  rw [scan, if_pos ⟨h.within, fun zero => filled (h.zero_iff.mp zero)⟩]
  dsimp only
  split
  · rename_i none
    cases step.symm.trans none
  · rename_i w'' some
    cases step.symm.trans some
    rfl

theorem cons_of_component (some : Canon.component rr ≠ []) : ∃ c t, rr = c :: t ∧ c ≠ slash := by
  cases rr with
  | nil => exact absurd rfl some
  | cons c t =>
      refine ⟨c, t, rfl, ?_⟩
      rintro rfl
      exact some (List.takeWhile_cons_of_neg (by simp))

/-- What the two tests of a component read. -/
theorem component_reads (points : Points w.m r rr) (some : Canon.component rr ≠ []) :
    (toSlash w.m (r + 1) = r + 1 ∧ at_ w.m r = dot ↔ Canon.component rr = [dot]) ∧
      (toSlash w.m (r + 1) ≠ r + 2 ∨ at_ w.m r ≠ dot ∨ at_ w.m (r + 1) ≠ dot ↔
        Canon.component rr ≠ [dot, dot]) := by
  obtain ⟨c, t, rfl, other⟩ := cons_of_component some
  have first : at_ w.m r = c := points.get 0
  have second : at_ w.m (r + 1) = t.getD 0 0 := points.get 1
  rw [(toSlash_spec points.advance).1]
  constructor
  · rw [component_cons other, first, List.cons_eq_cons, and_comm]
    refine and_congr_right fun _ => ⟨fun h => ?_, fun h => by rw [h]; rfl⟩
    exact List.length_eq_zero_iff.mp (by omega)
  · rw [← not_iff_not]
    simp only [not_or, not_not, Ne]
    rw [component_cons other, first, second, List.cons_eq_cons, and_left_comm]
    refine and_congr_right fun _ => ?_
    cases t with
    | nil => exact ⟨fun h => absurd h.1 (by simp [Canon.component]), fun h => (by cases h)⟩
    | cons d t =>
        by_cases stop : d = slash
        · subst stop
          rw [show Canon.component (slash :: t) = [] from List.takeWhile_cons_of_neg (by simp)]
          exact ⟨fun h => absurd h.1 (by simp), fun h => (by cases h)⟩
        · rw [component_cons stop, List.cons_eq_cons, List.getD_cons_zero, and_comm]
          refine and_congr_right fun _ => ⟨fun h => ?_, fun h => by rw [h]; rfl⟩
          refine List.length_eq_zero_iff.mp ?_
          rw [List.length_cons] at h
          omega

/-- A component that is looked at, with room on the stack if it goes there. -/
theorem component_spec (holds : Holds n w st) (points : Points w.m r rr)
    (some : Canon.component rr ≠ []) (behind : Behind n st.out st.stack rr.length)
    (room : Down dot (Canon.component rr) → st.stack.length < MAXPATHLEN / 2) :
    ∃ w', component w r (toSlash w.m (r + 1)) = Option.some w' ∧ Holds n w' (step rr st) ∧
      Points w'.m (toSlash w.m (r + 1)) (after rr) := by
  obtain ⟨one, two⟩ := component_reads points some
  obtain ⟨c, t, rfl, other⟩ := cons_of_component some
  obtain ⟨stops, rest⟩ := toSlash_spec points.advance
  have length := holds.stack.length_eq
  rw [stops] at one two
  rw [stops, after_cons other]
  rw [component, step]
  by_cases here : Canon.component (c :: t) = [dot]
  · rw [if_pos (one.mpr here), if_pos here]
    exact ⟨w, rfl, holds, rest⟩
  · rw [if_neg (mt one.mp here), if_neg here]
    by_cases up : Canon.component (c :: t) = [dot, dot]
    · rw [if_neg (mt two.mp (not_not_intro up)), if_neg (not_not_intro up)]
      have stops : (Canon.component t).length + 1 = 2 := by
        rw [component_cons other] at up
        exact congrArg List.length up
      obtain ⟨m, p, pointers⟩ := w
      obtain ⟨out, stack⟩ := st
      obtain ⟨wide, front, rfl, held⟩ := holds
      cases held with
      | cons pointer held => exact ⟨_, rfl, ⟨wide, front, rfl, held⟩, rest⟩
      | nil =>
          have after_nil : at_ m (r + 1 + (Canon.component t).length) = 0 ↔ after t = [] :=
            rest.zero_iff
          have place := points.length
          have fits : out.length + (c :: t).length ≤ n := behind
          rw [if_congr after_nil rfl rfl, after_cons other]
          generalize written : ([dot, dot] ++ if after t = [] then [] else [slash] : List Byte) = s
          dsimp only
          have short : s.length ≤ 3 := by
            rw [← written]
            split <;> decide
          have front_of : s <+: c :: t := by
            have whole := List.takeWhile_append_dropWhile (p := fun c => c ≠ slash) (l := c :: t)
            refine ⟨(after t).drop 1, ?_⟩
            rw [← whole]
            change _ = Canon.component (c :: t) ++ after (c :: t)
            rw [up, after_cons other, ← written]
            cases left : after t with
            | nil => rfl
            | cons b left' =>
                rw [dropWhile_delimiter slash left]
                rfl
          have fits' := front_of.length_le
          rw [wide] at place
          rcases Nat.lt_or_ge out.length r with less | same
          · obtain ⟨m', stored, text, kept⟩ := storeAll_spec (m := m) (p := out.length) (s := s)
              (by rw [wide]; omega)
            rw [stored]
            refine ⟨_, rfl, ⟨?_, text.trans (by rw [front]), List.length_append.symm, .nil⟩,
              kept _ _ (by omega) rest⟩
            exact (length_storeAll stored).trans wide
          · obtain rfl : out.length = r := by omega
            have prefixed : s <+: m.drop out.length := by
              rw [points.rest]
              exact front_of.trans (List.prefix_append _ _)
            rw [storeAll_same prefixed]
            refine ⟨_, rfl, ⟨wide, ?_, List.length_append.symm, .nil⟩, rest⟩
            change m.take (out.length + s.length) = out ++ s
            rw [List.take_add, front, ← List.prefix_iff_eq_take.mp prefixed]
    · rw [if_pos (two.mpr up), if_pos up, if_pos (length ▸ room ⟨some, here, up⟩)]
      exact ⟨_, rfl, ⟨holds.length, holds.out, holds.p, List.Forall₂.cons points holds.stack⟩,
        rest⟩

theorem component_full (holds : Holds n w st) (points : Points w.m r rr)
    (down : Down dot (Canon.component rr)) (full : ¬st.stack.length < MAXPATHLEN / 2) :
    component w r (toSlash w.m (r + 1)) = none := by
  obtain ⟨one, two⟩ := component_reads points down.1
  rw [component, if_neg (mt one.mp down.2.1), if_pos (two.mpr down.2.2),
    if_neg (holds.stack.length_eq ▸ full)]

theorem scan_none (points : Points w.m r rr) (filled : rr ≠ [])
    (step : component w r (toSlash w.m (r + 1)) = none) : scan w r = none := by
  rw [scan, if_pos ⟨points.within, fun zero => filled (points.zero_iff.mp zero)⟩]
  dsimp only
  split
  · rfl
  · rename_i w'' some
    cases step.symm.trans some

/-- Never more than `limit` components are pending, where `depth` are already. -/
def Shallow (limit depth : Nat) : List (List Byte) → Prop
  | [] => True
  | c :: cs =>
      if c = [dot] then Shallow limit depth cs
      else if c = [dot, dot] then Shallow limit (depth - 1) cs
      else depth < limit ∧ Shallow limit (depth + 1) cs

instance decidableShallow (limit depth : Nat) :
    (cs : List (List Byte)) → Decidable (Shallow limit depth cs)
  | [] => .isTrue trivial
  | c :: cs =>
      have := decidableShallow limit depth cs
      have := decidableShallow limit (depth - 1) cs
      have := decidableShallow limit (depth + 1) cs
      inferInstanceAs (Decidable (if c = [dot] then _ else if c = [dot, dot] then _ else _))

theorem shallow_of_le {limit depth : Nat} {cs : List (List Byte)}
    (few : depth + cs.length ≤ limit) : Shallow limit depth cs := by
  induction cs generalizing depth with
  | nil => trivial
  | cons c cs ih =>
      rw [List.length_cons] at few
      rw [Shallow]
      split
      · exact ih (by omega)
      · split
        · exact ih (by omega)
        · exact ⟨by omega, ih (by omega)⟩

/-- A name of at most `MAXPATHLEN` characters cannot fill the stack. -/
theorem shallow_of_short {f : List Byte} (short : f.length ≤ MAXPATHLEN) :
    Shallow (MAXPATHLEN / 2) 0 (components slash f) := by
  refine shallow_of_le ?_
  have double : ∀ cs : List (List Byte), (∀ c ∈ cs, c ≠ []) → 2 * cs.length ≤ size cs := by
    intro cs
    induction cs with
    | nil => exact fun _ => Nat.le_refl 0
    | cons c cs ih =>
        intro filled
        have rest := ih fun d inside => filled d (List.mem_cons_of_mem c inside)
        have positive := List.length_pos_iff.mpr (filled c List.mem_cons_self)
        rw [size_cons, List.length_cons]
        omega
  have whole : size (components slash f) ≤ f.length + 1 := size_components f
  have twice := double (components slash f) fun c inside => (components_simple inside).2
  rw [MAXPATHLEN] at short ⊢
  omega

theorem shallow_next (st : Scan) (some : Canon.component rr ≠ []) :
    Shallow (MAXPATHLEN / 2) st.stack.length (components slash rr) ↔
      (Down dot (Canon.component rr) → st.stack.length < MAXPATHLEN / 2) ∧
        Shallow (MAXPATHLEN / 2) (step rr st).stack.length
          (components slash (skip (after rr))) := by
  rw [components_eq some, Shallow, step]
  split
  · rename_i here
    exact ⟨fun h => ⟨fun down => absurd here down.2.1, h⟩, fun h => h.2⟩
  · rename_i here
    by_cases up : Canon.component rr = [dot, dot]
    · rw [if_pos up, if_neg (not_not_intro up)]
      obtain ⟨out, stack⟩ := st
      cases stack with
      | nil => exact ⟨fun h => ⟨fun down => absurd up down.2.2, h⟩, fun h => h.2⟩
      | cons q stack => exact ⟨fun h => ⟨fun down => absurd up down.2.2, h⟩, fun h => h.2⟩
    · rw [if_neg up, if_pos up]
      exact ⟨fun h => ⟨fun _ => h.1, h.2⟩, fun h => ⟨h.1 ⟨some, here, up⟩, h.2⟩⟩

/-- The first pass over the buffer is the first pass over the name, unless the stack is full. -/
theorem scan_spec (holds : Holds n w st) (points : Points w.m r rr)
    (first : rr = [] ∨ Canon.component rr ≠ []) (behind : Behind n st.out st.stack rr.length) :
    if Shallow (MAXPATHLEN / 2) st.stack.length (components slash rr) then
      ∃ w', scan w r = some w' ∧ Holds n w' (Canon.scan rr st)
    else scan w r = none := by
  classical
  induction size : rr.length using Nat.strong_induction_on generalizing r rr w st with
  | _ k ih =>
      subst size
      rcases first with rfl | some
      · rw [scan_end points, scan_nil, if_pos (show Shallow _ _ (components slash []) from trivial)]
        exact ⟨w, rfl, holds⟩
      · have filled : rr ≠ [] := by
          rintro rfl
          exact some rfl
        rw [if_congr (shallow_next st some) rfl rfl]
        by_cases room : Down dot (Canon.component rr) → st.stack.length < MAXPATHLEN / 2
        · obtain ⟨w', stepped, holds', points'⟩ := component_spec holds points some behind room
          rw [scan_next points filled stepped, Canon.scan_next some,
            if_congr (and_iff_right room) rfl rfl]
          exact ih _ (length_skip_after some) holds' (overSlashes_spec points') (first_skip _)
            (behind.step some) rfl
        · obtain ⟨down, full⟩ := Classical.not_imp.mp room
          rw [if_neg fun h => room h.1]
          exact scan_none points filled (component_full holds points down full)

end FirstPass

/-! ## The copies -/

section Copies

variable {n p q : Nat} {m : List Byte} {r out : List Byte} {limit : Nat}

theorem copy_spec (h : Points m q r) (le : p ≤ q) :
    ∃ m', copy m p q = some (m', p + (copied r).length) ∧
      m'.take (p + (copied r).length) = m.take p ++ copied r ∧ m'.length = m.length ∧
      ∀ i s, p + (copied r).length ≤ i → Points m i s → Points m' i s := by
  induction r generalizing m p q with
  | nil =>
      refine ⟨m, ?_, (List.append_nil _).symm, rfl, fun i s _ h => h⟩
      rw [copy, if_neg fun no => no.2 (h.zero_iff.mpr rfl)]
      rfl
  | cons c r ih =>
      have here : at_ m q = c := h.get 0
      have some : c ≠ 0 := fun zero => h.visible (zero ▸ List.mem_cons_self)
      have within := h.within
      obtain ⟨stored, front⟩ := store_spec (show p < m.length by omega) c
      have unfolded : copy m p q =
          if c = slash then Option.some (m.set p c, p + 1)
          else copy (m.set p c) (p + 1) (q + 1) := by
        rw [copy, if_pos ⟨within, by rwa [here]⟩]
        split
        · rename_i none
          rw [here, stored] at none
          cases none
        · rename_i m' same
          rw [here, stored] at same
          cases same
          rw [here]
      rw [unfolded]
      by_cases stop : c = slash
      · have all : copied (c :: r) = [c] := by
          rw [copied, after, Canon.component, List.takeWhile_cons_of_neg (by simp [stop]),
            List.dropWhile_cons_of_neg (by simp [stop])]
          rfl
        rw [if_pos stop, all]
        exact ⟨_, rfl, front, List.length_set, fun i s less h => h.set less c⟩
      · have all : copied (c :: r) = c :: copied r := by
          rw [copied, copied, component_cons stop, after_cons stop]
          rfl
        have later : Points (m.set p c) (q + 1) r := h.advance.set (by omega) c
        obtain ⟨m', rest, text, length, kept⟩ := ih later (by omega : p + 1 ≤ q + 1)
        have place : p + (c :: copied r).length = p + 1 + (copied r).length := by
          rw [List.length_cons]
          omega
        rw [if_neg stop, all, place]
        refine ⟨m', rest, ?_, length.trans List.length_set, fun i s less h => ?_⟩
        · rw [text, front, List.append_assoc]
          rfl
        · exact kept i s less (h.set (by omega) c)

theorem forall₂_imp_mem {α β : Type} {R S : α → β → Prop} {l : List α} {l' : List β}
    (h : List.Forall₂ R l l') (all : ∀ a, ∀ b ∈ l', R a b → S a b) : List.Forall₂ S l l' := by
  induction h with
  | nil => exact .nil
  | cons first _ ih =>
      exact .cons (all _ _ List.mem_cons_self first)
        (ih fun a b inside => all a b (List.mem_cons_of_mem _ inside))

/-- The components are copied down, each before it is overwritten. -/
theorem copyAll_spec {stack front back : List (List Byte)} {pointers : List Nat}
    (behind : Behind n out stack limit) (split : stack.reverse = front ++ back)
    (length : m.length = n + 1) (points : List.Forall₂ (Points m) pointers back)
    (text : m.take (out ++ front.flatMap copied).length = out ++ front.flatMap copied) :
    ∃ m', copyAll m (out ++ front.flatMap copied).length pointers =
        some (m', (out ++ stack.reverse.flatMap copied).length) ∧ m'.length = n + 1 ∧
      m'.take (out ++ stack.reverse.flatMap copied).length =
        out ++ stack.reverse.flatMap copied := by
  induction back generalizing front pointers m with
  | nil =>
      cases points
      rw [List.append_nil] at split
      rw [split]
      exact ⟨m, rfl, length, text⟩
  | cons s back ih =>
      obtain _ | @⟨q, _, pointers, _, first, rest⟩ := points
      have room := behind.copy split
      have place := first.length
      obtain ⟨m', copied', text', length', kept⟩ := copy_spec first
        (show (out ++ front.flatMap copied).length ≤ q by omega)
      have longer : out ++ front.flatMap copied ++ copied s =
          out ++ (front ++ [s]).flatMap copied := by
        rw [List.flatMap_append, List.flatMap_singleton, List.append_assoc]
      rw [text, longer] at text'
      rw [← List.length_append, longer] at text' copied' kept
      have split' : stack.reverse = (front ++ [s]) ++ back := by
        rw [split, List.append_assoc]
        rfl
      have points' : List.Forall₂ (Points m') pointers back := by
        refine forall₂_imp_mem rest fun i t inside h => kept i t ?_ h
        obtain ⟨one, two, rfl⟩ := List.append_of_mem inside
        have later := behind.copy (split'.trans (List.append_assoc _ one (t :: two)).symm)
        have place := h.length
        rw [List.flatMap_append, ← List.append_assoc, List.length_append] at later
        omega
      obtain ⟨m'', done, length'', text''⟩ := ih split' (length'.trans length) points' text'
      exact ⟨m'', by rw [copyAll, copied', Option.bind_some]; exact done, length'', text''⟩

end Copies

/-! ## The name -/

section Names

variable {f : List Byte}

/-- Where the first pass begins. -/
theorem start_spec (visible : (0 : Byte) ∉ f) :
    if Shallow (MAXPATHLEN / 2) 0 (components slash f) then
      ∃ w', (if at_ (f ++ [0]) 0 = slash then scan ⟨f ++ [0], 1, []⟩ (overSlashes (f ++ [0]) 1)
        else scan ⟨f ++ [0], 0, []⟩ 0) = some w' ∧ Holds f.length w' (scanned f)
    else (if at_ (f ++ [0]) 0 = slash then scan ⟨f ++ [0], 1, []⟩ (overSlashes (f ++ [0]) 1)
        else scan ⟨f ++ [0], 0, []⟩ 0) = none := by
  have whole : Points (f ++ [0]) 0 f := ⟨rfl, visible⟩
  have length : (f ++ [0]).length = f.length + 1 := List.length_append
  have first : at_ (f ++ [0]) 0 = slash ↔ f.head? = some slash := by
    cases f with
    | nil => exact ⟨fun no => absurd no (by decide), fun no => (by cases no)⟩
    | cons a f => exact ⟨fun same => congrArg some same, fun same => Option.some.inj same⟩
  rw [scanned, if_congr first rfl rfl]
  by_cases absolute : f.head? = some slash
  · rw [if_pos absolute, if_pos absolute]
    cases f with
    | nil => cases absolute
    | cons a f =>
        cases absolute
        have skipped : skip (slash :: f) = skip f := List.dropWhile_cons_of_pos (by simp)
        have shorter := (List.dropWhile_sublist (l := f) fun c => c = slash).length_le
        have same : components slash (slash :: f) = components slash (skip f) := by
          rw [components_cons, skip, components_dropWhile]
        rw [← skip] at shorter
        rw [skipped, same]
        have holds : Holds (slash :: f).length ⟨slash :: f ++ [0], 1, []⟩ ⟨[slash], []⟩ :=
          ⟨length, rfl, rfl, .nil⟩
        refine scan_spec holds (overSlashes_spec whole.advance) (first_skip f) ?_
        change 1 + (skip f).length ≤ f.length + 1
        omega
  · rw [if_neg absolute, if_neg absolute]
    have begun : f = [] ∨ Canon.component f ≠ [] := by
      by_cases filled : f = []
      · exact Or.inl filled
      · exact Or.inr (takeWhile_filled slash absolute filled)
    have holds : Holds f.length ⟨f ++ [0], 0, []⟩ ⟨[], []⟩ := ⟨length, rfl, rfl, .nil⟩
    exact scan_spec holds whole begun (show 0 + f.length ≤ f.length by omega)

theorem not_mem_canon (visible : (0 : Byte) ∉ f) : (0 : Byte) ∉ Canon.canon f := by
  have none : (0 : Byte) ∉ [slash] := by decide
  rw [canon_text, List.mem_append, not_or]
  refine ⟨?_, fun inside => ?_⟩
  · rw [root]
    split
    · exact none
    · exact List.not_mem_nil
  · by_cases filled : Library.Paths.settle dot (components slash f) = []
    · rw [filled] at inside
      exact List.not_mem_nil inside
    · have longer : (0 : Byte) ∈ closed (Library.Paths.settle dot (components slash f)) := by
        rw [closed_eq filled]
        exact List.mem_append_left _ inside
      obtain ⟨c, member, within⟩ := List.mem_flatMap.mp longer
      rcases List.mem_append.mp within with within | within
      · have split : c ∈ f.splitOn slash := List.mem_of_mem_filter (mem_settle member)
        exact visible (mem_of_mem_splitOn f split within)
      · exact none within

theorem at_take {m : List Byte} {i n : Nat} (less : i < n) : at_ m i = (m.take n).getD i 0 := by
  rw [at_, List.getD_eq_getElem?_getD, List.getD_eq_getElem?_getD, List.getElem?_take_of_lt less]

/-- The string that ends at a NUL that has been stored. -/
theorem text_set {m g : List Byte} {n : Nat} (within : n < m.length) (front : m.take n = g)
    (visible : (0 : Byte) ∉ g) : text (m.set n 0) = g := by
  have all : ∀ c ∈ g, decide (c ≠ 0) = true := fun c inside =>
    decide_eq_true fun zero => visible (zero ▸ inside)
  rw [text, List.set_eq_take_append_cons_drop, if_pos within, front,
    List.takeWhile_append_of_pos all, List.takeWhile_cons_of_neg (by simp), List.append_nil]

/-- The two passes and the end of the string. -/
theorem canon_eq (f : List Byte) : canon (f ++ [0]) =
    (if at_ (f ++ [0]) 0 = slash then scan ⟨f ++ [0], 1, []⟩ (overSlashes (f ++ [0]) 1)
      else scan ⟨f ++ [0], 0, []⟩ 0).bind fun w =>
        (copyAll w.m w.p w.stack.reverse).bind fun (m, p) =>
          store m (if 1 < p ∧ at_ m (p - 1) = slash then p - 1 else p) 0 := by
  by_cases absolute : at_ (f ++ [0]) 0 = slash
  · rw [canon, if_pos absolute, if_pos absolute]
    rfl
  · rw [canon, if_neg absolute, if_neg absolute]
    rfl

/-- A name that needs more pointers than the stack has. -/
theorem canon_overflows (visible : (0 : Byte) ∉ f)
    (deep : ¬Shallow (MAXPATHLEN / 2) 0 (components slash f)) : canon (f ++ [0]) = none := by
  have ran := start_spec visible
  rw [if_neg deep] at ran
  rw [canon_eq, ran, Option.bind_none]

/-- The buffer ends up with the canonical name. -/
theorem canon_spec (visible : (0 : Byte) ∉ f)
    (shallow : Shallow (MAXPATHLEN / 2) 0 (components slash f)) :
    ∃ m, canon (f ++ [0]) = some m ∧ m.length = f.length + 1 ∧ text m = Canon.canon f := by
  have start := start_spec visible
  rw [if_pos shallow] at start
  obtain ⟨w, ran, holds⟩ := start
  obtain ⟨limit, behind⟩ := scanned_behind f
  have total := behind.total
  have back : List.Forall₂ (Points w.m) w.stack.reverse (scanned f).stack.reverse :=
    List.forall₂_reverse_iff.mpr holds.stack
  have none_copied : (scanned f).stack.reverse = [] ++ (scanned f).stack.reverse := rfl
  obtain ⟨m, copied', length, front⟩ := copyAll_spec behind none_copied holds.length back
    (by rw [List.flatMap_nil, List.append_nil, ← holds.p]; exact holds.out)
  rw [List.flatMap_nil, List.append_nil, ← holds.p] at copied'
  generalize written : (scanned f).out ++ (scanned f).stack.reverse.flatMap copied = g at *
  have result : Canon.canon f = strip g := by rw [Canon.canon, written]
  have last : 1 < g.length ∧ at_ m (g.length - 1) = slash ↔
      1 < g.length ∧ g.getLast? = some slash := by
    refine and_congr_right fun long => ?_
    have inside : g.length - 1 < g.length := by omega
    rw [at_take inside, front, List.getD_eq_getElem _ _ inside, List.getLast?_eq_getElem?,
      List.getElem?_eq_getElem inside, Option.some.injEq]
  have stripped : ∃ n ≤ g.length, strip g = g.take n ∧
      n = if 1 < g.length ∧ g.getLast? = some slash then g.length - 1 else g.length := by
    rw [strip]
    split
    · exact ⟨g.length - 1, Nat.sub_le _ _, List.dropLast_eq_take, rfl⟩
    · exact ⟨g.length, Nat.le_refl _, List.take_length.symm, rfl⟩
  obtain ⟨n, le, taken, place⟩ := stripped
  have within : n < m.length := by omega
  have cut : m.take n = Canon.canon f := by
    rw [result, taken, ← front, List.take_take, Nat.min_eq_left le]
  refine ⟨m.set n 0, ?_, List.length_set.trans length,
    text_set within cut (not_mem_canon visible)⟩
  rw [canon_eq, ran, Option.bind_some, copied', Option.bind_some]
  dsimp only
  rw [if_congr last rfl rfl, ← place]
  exact if_pos within

/-- `canon` stores only inside of the string and leaves the canonical name in it. -/
theorem canon_normalises (visible : (0 : Byte) ∉ f) (short : f.length ≤ MAXPATHLEN) :
    ∃ m, canon (f ++ [0]) = some m ∧ m.length = f.length + 1 ∧
      text m = root f ++ [slash].intercalate (Library.Paths.settle dot (components slash f)) ∧
      (∀ x, denotes slash dot x (text m) = denotes slash dot x f) ∧
      ((text m).getLast? = some slash → text m = [slash]) ∧
      (text m).length ≤ f.length ∧
      ∃ m', canon (text m ++ [0]) = some m' ∧ text m' = text m := by
  obtain ⟨m, ran, length, result⟩ := canon_spec visible (shallow_of_short short)
  refine ⟨m, ran, length, ?_⟩
  rw [result]
  obtain ⟨m', ran', -, result'⟩ := canon_spec (not_mem_canon visible)
    (shallow_of_short (Nat.le_trans (length_canon f) short))
  exact ⟨canon_text f, fun x => denotes_canon x f, canon_last f, length_canon f, m', ran',
    result'.trans (canon_canon f)⟩

/-- The name `../a/./b//../c/` has become `../a/c`. -/
theorem canon_normalises_mixed :
    ∃ m, canon ([46, 46, 47, 97, 47, 46, 47, 98, 47, 47, 46, 46, 47, 99, 47] ++ [0]) = some m ∧
      text m = [46, 46, 47, 97, 47, 99] := by
  obtain ⟨m, ran, -, result, -⟩ := @canon_normalises
    [46, 46, 47, 97, 47, 46, 47, 98, 47, 47, 46, 46, 47, 99, 47] (by decide) (by decide)
  exact ⟨m, ran, result.trans (by decide)⟩

end Names

end MachFormal.Make.InPlace
