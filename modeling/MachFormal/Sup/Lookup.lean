import MachFormal.Sup.Stree

/-!
# Lookup of a name in its buffer

`Tlookup` copies the name into a buffer of its own and shortens it there: it cuts at the
last slash, goes back over the slashes before it, and writes a NUL.  Going back it looks
at the character before the current one, also when the current one is the first of the
buffer.

The buffer is here with the memory around it.  An access outside is carried out, and
noted.
-/

namespace MachFormal.Sup.Lookup

open Library

/-! ## Memory -/

/-- The stack around the buffer: `cells i` is `buf[i]`.  An access outside of
`buf[0]` to `buf[MAXPATHLEN]` sets `stray`. -/
structure Frame where
  cells : Int → Byte
  stray : Bool

/-- A computation on the frame; one that does not end has no result. -/
abbrev Run := StateT Frame Option

def outside (i : Int) : Bool := decide (i < 0) || decide ((MAXPATHLEN : Int) < i)

def load (i : Int) : Run Byte := fun f =>
  some (f.cells i, { f with stray := f.stray || outside i })

def store (i : Int) (b : Byte) : Run Unit := fun f =>
  some ((), ⟨Function.update f.cells i b, f.stray || outside i⟩)

/-- `strncpy`: the rest of the `n` bytes is filled with NULs. -/
def strncpy : Nat → Int → List Byte → Run Unit
  | 0, _, _ => pure ()
  | n + 1, i, s => do
      store i (s.headD 0)
      strncpy n (i + 1) s.tail

/-- `rindex (buf, '/')` from `i` on, `r` being what was found before. -/
def rindex : Nat → Int → Option Int → Run (Option Int)
  | 0, _, _ => fun _ => none
  | turns + 1, i, r => do
      let b ← load i
      let r := if b = slash then some i else r
      if b = 0 then
        pure r
      else
        rindex turns (i + 1) r

/-- The string at `i`. -/
def text : Nat → Int → Run Name
  | 0, _ => fun _ => none
  | turns + 1, i => do
      let b ← load i
      if b = 0 then
        pure []
      else do
        let rest ← text turns (i + 1)
        pure (b :: rest)

/-- The loop `while (p >= buf && *(p-1) == '/') p--`. -/
def backUp : Nat → Int → Run Int
  | 0, _ => fun _ => none
  | turns + 1, p =>
      if p < 0 then
        pure p
      else do
        let b ← load (p - 1)
        if b = slash then
          backUp turns (p - 1)
        else
          pure p

/-! ## The lookup -/

section Routines

variable {α : Type} (t : SearchTree CString α)

/-- `Tsearch`: the node with its name. -/
def Tsearch (p : CString) : Option (CString × α) := (t.search p).map fun a => (p, a)

/-- `Tsearch (t, buf)`. -/
def searchBuf : Run (Option (CString × α)) := do
  let name ← text (MAXPATHLEN + 1) 0
  pure (Tsearch t (CString.ofMemory name))

/-- The loop of `Tlookup`. -/
def lookupLoop : Nat → Run (Option (CString × α))
  | 0 => fun _ => none
  | turns + 1 => do
      let slashAt ← rindex (MAXPATHLEN + 1) 0 none
      match slashAt with
      | none => pure none
      | some p => do
          let p ← backUp (MAXPATHLEN + 2) p
          if p = 0 then
            store (p + 1) 0
          else
            store p 0
          let x ← searchBuf t
          if x.isSome then
            pure x
          else if p = 0 then
            pure none
          else
            lookupLoop turns

def Tlookup (p : Option CString) : Run (Option (CString × α)) :=
  match p with
  | none => pure none
  | some p =>
      if (Tsearch t (strip p)).isSome then
        pure (Tsearch t (strip p))
      else if (strip p).data.head? ≠ some slash ∧ (Tsearch t (CString.ofMemory [dot])).isSome then
        pure (Tsearch t (CString.ofMemory [dot]))
      else do
        strncpy MAXPATHLEN 0 (strip p).data
        store MAXPATHLEN 0
        lookupLoop t (MAXPATHLEN + 2)

end Routines

/-! ## What is asked of it -/

/-- A directory that the name lies in: the name cut at a run of slashes. -/
def Below (d name : Name) : Prop :=
  d ≠ [] ∧ d.getLast? ≠ some slash ∧ ∃ rest, name = d ++ slash :: rest

/-- A proper ancestor: such a directory, or the root of an absolute name. -/
def Ancestor (d name : Name) : Prop :=
  Below d name ∨ (d = [slash] ∧ name.head? = some slash)

section Correctness

variable {α : Type}

/-- The node under the name itself, or under `.`, or under the longest ancestor. -/
structure Correct (t : SearchTree CString α) (p : CString) (result : Option (CString × α)) :
    Prop where
  node : ∀ q a, result = some (q, a) → t.search q = some a
  found_iff : result.isSome ↔
    strip p ∈ names t ∨
      ((strip p).data.head? ≠ some slash ∧ CString.ofMemory [dot] ∈ names t) ∨
      ∃ d ∈ names t, Ancestor d.data (strip p).data
  itself : strip p ∈ names t → result.map Prod.fst = some (strip p)
  here : strip p ∉ names t → (strip p).data.head? ≠ some slash →
    CString.ofMemory [dot] ∈ names t → result.map Prod.fst = some (CString.ofMemory [dot])
  longest : strip p ∉ names t →
    ¬((strip p).data.head? ≠ some slash ∧ CString.ofMemory [dot] ∈ names t) →
    ∀ q a, result = some (q, a) → Ancestor q.data (strip p).data ∧
      ∀ d ∈ names t, Ancestor d.data (strip p).data → d.data.length ≤ q.data.length

/-- The lookup ends with the right node and without an access outside the buffer. -/
def LooksUp (t : SearchTree CString α) (p : CString) (cells : Int → Byte) : Prop :=
  ∃ result f, Tlookup t (some p) ⟨cells, false⟩ = some (result, f) ∧ Correct t p result ∧
    f.stray = false

end Correctness

/-! ## The names that are tried -/

theorem cut_eq_none {buf : Name} (none : cut buf = none) : slash ∉ buf := by
  intro member
  obtain ⟨head, tail, rfl, last⟩ := last_slash member
  rw [cut_append last] at none
  cases none

/-- A name that is cut: the part before the run of slashes does not end in one. -/
theorem cut_eq_some {buf d : Name} (cutAt : cut buf = some d) :
    ∃ k tail, buf = d ++ (List.replicate k slash ++ slash :: tail) ∧ slash ∉ tail ∧
      d.getLast? ≠ some slash := by
  have member : slash ∈ buf := by
    refine Classical.byContradiction fun absent => ?_
    have all : buf.reverse.dropWhile (· ≠ slash) = [] := by
      refine List.dropWhile_eq_nil_iff.mpr fun b member => decide_eq_true fun same => absent ?_
      exact same ▸ List.mem_reverse.mp member
    rw [cut, all] at cutAt
    cases cutAt
  obtain ⟨head, tail, rfl, last⟩ := last_slash member
  rw [cut_append last, Option.some.injEq] at cutAt
  have slashes : head.reverse.takeWhile (· = slash) =
      List.replicate (head.reverse.takeWhile (· = slash)).length slash := by
    refine List.eq_replicate_of_mem fun b member => ?_
    have kept := @List.mem_takeWhile_imp _ _ _ _ member
    exact of_decide_eq_true kept
  refine ⟨(head.reverse.takeWhile (· = slash)).length, tail, ?_, last, ?_⟩
  · rw [← List.append_assoc, ← cutAt, ← List.reverse_replicate, ← slashes, ← List.reverse_append,
      List.takeWhile_append_dropWhile, List.reverse_reverse]
  · rw [← cutAt, List.getLast?_reverse]
    intro first
    have kept := List.head?_dropWhile_not (· = slash) head.reverse
    rw [first] at kept
    simp at kept

theorem replicate_succ_append (k : Nat) (rest : Name) :
    List.replicate (k + 1) slash ++ rest = List.replicate k slash ++ slash :: rest := by
  rw [List.replicate_succ', List.append_assoc, List.singleton_append]

theorem slashes_before {tail more rest : Name} {k : Nat} (last : slash ∉ tail)
    (split : List.replicate k slash ++ slash :: tail = more ++ slash :: rest) :
    more = List.replicate more.length slash := by
  rw [← replicate_succ_append] at split
  rcases List.append_eq_append_iff.mp split with ⟨before, -, inside⟩ | ⟨before, whole, -⟩
  · refine absurd ?_ last
    rw [inside]
    exact List.mem_append_right before List.mem_cons_self
  · refine List.eq_replicate_of_mem fun b member => List.eq_of_mem_replicate (n := k + 1) ?_
    rw [whole]
    exact List.mem_append_left before member

/-- One more cut: the directories of a name are the part before the last run of slashes and the
directories of that. -/
theorem below_cut {d tail : Name} {k : Nat} (solid : d.getLast? ≠ some slash)
    (last : slash ∉ tail) (e : Name) :
    Below e (d ++ (List.replicate k slash ++ slash :: tail)) ↔ (e = d ∧ d ≠ []) ∨ Below e d := by
  constructor
  · rintro ⟨nonempty, solid', rest, split⟩
    rcases List.append_eq_append_iff.mp split with ⟨more, rfl, eq⟩ | ⟨more, rfl, eq⟩
    · cases more with
      | nil =>
          rw [List.append_nil] at nonempty ⊢
          exact .inl ⟨rfl, nonempty⟩
      | cons b more =>
          have slashes := slashes_before last eq
          refine absurd ?_ solid'
          rw [List.getLast?_append, slashes, List.getLast?_replicate, List.length_cons,
            if_neg (Nat.succ_ne_zero _)]
          rfl
    · cases more with
      | nil =>
          rw [List.append_nil]
          exact .inl ⟨rfl, nonempty⟩
      | cons b more =>
          refine .inr ⟨nonempty, solid', more, ?_⟩
          rw [(List.cons.inj eq).1]
  · rintro (⟨rfl, nonempty⟩ | ⟨nonempty, solid', rest, rfl⟩)
    · refine ⟨nonempty, solid, ?_⟩
      cases k with
      | zero => exact ⟨tail, rfl⟩
      | succ k => exact ⟨List.replicate k slash ++ slash :: tail, rfl⟩
    · exact ⟨nonempty, solid', rest ++ (List.replicate k slash ++ slash :: tail), by simp⟩

theorem cut_length {buf d : Name} (cutAt : cut buf = some d) : d.length < buf.length := by
  obtain ⟨k, tail, rfl, -⟩ := cut_eq_some cutAt
  simp only [List.length_append, List.length_cons]
  omega

theorem Below.length_lt {d name : Name} (below : Below d name) :
    0 < d.length ∧ d.length < name.length := by
  obtain ⟨nonempty, -, rest, rfl⟩ := below
  refine ⟨List.length_pos_of_ne_nil nonempty, ?_⟩
  simp only [List.length_append, List.length_cons]
  omega

theorem mem_directories_iff (n : Nat) (buf e : Name) (enough : buf.length < n) :
    e ∈ directories n buf ↔ Ancestor e buf := by
  induction n generalizing buf with
  | zero => exact absurd enough (Nat.not_lt_zero _)
  | succ n ih =>
      rw [directories]
      cases cutAt : cut buf with
      | none =>
          have absent := cut_eq_none cutAt
          refine iff_of_false List.not_mem_nil ?_
          rintro (⟨-, -, rest, rfl⟩ | ⟨-, first⟩)
          · exact absent (List.mem_append_right e List.mem_cons_self)
          · exact absent (List.mem_of_mem_head? first)
      | some d =>
          have shorter := cut_length cutAt
          obtain ⟨k, tail, rfl, last, solid⟩ := cut_eq_some cutAt
          cases d with
          | nil =>
              have first : ([] ++ (List.replicate k slash ++ slash :: tail)).head? = some slash := by
                cases k <;> rfl
              rw [List.mem_singleton, Ancestor, below_cut solid last, first]
              constructor
              · exact fun root => .inr ⟨root, rfl⟩
              · rintro ((⟨-, none⟩ | ⟨-, -, rest, split⟩) | ⟨root, -⟩)
                · exact absurd rfl none
                · exact absurd split (by simp)
                · exact root
          | cons c d =>
              rw [List.mem_cons, ih (c :: d) (by omega), Ancestor, Ancestor, below_cut solid last]
              constructor
              · rintro (rfl | below | ⟨root, first⟩)
                · exact .inl (.inl ⟨rfl, List.cons_ne_nil c d⟩)
                · exact .inl (.inr below)
                · exact .inr ⟨root, first⟩
              · rintro ((⟨rfl, -⟩ | below) | ⟨root, first⟩)
                · exact .inl rfl
                · exact .inr (.inl below)
                · exact .inr (.inr ⟨root, first⟩)

theorem Ancestor.length_lt {e d : Name} (ancestor : Ancestor e d) (solid : d.getLast? ≠ some slash) :
    e.length < d.length := by
  rcases ancestor with below | ⟨rfl, first⟩
  · exact below.length_lt.2
  · match d with
    | [] => cases first
    | [c] => exact absurd first solid
    | _ :: _ :: _ => exact Nat.succ_lt_succ (Nat.zero_lt_succ _)

theorem directories_sorted (n : Nat) (buf : Name) (enough : buf.length < n) :
    (directories n buf).Pairwise fun e e' => e'.length < e.length := by
  induction n generalizing buf with
  | zero => exact absurd enough (Nat.not_lt_zero _)
  | succ n ih =>
      rw [directories]
      cases cutAt : cut buf with
      | none => exact .nil
      | some d =>
          have shorter := cut_length cutAt
          obtain ⟨k, tail, rfl, last, solid⟩ := cut_eq_some cutAt
          cases d with
          | nil => exact List.pairwise_singleton _ _
          | cons c d =>
              refine List.pairwise_cons.mpr ⟨fun e member => ?_, ih _ (by omega)⟩
              exact ((mem_directories_iff n (c :: d) e (by omega)).mp member).length_lt solid

/-! ## Strings in the buffer -/

/-- The buffer holds the string and its terminator. -/
structure Holds (cells : Int → Byte) (buf : Name) : Prop where
  text : ∀ i : Nat, i ≤ buf.length → cells i = buf.getD i 0
  noNul : (0 : Byte) ∉ buf
  fits : buf.length ≤ MAXPATHLEN

theorem outside_eq_false {i : Nat} (fits : i ≤ MAXPATHLEN) : outside i = false := by
  have low : ¬(i : Int) < 0 := by omega
  have high : ¬(MAXPATHLEN : Int) < i := by omega
  rw [outside, decide_eq_false low, decide_eq_false high]
  rfl

theorem load_inside {i : Nat} (fits : i ≤ MAXPATHLEN) (f : Frame) :
    load i f = some (f.cells i, f) := by
  rw [load, outside_eq_false fits, Bool.or_false]

theorem store_inside {i : Nat} (fits : i ≤ MAXPATHLEN) (b : Byte) (f : Frame) :
    store i b f = some ((), ⟨Function.update f.cells i b, f.stray⟩) := by
  rw [store, outside_eq_false fits, Bool.or_false]

section Strings

variable {f : Frame}

theorem load_next {front back : Name} (holds : Holds f.cells (front ++ back)) :
    load front.length f = some (back.headD 0, f) := by
  have fits := holds.fits
  rw [List.length_append] at fits
  rw [load_inside (by omega), holds.text _ (by rw [List.length_append]; omega)]
  congr 2
  cases back with
  | nil => simp
  | cons b back => simp

theorem text_succ {b : Byte} {i : Int} (turns : Nat) (loaded : load i f = some (b, f)) :
    text (turns + 1) i f =
      if b = 0 then some ([], f)
      else (text turns (i + 1) f).bind fun rest => some (b :: rest.1, rest.2) := by
  simp only [text, bind, StateT.bind, Option.bind, loaded]
  split <;> rfl

theorem rindex_succ {b : Byte} {i : Int} (turns : Nat) (r : Option Int)
    (loaded : load i f = some (b, f)) :
    rindex (turns + 1) i r f =
      if b = 0 then some (if b = slash then some i else r, f)
      else rindex turns (i + 1) (if b = slash then some i else r) f := by
  simp only [rindex, bind, StateT.bind, Option.bind, loaded]
  split <;> rfl

theorem load_char {front back : Name} {b : Byte} (holds : Holds f.cells (front ++ b :: back)) :
    load front.length f = some (b, f) ∧ b ≠ 0 ∧ Holds f.cells ((front ++ [b]) ++ back) := by
  refine ⟨load_next holds, fun zero => ?_, ?_⟩
  · exact holds.noNul (zero ▸ List.mem_append_right front List.mem_cons_self)
  · rwa [List.append_assoc, List.singleton_append]

theorem text_spec (back front : Name) (turns : Nat) (enough : back.length < turns)
    (holds : Holds f.cells (front ++ back)) : text turns front.length f = some (back, f) := by
  induction turns generalizing front back with
  | zero => exact absurd enough (Nat.not_lt_zero _)
  | succ turns ih =>
      cases back with
      | nil =>
          rw [text_succ turns (load_next holds)]
          rfl
      | cons b back =>
          obtain ⟨loaded, nonzero, further⟩ := load_char holds
          have rest := ih back (front ++ [b]) (Nat.lt_of_succ_lt_succ enough) further
          rw [List.length_append, List.length_singleton, Nat.cast_add, Nat.cast_one] at rest
          rw [text_succ turns loaded, if_neg nonzero, rest]
          rfl

theorem rindex_rest (back front : Name) (turns : Nat) (r : Option Int) (enough : back.length < turns)
    (last : slash ∉ back) (holds : Holds f.cells (front ++ back)) :
    rindex turns front.length r f = some (r, f) := by
  induction turns generalizing front back with
  | zero => exact absurd enough (Nat.not_lt_zero _)
  | succ turns ih =>
      cases back with
      | nil =>
          rw [rindex_succ turns r (load_next holds)]
          rfl
      | cons b back =>
          obtain ⟨loaded, nonzero, further⟩ := load_char holds
          have other : b ≠ slash := fun same => last (same ▸ List.mem_cons_self)
          have rest := ih back (front ++ [b]) (Nat.lt_of_succ_lt_succ enough)
            (fun member => last (List.mem_cons_of_mem b member)) further
          rw [List.length_append, List.length_singleton, Nat.cast_add, Nat.cast_one] at rest
          rw [rindex_succ turns r loaded, if_neg nonzero, if_neg other, rest]

theorem rindex_last (head front tail : Name) (turns : Nat) (r : Option Int)
    (enough : (head ++ slash :: tail).length < turns) (last : slash ∉ tail)
    (holds : Holds f.cells (front ++ (head ++ slash :: tail))) :
    rindex turns front.length r f = some (some ((front ++ head).length : Int), f) := by
  induction head generalizing front turns r with
  | nil =>
      obtain ⟨turns, rfl⟩ := Nat.exists_eq_succ_of_ne_zero (Nat.ne_of_gt (Nat.zero_lt_of_lt enough))
      obtain ⟨loaded, nonzero, further⟩ := load_char holds
      have rest := rindex_rest tail (front ++ [slash]) turns (some (front.length : Int))
        (Nat.lt_of_succ_lt_succ enough) last further
      rw [List.length_append, List.length_singleton, Nat.cast_add, Nat.cast_one] at rest
      rw [rindex_succ turns r loaded, if_neg nonzero, if_pos rfl, rest, List.append_nil]
  | cons b head ih =>
      obtain ⟨turns, rfl⟩ := Nat.exists_eq_succ_of_ne_zero (Nat.ne_of_gt (Nat.zero_lt_of_lt enough))
      obtain ⟨loaded, nonzero, further⟩ := load_char holds
      have rest := ih (front ++ [b]) turns (if b = slash then some (front.length : Int) else r)
        (Nat.lt_of_succ_lt_succ enough) further
      rw [List.append_assoc, List.singleton_append, List.length_append, List.length_singleton,
        Nat.cast_add, Nat.cast_one] at rest
      rw [rindex_succ turns r loaded, if_neg nonzero, rest]

theorem backUp_succ {b : Byte} {p : Nat} {f' : Frame} (turns : Nat)
    (loaded : load ((p : Int) - 1) f = some (b, f')) :
    backUp (turns + 1) p f =
      if b = slash then backUp turns ((p : Int) - 1) f' else some ((p : Int), f') := by
  rw [backUp, if_neg (show ¬(p : Int) < 0 by omega)]
  simp only [bind, StateT.bind, Option.bind, loaded]
  split <;> rfl

theorem backUp_slash {front rest : Name} (turns : Nat)
    (holds : Holds f.cells (front ++ slash :: rest)) :
    backUp (turns + 1) ((front.length + 1 : Nat) : Int) f = backUp turns (front.length : Int) f := by
  obtain ⟨loaded, -⟩ := load_char holds
  have before : ((front.length + 1 : Nat) : Int) - 1 = front.length := by omega
  rw [← before] at loaded
  rw [backUp_succ turns loaded, if_pos rfl, before]

theorem backUp_name (d : Name) (k : Nat) (nonempty : d ≠ []) (solid : d.getLast? ≠ some slash)
    (rest : Name) (turns : Nat) (enough : k < turns)
    (holds : Holds f.cells (d ++ (List.replicate k slash ++ rest))) :
    backUp turns ((d.length + k : Nat) : Int) f = some ((d.length : Int), f) := by
  obtain ⟨turns, rfl⟩ := Nat.exists_eq_succ_of_ne_zero (Nat.ne_of_gt (Nat.zero_lt_of_lt enough))
  induction k generalizing rest turns with
  | zero =>
      obtain ⟨front, c, rfl⟩ := (List.eq_nil_or_concat' d).resolve_left nonempty
      rw [List.getLast?_concat] at solid
      rw [List.append_assoc] at holds
      obtain ⟨loaded, -⟩ := load_char holds
      have before : (((front ++ [c]).length + 0 : Nat) : Int) - 1 = front.length := by
        rw [List.length_append, List.length_singleton]
        omega
      rw [← before] at loaded
      rw [backUp_succ turns loaded, if_neg fun same => solid (congrArg some same)]
      rfl
  | succ k ih =>
      obtain ⟨turns, rfl⟩ := Nat.exists_eq_succ_of_ne_zero (show turns ≠ 0 by omega)
      rw [replicate_succ_append] at holds
      have front : (d ++ List.replicate k slash).length = d.length + k := by
        rw [List.length_append, List.length_replicate]
      rw [← Nat.add_assoc, ← front, @backUp_slash f _ rest, front]
      · exact ih (slash :: rest) holds turns (by omega)
      · rwa [List.append_assoc]

/-- Going back over the slashes at the beginning of the buffer, and a look at what is before
it. -/
theorem backUp_root (k : Nat) (rest : Name) (turns : Nat) (enough : k < turns)
    (holds : Holds f.cells (List.replicate k slash ++ rest)) :
    backUp (turns + 1) (k : Int) f =
      some (if f.cells (-1) = slash then -1 else 0, { f with stray := true }) := by
  induction k generalizing rest turns with
  | zero =>
      obtain ⟨turns, rfl⟩ := Nat.exists_eq_succ_of_ne_zero (Nat.ne_of_gt enough)
      have loaded : load (((0 : Nat) : Int) - 1) f = some (f.cells (-1), { f with stray := true }) := by
        rw [load, show outside (((0 : Nat) : Int) - 1) = true from rfl, Bool.or_true]
        rfl
      rw [backUp_succ (turns + 1) loaded]
      split
      · rfl
      · rfl
  | succ k ih =>
      obtain ⟨turns, rfl⟩ := Nat.exists_eq_succ_of_ne_zero (show turns ≠ 0 by omega)
      rw [replicate_succ_append] at holds
      have front : (List.replicate k slash).length = k := List.length_replicate
      have step := backUp_slash (turns + 1) holds
      rw [front] at step
      rw [step]
      exact ih (slash :: rest) turns (by omega) holds

theorem Holds.cut {d rest : Name} {cells : Int → Byte} (holds : Holds cells (d ++ rest)) :
    Holds (Function.update cells (d.length : Int) 0) d := by
  have fits := holds.fits
  rw [List.length_append] at fits
  refine ⟨fun i below => ?_, fun nul => holds.noNul (List.mem_append_left rest nul), by omega⟩
  by_cases last : i = d.length
  · rw [last, Function.update_self, List.getD_eq_getElem?_getD,
      List.getElem?_eq_none (Nat.le_refl _)]
    rfl
  · have different : (i : Int) ≠ d.length := by omega
    have inner : i < d.length := by omega
    rw [Function.update_of_ne different, holds.text i (by rw [List.length_append]; omega),
      List.getD_eq_getElem?_getD, List.getElem?_append_left inner, ← List.getD_eq_getElem?_getD]

theorem Holds.before {buf : Name} {cells : Int → Byte} (holds : Holds cells buf) (b : Byte) :
    Holds (Function.update cells (-1) b) buf := by
  refine ⟨fun i below => ?_, holds.noNul, holds.fits⟩
  rw [Function.update_of_ne (by omega), holds.text i below]

theorem ofMemory_of_noNul {buf : Name} (noNul : (0 : Byte) ∉ buf) : CString.ofMemory buf = ⟨buf, noNul⟩ :=
  CString.ofMemory_data ⟨buf, noNul⟩

theorem searchBuf_spec {α : Type} (t : SearchTree CString α) {buf : Name}
    (holds : Holds f.cells buf) :
    searchBuf t f = some (Tsearch t (CString.ofMemory buf), f) := by
  have read : text (MAXPATHLEN + 1) 0 f = some (buf, f) :=
    text_spec buf [] (MAXPATHLEN + 1) (Nat.lt_succ_of_le holds.fits) holds
  simp only [searchBuf, bind, StateT.bind, Option.bind, read]
  rfl

end Strings

/-! ## The loop -/

section Loop

variable {α : Type} {t : SearchTree CString α} {f : Frame} {buf : Name}

/-- What follows the search for a name that has been cut off at `p`. -/
def afterCut (t : SearchTree CString α) (turns : Nat) (p : Int) : Run (Option (CString × α)) := do
  let x ← searchBuf t
  if x.isSome then
    pure x
  else if p = 0 then
    pure none
  else
    lookupLoop t turns

theorem afterCut_spec (turns : Nat) (p : Int) (holds : Holds f.cells buf) :
    afterCut t turns p f =
      if (t.search (CString.ofMemory buf)).isSome then
        some (Tsearch t (CString.ofMemory buf), f)
      else if p = 0 then some (none, f)
      else lookupLoop t turns f := by
  have found : (Tsearch t (CString.ofMemory buf)).isSome = (t.search (CString.ofMemory buf)).isSome :=
    Option.isSome_map
  simp only [afterCut, bind, StateT.bind, Option.bind, searchBuf_spec t holds]
  rw [← found]
  split
  · rfl
  · split <;> rfl

theorem lookupLoop_none (turns : Nat) (holds : Holds f.cells buf) (done : Sup.cut buf = none) :
    lookupLoop t (turns + 1) f = some (none, f) := by
  have found : rindex (MAXPATHLEN + 1) 0 none f = some (none, f) :=
    rindex_rest buf [] (MAXPATHLEN + 1) none (Nat.lt_succ_of_le holds.fits) (cut_eq_none done) holds
  simp only [lookupLoop, bind, StateT.bind, Option.bind, found]
  rfl

theorem lookupLoop_some (turns : Nat) {slashAt p : Int} {f' f'' : Frame}
    (found : rindex (MAXPATHLEN + 1) 0 none f = some (some slashAt, f))
    (back : backUp (MAXPATHLEN + 2) slashAt f = some (p, f'))
    (stored : store (if p = 0 then p + 1 else p) 0 f' = some ((), f'')) :
    lookupLoop t (turns + 1) f = afterCut t turns p f'' := by
  simp only [lookupLoop, bind, StateT.bind, Option.bind, found, back]
  by_cases first : p = 0
  · rw [if_pos first] at stored
    simp only [if_pos first, StateT.bind, bind, Option.bind, stored, afterCut]
  · rw [if_neg first] at stored
    simp only [if_neg first, StateT.bind, bind, Option.bind, stored, afterCut]

theorem lookupLoop_name (turns : Nat) {d : Name} (holds : Holds f.cells buf)
    (cutAt : Sup.cut buf = some d) (nonempty : d ≠ []) :
    ∃ f', lookupLoop t (turns + 1) f = afterCut t turns d.length f' ∧ Holds f'.cells d ∧
      f'.stray = f.stray := by
  obtain ⟨k, tail, rfl, last, solid⟩ := cut_eq_some cutAt
  have fits := holds.fits
  have positive := List.length_pos_of_ne_nil nonempty
  simp only [List.length_append, List.length_replicate, List.length_cons] at fits
  have found : rindex (MAXPATHLEN + 1) 0 none f = some (some ((d.length + k : Nat) : Int), f) := by
    have whole := @rindex_last f (d ++ List.replicate k slash) [] tail (MAXPATHLEN + 1) none
      (by simp only [List.length_append, List.length_replicate, List.length_cons]; omega) last
      (by rwa [List.nil_append, List.append_assoc])
    rwa [List.nil_append, List.length_append, List.length_replicate] at whole
  have back := backUp_name d k nonempty solid (slash :: tail) (MAXPATHLEN + 2) (by omega) holds
  have other : (d.length : Int) ≠ 0 := by omega
  refine ⟨⟨Function.update f.cells (d.length : Int) 0, f.stray⟩,
    lookupLoop_some turns found back ?_, holds.cut, rfl⟩
  rw [if_neg other]
  exact store_inside (by omega) 0 f

/-- A turn at the root: something is looked at that is not in the buffer, and overwritten if it
is a slash. -/
theorem lookupLoop_root (turns : Nat) (holds : Holds f.cells buf) (cutAt : Sup.cut buf = some []) :
    (f.cells (-1) ≠ slash ∧ ∃ f', lookupLoop t (turns + 1) f = afterCut t turns 0 f' ∧
        Holds f'.cells [slash] ∧ f'.stray = true) ∨
      (f.cells (-1) = slash ∧ ∃ f', lookupLoop t (turns + 1) f = afterCut t turns (-1) f' ∧
        Holds f'.cells buf ∧ f'.cells (-1) ≠ slash ∧ f'.stray = true) := by
  obtain ⟨k, tail, rfl, last, -⟩ := cut_eq_some cutAt
  rw [List.nil_append] at holds
  have fits := holds.fits
  simp only [List.length_append, List.length_replicate, List.length_cons] at fits
  have found : rindex (MAXPATHLEN + 1) 0 none f = some (some (k : Int), f) := by
    have whole := @rindex_last f (List.replicate k slash) [] tail (MAXPATHLEN + 1) none
      (by simp only [List.length_append, List.length_replicate, List.length_cons]; omega) last holds
    rwa [List.nil_append, List.length_replicate] at whole
  have back := backUp_root k (slash :: tail) (MAXPATHLEN + 1) (by omega) holds
  by_cases before : f.cells (-1) = slash
  · rw [if_pos before] at back
    refine .inr ⟨before, ⟨Function.update f.cells (-1) 0, true⟩, lookupLoop_some turns found back rfl,
      holds.before 0, ?_, rfl⟩
    simp only [Function.update_self]
    decide
  · rw [if_neg before] at back
    have short : Holds f.cells ([slash] ++ (List.replicate k slash ++ tail)) := by
      rw [List.singleton_append, ← List.cons_append, ← List.replicate_succ, replicate_succ_append]
      exact holds
    refine .inl ⟨before, ⟨Function.update f.cells 1 0, true⟩, lookupLoop_some turns found back ?_,
      short.cut, rfl⟩
    rw [if_pos rfl]
    exact store_inside (i := 1) (by decide) 0 { f with stray := true }

theorem lookupLoop_last (turns : Nat) (holds : Holds f.cells buf) (cutAt : Sup.cut buf = some [])
    (tried : t.search (CString.ofMemory buf) = none) :
    ∃ f', lookupLoop t (turns + 2) f = some (Tsearch t (CString.ofMemory [slash]), f') ∧
      f'.stray = true := by
  have root : ∀ (turns : Nat) {f' : Frame}, Holds f'.cells [slash] →
      afterCut t turns 0 f' = some (Tsearch t (CString.ofMemory [slash]), f') := by
    intro turns f' holds'
    rw [afterCut_spec turns 0 holds', if_pos rfl]
    split
    · rfl
    next absent =>
      rw [Tsearch, Option.not_isSome_iff_eq_none.mp absent]
      rfl
  rcases @lookupLoop_root α t f buf (turns + 1) holds cutAt with
    ⟨-, f', ran, holds', stray⟩ | ⟨-, f', ran, holds', after, -⟩
  · exact ⟨f', by rw [ran, root _ holds'], stray⟩
  · have again : afterCut t (turns + 1) (-1) f' = lookupLoop t (turns + 1) f' := by
      rw [afterCut_spec _ _ holds', tried]
      rfl
    rcases @lookupLoop_root α t f' buf turns holds' cutAt with
      ⟨-, f'', ran', holds'', stray⟩ | ⟨before, -⟩
    · exact ⟨f'', by rw [ran, again, ran', root _ holds''], stray⟩
    · exact absurd before after

/-- The root is tried when the name is absolute and no directory below the root is there. -/
def RootTried (t : SearchTree CString α) (name : Name) : Prop :=
  name.head? = some slash ∧ ∀ d, Below d name → t.search (CString.ofMemory d) = none

theorem rootTried_cut {d : Name} (cutAt : Sup.cut buf = some d) (nonempty : d ≠ [])
    (absent : t.search (CString.ofMemory d) = none) : RootTried t buf ↔ RootTried t d := by
  obtain ⟨k, tail, rfl, last, solid⟩ := cut_eq_some cutAt
  have first : (d ++ (List.replicate k slash ++ slash :: tail)).head? = d.head? := by
    cases d with
    | nil => exact absurd rfl nonempty
    | cons c d => rfl
  rw [RootTried, RootTried, first]
  refine and_congr_right fun _ => ?_
  constructor
  · exact fun none e below => none e ((below_cut solid last e).mpr (.inr below))
  · intro none e below
    rcases (below_cut solid last e).mp below with ⟨rfl, -⟩ | below
    · exact absent
    · exact none e below

/-- The loop finds what is found among the ancestors, and leaves the buffer at the root. -/
theorem lookupLoop_spec (n : Nat) (buf : Name) (f : Frame) (turns : Nat) (enough : buf.length < n)
    (fuel : n < turns) (holds : Holds f.cells buf) (tried : t.search (CString.ofMemory buf) = none) :
    ∃ f', lookupLoop t turns f =
        some ((directories n buf).findSome? fun name => Tsearch t (CString.ofMemory name), f') ∧
      (f'.stray = true ↔ f.stray = true ∨ RootTried t buf) := by
  induction n generalizing buf f turns with
  | zero => exact absurd enough (Nat.not_lt_zero _)
  | succ n ih =>
      obtain ⟨turns, rfl⟩ : ∃ turns', turns = turns' + 2 := ⟨turns - 2, by omega⟩
      rw [directories]
      cases cutAt : Sup.cut buf with
      | none =>
          refine ⟨f, lookupLoop_none _ holds cutAt, (or_iff_left fun root => ?_).symm⟩
          exact cut_eq_none cutAt (List.mem_of_mem_head? root.1)
      | some d =>
          have shorter := cut_length cutAt
          cases d with
          | nil =>
              obtain ⟨f', ran, stray⟩ := lookupLoop_last turns holds cutAt tried
              refine ⟨f', ?_, iff_of_true stray (.inr ?_)⟩
              · rw [ran, List.findSome?_singleton]
              · obtain ⟨k, tail, rfl, last, solid⟩ := cut_eq_some cutAt
                refine ⟨by cases k <;> rfl, fun d below => ?_⟩
                rcases (below_cut solid last d).mp below with ⟨-, none⟩ | below
                · exact absurd rfl none
                · exact absurd below.length_lt.2 (Nat.not_lt_zero _)
          | cons c d =>
              obtain ⟨f', ran, holds', same⟩ :=
                @lookupLoop_name α t f buf (turns + 1) (c :: d) holds cutAt (List.cons_ne_nil c d)
              rw [ran, afterCut_spec _ _ holds', List.findSome?_cons]
              cases found : t.search (CString.ofMemory (c :: d)) with
              | some a =>
                  refine ⟨f', ?_, ?_⟩
                  · rw [if_pos Option.isSome_some, Tsearch, found]
                    rfl
                  · rw [same]
                    refine (or_iff_left fun root => ?_).symm
                    obtain ⟨k, tail, rfl, last, solid⟩ := cut_eq_some cutAt
                    have below := (below_cut (k := k) solid last (c :: d)).mpr
                      (.inl ⟨rfl, List.cons_ne_nil c d⟩)
                    rw [root.2 _ below] at found
                    cases found
              | none =>
                  have other : ((c :: d).length : Int) ≠ 0 := by simp only [List.length_cons]; omega
                  rw [if_neg (Bool.eq_false_iff.mp Option.isSome_none), if_neg other, Tsearch, found,
                    Option.map_none]
                  obtain ⟨f'', ran', stray⟩ := ih (c :: d) f' (turns + 1) (by omega) (by omega) holds'
                    found
                  refine ⟨f'', ran', ?_⟩
                  rw [stray, same, rootTried_cut cutAt (List.cons_ne_nil c d) found]

theorem strncpy_spec (n : Nat) (s : List Byte) (i : Nat) (f : Frame) (fits : i + n ≤ MAXPATHLEN + 1) :
    ∃ f', strncpy n i s f = some ((), f') ∧ f'.stray = f.stray ∧
      (∀ j < i, f'.cells (j : Nat) = f.cells (j : Nat)) ∧
      ∀ k < n, f'.cells ((i + k : Nat) : Int) = s.getD k 0 := by
  induction n generalizing s i f with
  | zero => exact ⟨f, rfl, rfl, fun _ _ => rfl, fun k below => absurd below (Nat.not_lt_zero k)⟩
  | succ n ih =>
      obtain ⟨f', ran, same, kept, copied⟩ := ih s.tail (i + 1)
        ⟨Function.update f.cells (i : Int) (s.headD 0), f.stray⟩ (by omega)
      have stored := store_inside (show i ≤ MAXPATHLEN by omega) (s.headD 0) f
      refine ⟨f', ?_, same, fun j below => ?_, fun k below => ?_⟩
      · rw [strncpy]
        simp only [bind, StateT.bind, Option.bind, stored]
        exact ran
      · rw [kept j (by omega)]
        exact Function.update_of_ne (show (j : Int) ≠ i by omega) _ _
      · cases k with
        | zero =>
            rw [Nat.add_zero, kept i (Nat.lt_succ_self i)]
            change Function.update f.cells (i : Int) (s.headD 0) (i : Int) = _
            rw [Function.update_self]
            cases s <;> rfl
        | succ k =>
            rw [show i + (k + 1) = i + 1 + k by omega, copied k (Nat.lt_of_succ_lt_succ below)]
            cases s <;> rfl

theorem copy_spec {p : CString} (short : p.data.length ≤ MAXPATHLEN) (f : Frame) :
    ∃ middle f', strncpy MAXPATHLEN 0 p.data f = some ((), middle) ∧
      store MAXPATHLEN 0 middle = some ((), f') ∧ f'.stray = f.stray ∧ Holds f'.cells p.data := by
  obtain ⟨middle, ran, same, -, copied⟩ := strncpy_spec MAXPATHLEN p.data 0 f (by omega)
  refine ⟨middle, _, ran, store_inside (Nat.le_refl _) 0 middle, same, ?_, p.noNul, short⟩
  intro i below
  change Function.update middle.cells (MAXPATHLEN : Int) 0 (i : Int) = _
  by_cases last : i = MAXPATHLEN
  · rw [last, Function.update_self, List.getD_eq_getElem?_getD, List.getElem?_eq_none (by omega)]
    rfl
  · have different : (i : Int) ≠ MAXPATHLEN := by omega
    have there := copied i (by omega)
    rw [Nat.zero_add] at there
    rw [Function.update_of_ne different, there]

end Loop

/-! ## The whole lookup -/

section Whole

variable {α : Type} {t : SearchTree CString α} {p : CString}

theorem strip_length (p : CString) (short : p.data.length ≤ MAXPATHLEN) :
    (strip p).data.length ≤ MAXPATHLEN := by
  rcases strip_shorter p with same | shorter
  · rwa [show strip p = p from same]
  · exact Nat.le_trans (Nat.le_of_lt shorter) short

theorem tsearch_isSome (q : CString) : (Tsearch t q).isSome ↔ q ∈ names t := by
  rw [Tsearch, Option.isSome_map, mem_names]

/-- The loop is entered when neither the name nor `.` is there. -/
def Entered (t : SearchTree CString α) (p : CString) : Prop :=
  strip p ∉ names t ∧ ¬((strip p).data.head? ≠ some slash ∧ CString.ofMemory [dot] ∈ names t)

/-- What the loop finds. -/
def ancestorNode (t : SearchTree CString α) (p : CString) : Option (CString × α) :=
  (directories ((strip p).data.length + 1) (strip p).data).findSome?
    fun name => Tsearch t (CString.ofMemory name)

theorem tlookup_entered (short : p.data.length ≤ MAXPATHLEN) (entered : Entered t p) (f : Frame) :
    ∃ f', Tlookup t (some p) f = some (ancestorNode t p, f') ∧
      (f'.stray = true ↔ f.stray = true ∨ RootTried t (strip p).data) := by
  obtain ⟨absent, noDot⟩ := entered
  have size := strip_length p short
  obtain ⟨middle, f', copied, closed, same, holds⟩ := copy_spec size f
  have tried : t.search (CString.ofMemory (strip p).data) = none := by
    rw [CString.ofMemory_data, ← Option.not_isSome_iff_eq_none, ← mem_names]
    exact absent
  obtain ⟨f'', ran, stray⟩ := @lookupLoop_spec α t ((strip p).data.length + 1) (strip p).data f'
    (MAXPATHLEN + 2) (Nat.lt_succ_self _) (by omega) holds tried
  refine ⟨f'', ?_, by rw [stray, same]⟩
  rw [Tlookup]
  simp only [tsearch_isSome]
  rw [if_neg absent, if_neg noDot]
  simp only [bind, StateT.bind, Option.bind, copied, closed]
  exact ran

theorem Ancestor.noNul {e name : Name} (ancestor : Ancestor e name) (noNul : (0 : Byte) ∉ name) :
    (0 : Byte) ∉ e := by
  rcases ancestor with ⟨-, -, rest, rfl⟩ | ⟨rfl, -⟩
  · exact fun nul => noNul (List.mem_append_left _ nul)
  · decide

theorem mem_ancestors (p : CString) (e : Name) :
    e ∈ directories ((strip p).data.length + 1) (strip p).data ↔ Ancestor e (strip p).data :=
  mem_directories_iff _ _ _ (Nat.lt_succ_self _)

theorem ancestorNode_longest {q : CString} {a : α} (found : ancestorNode t p = some (q, a)) :
    t.search q = some a ∧ Ancestor q.data (strip p).data ∧
      ∀ d ∈ names t, Ancestor d.data (strip p).data → d.data.length ≤ q.data.length := by
  obtain ⟨longer, name, shorter, whole, here, none⟩ := List.findSome?_eq_some_iff.mp found
  have ancestor : Ancestor name (strip p).data :=
    (mem_ancestors p name).mp (whole ▸ List.mem_append_right longer List.mem_cons_self)
  rw [ofMemory_of_noNul (ancestor.noNul (strip p).noNul), Tsearch, Option.map_eq_some_iff] at here
  obtain ⟨a', searched, same⟩ := here
  obtain ⟨rfl, rfl⟩ := Prod.mk.inj same
  refine ⟨searched, ancestor, fun d member ancestor' => ?_⟩
  have tried := (mem_ancestors p d.data).mpr ancestor'
  rw [whole] at tried
  rcases List.mem_append.mp tried with before | here
  · have absent := none d.data before
    rw [CString.ofMemory_data] at absent
    rw [← tsearch_isSome, absent] at member
    exact absurd member Bool.false_ne_true
  · rcases List.mem_cons.mp here with same | behind
    · exact Nat.le_of_eq (congrArg List.length same)
    · have sorted := directories_sorted _ (strip p).data (Nat.lt_succ_self _)
      rw [whole] at sorted
      have tail := (List.pairwise_append.mp sorted).2.1
      exact Nat.le_of_lt ((List.pairwise_cons.mp tail).1 d.data behind)

theorem ancestorNode_none : ancestorNode t p = none ↔
    ∀ d ∈ names t, ¬Ancestor d.data (strip p).data := by
  rw [ancestorNode, List.findSome?_eq_none_iff]
  constructor
  · intro none d member ancestor
    have absent := none d.data ((mem_ancestors p d.data).mpr ancestor)
    rw [CString.ofMemory_data] at absent
    rw [← tsearch_isSome, absent] at member
    exact absurd member Bool.false_ne_true
  · intro none name member
    have ancestor := (mem_ancestors p name).mp member
    rw [ofMemory_of_noNul (ancestor.noNul (strip p).noNul), ← Option.not_isSome_iff_eq_none,
      tsearch_isSome]
    exact fun there => none _ there ancestor

theorem correct_entered (entered : Entered t p) : Correct t p (ancestorNode t p) where
  node q a found := (ancestorNode_longest found).1
  found_iff := by
    rw [or_iff_right entered.1, or_iff_right entered.2, ← not_iff_not, Option.not_isSome_iff_eq_none,
      ancestorNode_none]
    simp only [not_exists, not_and]
  itself there := absurd there entered.1
  here _ relative there := absurd ⟨relative, there⟩ entered.2
  longest _ _ q a found := (ancestorNode_longest found).2

theorem tsearch_of_mem {q : CString} (member : q ∈ names t) :
    ∃ a, t.search q = some a ∧ Tsearch t q = some (q, a) := by
  obtain ⟨a, found⟩ := Option.isSome_iff_exists.mp (mem_names.mp member)
  exact ⟨a, found, by rw [Tsearch, found, Option.map_some]⟩

theorem correct_itself (member : strip p ∈ names t) : Correct t p (Tsearch t (strip p)) := by
  obtain ⟨a, found, result⟩ := tsearch_of_mem member
  rw [result]
  refine ⟨fun q b same => ?_, iff_of_true rfl (.inl member), fun _ => rfl,
    fun absent => absurd member absent, fun absent => absurd member absent⟩
  obtain ⟨rfl, rfl⟩ := Prod.mk.inj (Option.some.inj same)
  exact found

theorem correct_here (absent : strip p ∉ names t) (relative : (strip p).data.head? ≠ some slash)
    (member : CString.ofMemory [dot] ∈ names t) :
    Correct t p (Tsearch t (CString.ofMemory [dot])) := by
  obtain ⟨a, found, result⟩ := tsearch_of_mem member
  rw [result]
  refine ⟨fun q b same => ?_, iff_of_true rfl (.inr (.inl ⟨relative, member⟩)),
    fun there => absurd there absent, fun _ _ _ => rfl,
    fun _ none => absurd ⟨relative, member⟩ none⟩
  obtain ⟨rfl, rfl⟩ := Prod.mk.inj (Option.some.inj same)
  exact found

/-- What is found among the names that are tried. -/
def lookedUp (t : SearchTree CString α) (p : CString) : Option (CString × α) :=
  (candidates p).findSome? fun name => Tsearch t (CString.ofMemory name)

theorem lookedUp_itself (member : strip p ∈ names t) : lookedUp t p = Tsearch t (strip p) := by
  obtain ⟨a, -, result⟩ := tsearch_of_mem member
  rw [lookedUp, candidates, List.append_assoc, List.singleton_append, List.findSome?_cons,
    CString.ofMemory_data, result]

theorem lookedUp_here (absent : strip p ∉ names t) (relative : (strip p).data.head? ≠ some slash)
    (member : CString.ofMemory [dot] ∈ names t) :
    lookedUp t p = Tsearch t (CString.ofMemory [dot]) := by
  obtain ⟨a, -, result⟩ := tsearch_of_mem member
  rw [← tsearch_isSome, Option.not_isSome_iff_eq_none] at absent
  rw [lookedUp, candidates, List.append_assoc, List.singleton_append, List.findSome?_cons,
    CString.ofMemory_data, absent, if_neg relative, List.singleton_append, List.findSome?_cons, result]

theorem lookedUp_entered (short : p.data.length ≤ MAXPATHLEN) (entered : Entered t p) :
    lookedUp t p = ancestorNode t p := by
  obtain ⟨absent, noDot⟩ := entered
  rw [← tsearch_isSome, Option.not_isSome_iff_eq_none] at absent
  rw [lookedUp, candidates, List.append_assoc, List.singleton_append, List.findSome?_cons,
    CString.ofMemory_data, absent, List.take_of_length_le (strip_length p short)]
  by_cases absolute : (strip p).data.head? = some slash
  · rw [if_pos absolute]
    rfl
  · have missing : Tsearch t (CString.ofMemory [dot]) = none := by
      rw [← Option.not_isSome_iff_eq_none, tsearch_isSome]
      exact fun there => noDot ⟨absolute, there⟩
    rw [if_neg absolute, List.singleton_append, List.findSome?_cons, missing]
    rfl

theorem lookedUp_correct (short : p.data.length ≤ MAXPATHLEN) : Correct t p (lookedUp t p) := by
  by_cases itself : strip p ∈ names t
  · rw [lookedUp_itself itself]
    exact correct_itself itself
  · by_cases here : (strip p).data.head? ≠ some slash ∧ CString.ofMemory [dot] ∈ names t
    · rw [lookedUp_here itself here.1 here.2]
      exact correct_here itself here.1 here.2
    · rw [lookedUp_entered short ⟨itself, here⟩]
      exact correct_entered ⟨itself, here⟩

/-- The lookup always ends with that node; it leaves its buffer when the loop comes to the root. -/
theorem tlookup_spec (short : p.data.length ≤ MAXPATHLEN) (f : Frame) :
    ∃ f', Tlookup t (some p) f = some (lookedUp t p, f') ∧
      (f'.stray = true ↔ f.stray = true ∨ (strip p ∉ names t ∧ RootTried t (strip p).data)) := by
  by_cases itself : strip p ∈ names t
  · refine ⟨f, ?_, (or_iff_left fun both => both.1 itself).symm⟩
    rw [Tlookup, lookedUp_itself itself]
    simp only [tsearch_isSome]
    rw [if_pos itself]
    rfl
  · by_cases here : (strip p).data.head? ≠ some slash ∧ CString.ofMemory [dot] ∈ names t
    · refine ⟨f, ?_, (or_iff_left fun both => here.1 both.2.1).symm⟩
      rw [Tlookup, lookedUp_here itself here.1 here.2]
      simp only [tsearch_isSome]
      rw [if_neg itself, if_pos here]
      rfl
    · obtain ⟨f', ran, stray⟩ := tlookup_entered short ⟨itself, here⟩ f
      refine ⟨f', ?_, ?_⟩
      · rw [ran, lookedUp_entered short ⟨itself, here⟩]
      · rw [stray, and_iff_right itself]

/-- The name is relative, or it or a directory below the root that it lies in is there. -/
def FoundBelowRoot (t : SearchTree CString α) (p : CString) : Prop :=
  (strip p).data.head? ≠ some slash ∨ strip p ∈ names t ∨
    ∃ d ∈ names t, Below d.data (strip p).data

theorem rootTried_iff : (strip p ∉ names t ∧ RootTried t (strip p).data) ↔ ¬FoundBelowRoot t p := by
  rw [FoundBelowRoot, not_or, not_or, not_not, RootTried]
  constructor
  · rintro ⟨absent, absolute, none⟩
    refine ⟨absolute, absent, ?_⟩
    rintro ⟨d, member, below⟩
    have missing := none d.data below
    rw [CString.ofMemory_data] at missing
    rw [mem_names, missing] at member
    exact absurd member Bool.false_ne_true
  · rintro ⟨absolute, absent, none⟩
    refine ⟨absent, absolute, fun d below => ?_⟩
    have noNul := Ancestor.noNul (.inl below) (strip p).noNul
    rw [ofMemory_of_noNul noNul, ← Option.not_isSome_iff_eq_none, ← mem_names]
    exact fun member => none ⟨_, member, below⟩

theorem not_looksUp (short : p.data.length ≤ MAXPATHLEN) (root : ¬FoundBelowRoot t p)
    (cells : Int → Byte) : ¬LooksUp t p cells := by
  obtain ⟨f', ran, stray⟩ := @tlookup_spec α t p short ⟨cells, false⟩
  rintro ⟨result', f'', ran', -, inside⟩
  obtain ⟨-, rfl⟩ := Prod.mk.inj (Option.some.inj (ran.symm.trans ran'))
  have left := stray.mpr (.inr (rootTried_iff.mpr root))
  rw [inside] at left
  exact Bool.false_ne_true left

/-- The lookup does what is asked of it exactly when it does not have to try the root. -/
theorem looksUp_iff (t : SearchTree CString α) (p : CString) (short : p.data.length ≤ MAXPATHLEN)
    (cells : Int → Byte) : LooksUp t p cells ↔ FoundBelowRoot t p := by
  constructor
  · intro looksUp
    exact Classical.byContradiction fun root => not_looksUp short root cells looksUp
  · intro found
    obtain ⟨f', ran, stray⟩ := @tlookup_spec α t p short ⟨cells, false⟩
    rw [rootTried_iff, or_iff_right Bool.false_ne_true] at stray
    refine ⟨lookedUp t p, f', ran, lookedUp_correct short, ?_⟩
    exact Bool.eq_false_iff.mpr fun left => stray.mp left found

end Whole

/-- `/d` and `/d/a`. -/
def directoryName : CString := ⟨[slash, 100], by decide⟩

def fileName : CString := ⟨[slash, 100, slash, 97], by decide⟩

/-- A file in a directory of the tree, with a slash before the buffer. -/
theorem looksUp_fileName :
    LooksUp (SearchTree.empty.insert directoryName ()) fileName (fun _ => slash) := by
  refine (looksUp_iff _ fileName (by decide) _).mpr (.inr (.inr ⟨directoryName, ?_, ?_⟩))
  · rw [mem_names, SearchTree.search_insert, if_pos rfl]
    rfl
  · exact ⟨List.cons_ne_nil _ _, by decide, [97], rfl⟩

/-- The same file when the tree is empty. -/
theorem fileName_leaves_buffer :
    ¬LooksUp (SearchTree.empty : NameTree) fileName (fun _ => slash) := by
  refine not_looksUp (by decide) ?_ _
  rintro (relative | there | ⟨d, there, -⟩)
  · exact relative rfl
  · exact List.not_mem_nil there
  · exact List.not_mem_nil there

end MachFormal.Sup.Lookup
