import Mathlib.Data.List.TakeWhile
import Mathlib.Data.List.Basic
import Mathlib.Algebra.GroupWithZero.Nat
import MachFormal.Library.Compare

/-!
# Directories that make has read

The names in a directory are kept in a sorted table, and read again when the directory has
another modification time.  `srchpref` looks for the names that a pattern matches: in the
current directory one by one, and in a table only among those that begin as the pattern does.

A table keeps the descriptor of the directory that it was first filled from, and is filled from
it again; so it does not follow a name that has come to denote another directory.  The front of
a pattern is copied to a buffer without a look at its size.  The hash table of the directories
and what `addpref` does with a name are left out.
-/

/-!
## Bisection

The last index at which a predicate holds that holds up to some index and not behind it, and
what such predicates do to sorted lists.
-/

namespace MachFormal.Library.Bisect

/-- `i` is before and `j` behind the place that is looked for. -/
def bisect (p : Nat → Bool) (i j : Int) : Int :=
  if i + 1 < j then
    if p ((i + j) / 2).toNat then bisect p ((i + j) / 2) j else bisect p i ((i + j) / 2)
  else i
termination_by (j - i).toNat

theorem bisect_spec {p : Nat → Bool} {i j : Int} (first : -1 ≤ i) (less : i < j)
    (below : ∀ m : Nat, (m : Int) ≤ i → p m = true)
    (mono : ∀ m n : Nat, m ≤ n → (n : Int) < j → p n = true → p m = true) :
    i ≤ bisect p i j ∧ bisect p i j < j ∧ (∀ m : Nat, (m : Int) ≤ bisect p i j → p m = true) ∧
      ∀ m : Nat, bisect p i j < m → (m : Int) < j → p m = false := by
  induction i, j using bisect.induct p with
  | case1 i j more holds ih =>
      have index : (((i + j) / 2).toNat : Int) = (i + j) / 2 := Int.toNat_of_nonneg (by omega)
      have upTo : ∀ m : Nat, (m : Int) ≤ (i + j) / 2 → p m = true := fun m le =>
        mono m _ (by omega) (by omega) holds
      obtain ⟨low, high, front, back⟩ := ih (by omega) (by omega) upTo mono
      rw [bisect, if_pos more, if_pos holds]
      exact ⟨by omega, high, front, back⟩
  | case2 i j more fails ih =>
      have index : (((i + j) / 2).toNat : Int) = (i + j) / 2 := Int.toNat_of_nonneg (by omega)
      obtain ⟨low, high, front, back⟩ := ih (by omega) (by omega) below
        fun m n le lt => mono m n le (by omega)
      rw [bisect, if_pos more, if_neg fails]
      refine ⟨low, by omega, front, fun m behind lt => ?_⟩
      by_cases before : (m : Int) < (i + j) / 2
      · exact back m behind before
      · refine Bool.eq_false_iff.mpr fun holds => fails ?_
        exact mono _ m (by omega) lt holds
  | case3 i j done =>
      rw [bisect, if_neg done]
      exact ⟨Int.le_refl i, less, below, fun m behind lt => by omega⟩

theorem bisect_list {p : Nat → Bool} {n : Nat}
    (mono : ∀ i j : Nat, i ≤ j → j < n → p j = true → p i = true) :
    -1 ≤ bisect p (-1) n ∧ bisect p (-1) n < n ∧
      (∀ i : Nat, (i : Int) ≤ bisect p (-1) n → p i = true) ∧
      ∀ i : Nat, bisect p (-1) n < i → i < n → p i = false := by
  obtain ⟨low, high, front, back⟩ := @bisect_spec p (-1) n (Int.le_refl _) (by omega)
    (fun m le => by omega) fun i j le less => mono i j le (Int.ofNat_lt.mp less)
  exact ⟨low, high, front, fun i behind less => back i behind (Int.ofNat_lt.mpr less)⟩

section Fronts

variable {α : Type} {l : List α} {p : α → Bool}

theorem takeWhile_eq_filter (front : l.Pairwise fun a b => p b = true → p a = true) :
    l.takeWhile p = l.filter p := by
  induction l with
  | nil => rfl
  | cons a l ih =>
      obtain ⟨first, rest⟩ := List.pairwise_cons.mp front
      cases here : p a with
      | true =>
          rw [List.takeWhile_cons_of_pos here, List.filter_cons_of_pos here, ih rest]
      | false =>
          have other : ¬p a = true := Bool.eq_false_iff.mp here
          rw [List.takeWhile_cons_of_neg other, List.filter_cons_of_neg other]
          refine (List.filter_eq_nil_iff.mpr fun b inside holds => other ?_).symm
          exact first b inside holds

/-- What holds of the elements from an index on, and of none before, is a rest. -/
theorem drop_eq_filter {n : Nat} (before : ∀ i, i < n → ∀ a, l[i]? = some a → p a = false)
    (behind : ∀ i, n ≤ i → ∀ a, l[i]? = some a → p a = true) : l.drop n = l.filter p := by
  induction l generalizing n with
  | nil => rw [List.drop_nil, List.filter_nil]
  | cons a l ih =>
      cases n with
      | zero =>
          refine (List.filter_eq_self.mpr fun b inside => ?_).symm
          obtain ⟨i, found⟩ := List.getElem?_of_mem inside
          exact behind i (Nat.zero_le i) b found
      | succ n =>
          have other : ¬p a = true := Bool.eq_false_iff.mp (before 0 (Nat.succ_pos n) a rfl)
          rw [List.drop_succ_cons, List.filter_cons_of_neg other]
          exact ih (fun i less b found => before (i + 1) (Nat.succ_lt_succ less) b found)
            fun i le b found => behind (i + 1) (Nat.succ_le_succ le) b found

end Fronts

end MachFormal.Library.Bisect

namespace MachFormal.Make.Dirs

open Library.Bisect

abbrev Byte := BitVec 8

abbrev Name := List Byte

def strcmp : Name → Name → Int := Library.Compare.strcmp 0 BitVec.toInt

def star : Byte := 42
def dash : Byte := 45
def dot : Byte := 46
def slash : Byte := 47
def query : Byte := 63
def opening : Byte := 91
def backslash : Byte := 92
def closing : Byte := 93

/-! ## Patterns -/

/-- `index` finds the terminator of a string too. -/
def index (set : List Byte) (c : Byte) : Bool := c = 0 || set.contains c

/-- A class of characters, from behind its bracket on: what follows it, if the character is in
it.  Behind the end of a pattern there are terminators. -/
def inClass (scc : Int) (p : Name) (lc : Int) (k : Nat) : Option Name :=
  match p with
  | [] => none
  | cc :: p =>
      if cc = closing then if k = 0 then none else some p
      else if cc = dash ∧ ¬(p.headD 0 = 0 ∨ p.headD 0 = closing) then
        inClass scc p.tail lc (if lc ≤ scc ∧ scc ≤ (p.headD 0).toInt then k + 1 else k)
      else if cc = backslash ∧ index [closing, dash, backslash] (p.headD 0) = true then
        inClass scc p.tail (p.headD 0).toInt (if scc = (p.headD 0).toInt then k + 1 else k)
      else inClass scc p cc.toInt (if scc = cc.toInt then k + 1 else k)
termination_by p.length
decreasing_by
  all_goals
    simp only [List.length_tail, List.length_cons]
    omega

theorem length_inClass {scc lc : Int} {p rest : Name} {k : Nat}
    (found : inClass scc p lc k = some rest) : rest.length < p.length := by
  induction size : p.length using Nat.strong_induction_on generalizing p lc k with
  | _ n ih =>
      subst size
      cases p with
      | nil => rw [inClass] at found; cases found
      | cons cc p =>
          have tail : p.tail.length < (cc :: p).length := by
            rw [List.length_tail, List.length_cons]
            omega
          rw [inClass] at found
          split at found
          · split at found
            · cases found
            · cases found
              exact Nat.lt_succ_self _
          · split at found
            · exact Nat.lt_trans (ih _ tail found rfl) tail
            · split at found
              · exact Nat.lt_trans (ih _ tail found rfl) tail
              · exact Nat.lt_trans (ih _ (Nat.lt_succ_self _) found rfl) (Nat.lt_succ_self _)

/-- The character that is meant when the pattern does not start with an operator, and the rest. -/
def literal (c : Byte) (p : Name) : Byte × Name :=
  if c = backslash ∧ index [opening, query, star, backslash] (p.headD 0) = true then
    (p.headD 0, p.tail)
  else (c, p)

theorem length_literal (c : Byte) (p : Name) : (literal c p).2.length ≤ p.length := by
  rw [literal]
  split
  · rw [List.length_tail]
    omega
  · exact Nat.le_refl _

/-- Behind the end of a name there are terminators. -/
def amatch (s p : Name) : Bool :=
  match p with
  | [] => s.isEmpty
  | c :: p =>
      if c = opening then
        match h : inClass (s.headD 0).toInt p 0x7fff 0 with
        | none => false
        | some rest =>
            have := length_inClass h
            amatch s.tail rest
      else if c = query then !s.isEmpty && amatch s.tail p
      else if c = star then p.isEmpty || s.tails.any fun s => !s.isEmpty && amatch s p
      else
        have := length_literal c p
        if (literal c p).1 = s.headD 0 then amatch s.tail (literal c p).2 else false
termination_by p.length

def ptrcmp (a b : Name) : Int :=
  if (a.headD 0).toInt - (b.headD 0).toInt ≠ 0 then (a.headD 0).toInt - (b.headD 0).toInt
  else strcmp a b

/-! ## Tables -/

def DIRTABSIZE : Nat := 64

/-- `struct dirhdr`; `nsize` is the number of slots of `ntable`, and `dirfc` the directory whose
descriptor is kept. -/
structure Dirhdr where
  ntable : List Name
  nents : Nat
  mtime : Int
  dirfc : Option Nat

/-- `opendir`: the directory that the name denotes. -/
inductive Opened where
  | directory (dirf : Nat)
  | noent
  | failed

/-- One name goes to the table, which grows when it is full. -/
def addEntry (dh : Dirhdr) (name : Name) : Dirhdr :=
  let ntable :=
    if dh.nents = dh.ntable.length then
      if dh.ntable.isEmpty then List.replicate DIRTABSIZE []
      else dh.ntable ++ List.replicate dh.ntable.length []
    else dh.ntable
  { dh with ntable := ntable.set dh.nents name, nents := dh.nents + 1 }

def qsortPtrcmp (a b : Name) : Bool := ptrcmp a b ≤ 0

/-- The loop over the directory and the call of `qsort`. -/
def fill (dh : Dirhdr) (names : List Name) : Dirhdr :=
  let dh := names.foldl addEntry dh
  { dh with ntable := (dh.ntable.take dh.nents).mergeSort qsortPtrcmp ++ dh.ntable.drop dh.nents }

/-- What is outside of the program when a directory is looked up: what the directories hold,
also those that no name denotes any more, what `stat` and `opendir` give for the name, and
whether another descriptor can be kept (`nopdir < maxdir`). -/
structure Moment where
  readdir : Nat → List Name
  stat : Option Int
  opendir : Opened
  room : Bool

/-- The header that is filled, or nothing when that is fatal. -/
def mscandir (m : Moment) (dh : Option Dirhdr) (mtime : Int) : Option Dirhdr :=
  let dh : Dirhdr := { (dh.getD ⟨[], 0, 0, none⟩) with nents := 0, mtime := mtime }
  match dh.dirfc with
  | some dirf => some (fill dh (m.readdir dirf))
  | none =>
      match m.opendir with
      | .noent => some dh
      | .failed => none
      | .directory dirf =>
          some (fill { dh with dirfc := if m.room then some dirf else none } (m.readdir dirf))

/-- What `finddir` finds; `cdhdr` stands for the directory that `cdirf` reads. -/
inductive Found where
  | fatal
  | missing
  | cdhdr (cdirf : Nat)
  | header (dh : Dirhdr)

def isCurrent (nam : Name) : Bool := nam.isEmpty || nam = [dot] || nam = [dot, slash]

/-- `finddir`, with the header that is known for the name. -/
def finddir (m : Moment) (nam : Name) (known : Option Dirhdr) : Found :=
  if isCurrent nam then
    match m.opendir with
    | .directory cdirf => .cdhdr cdirf
    | _ => .missing
  else
    match m.stat with
    | none => .missing
    | some mtime =>
        match known with
        | some dh =>
            if mtime ≠ dh.mtime then (mscandir m (some dh) mtime).elim .fatal .header
            else .header dh
        | none => (mscandir m none mtime).elim .fatal .header

/-! ## The search -/

def special : List Byte := [star, query, opening, backslash]

/-- The longest name that `struct direct` holds. -/
def MAXNAMLEN : Nat := 255

/-- The front of a pattern that is without operators. -/
def pbuf (fpat : Name) : Name := fpat.takeWhile fun c => !special.contains c

/-- Nothing but a star follows it. -/
def isPrefix (fpat : Name) : Bool := fpat.dropWhile (fun c => !special.contains c) = [star]

/-- The names of the current directory that are added. -/
def plain (fpat : Name) (names : List Name) : List Name :=
  names.filter fun p => decide (pbuf fpat <+: p) && ( isPrefix fpat || amatch p fpat)

/-- Where the search in a table starts. -/
def start (q : Name) (table : List Name) : Nat :=
  let i := bisect (fun k => decide (0 ≤ ptrcmp q (table.getD k []))) (-1) table.length
  if i = -1 ∨ ptrcmp q (table.getD i.toNat []) ≠ 0 then (i + 1).toNat else i.toNat

/-- The names of a table that are added. -/
def cached (fpat : Name) (table : List Name) : List Name :=
  ((table.drop (start (pbuf fpat) table)).takeWhile fun p => decide (pbuf fpat <+: p)).filter
    fun p => isPrefix fpat || amatch p fpat

/-- The names that `srchpref` adds in what `finddir` has found.  Nothing is said of what happens
when the front does not fit `pbuf`. -/
def srchpref (m : Moment) (fpat : Name) (d : Found) : Option (List Name) :=
  match d with
  | .cdhdr cdirf =>
      if MAXNAMLEN < (pbuf fpat).length then none else some (plain fpat (m.readdir cdirf))
  | .header dh =>
      if MAXNAMLEN < (pbuf fpat).length then none
      else some (cached fpat (dh.ntable.take dh.nents))
  | _ => some []

/-! ## Patterns and their fronts -/

section Fronts

variable {s p q : Name} {c : Byte}

theorem amatch_ordinary (ordinary : special.contains c = false) (visible : c ≠ 0) :
    amatch s (c :: p) = true ↔ ∃ t, s = c :: t ∧ amatch t p = true := by
  have other : c ≠ star ∧ c ≠ query ∧ c ≠ opening ∧ c ≠ backslash := by
    refine ⟨?_, ?_, ?_, ?_⟩ <;> (rintro rfl; revert ordinary; decide)
  have plain : literal c p = (c, p) := if_neg fun h => other.2.2.2 h.1
  rw [amatch, if_neg other.2.2.1, if_neg other.2.1, if_neg other.1, plain]
  cases s with
  | nil =>
      rw [if_neg (show ¬c = List.headD [] 0 from visible)]
      exact ⟨fun h => (by cases h), fun ⟨t, h, _⟩ => (by cases h)⟩
  | cons d s =>
      by_cases same : c = d
      · rw [if_pos (show c = (d :: s).headD 0 from same), same]
        exact ⟨fun h => ⟨s, rfl, h⟩, fun ⟨t, equal, h⟩ => (List.cons_eq_cons.mp equal).2 ▸ h⟩
      · rw [if_neg (show ¬c = (d :: s).headD 0 from same)]
        exact ⟨fun h => (by cases h), fun ⟨t, equal, _⟩ =>
          absurd (List.cons_eq_cons.mp equal).1.symm same⟩

theorem amatch_front {front : Name} (ordinary : ∀ c ∈ front, special.contains c = false)
    (visible : (0 : Byte) ∉ front) :
    amatch s (front ++ p) = true ↔ ∃ t, s = front ++ t ∧ amatch t p = true := by
  induction front generalizing s with
  | nil => exact ⟨fun h => ⟨s, rfl, h⟩, fun ⟨t, same, h⟩ => same ▸ h⟩
  | cons c front ih =>
      have head : c ≠ 0 := fun same => visible (same ▸ List.mem_cons_self)
      have tail := fun s => @ih s (fun d inside => ordinary d (List.mem_cons_of_mem c inside))
        fun inside => visible (List.mem_cons_of_mem c inside)
      rw [List.cons_append, amatch_ordinary (ordinary c List.mem_cons_self) head]
      constructor
      · rintro ⟨t, rfl, h⟩
        obtain ⟨rest, rfl, matched⟩ := (tail t).mp h
        exact ⟨rest, rfl, matched⟩
      · rintro ⟨t, rfl, h⟩
        exact ⟨front ++ t, rfl, (tail _).mpr ⟨t, rfl, h⟩⟩

theorem amatch_star (s : Name) : amatch s [star] = true := by
  rw [amatch, if_neg (by decide), if_neg (by decide), if_pos rfl]
  rfl

theorem pbuf_ordinary (fpat : Name) : ∀ c ∈ pbuf fpat, special.contains c = false := by
  intro c inside
  have := List.mem_takeWhile_imp inside
  simpa only [Bool.not_eq_true'] using this

/-- A name that is matched begins as the pattern does; when only a star follows, that is all. -/
theorem amatch_pbuf {fpat n : Name} (text : (0 : Byte) ∉ fpat) :
    (amatch n fpat = true → pbuf fpat <+: n) ∧
      (isPrefix fpat = true → pbuf fpat <+: n → amatch n fpat = true) := by
  have whole : pbuf fpat ++ fpat.dropWhile (fun c => !special.contains c) = fpat :=
    List.takeWhile_append_dropWhile
  have visible : (0 : Byte) ∉ pbuf fpat := fun inside =>
    text (List.takeWhile_prefix _ |>.subset inside)
  have front := @amatch_front n (fpat.dropWhile fun c => !special.contains c) (pbuf fpat)
    (pbuf_ordinary fpat) visible
  rw [whole] at front
  constructor
  · intro h
    obtain ⟨t, rfl, -⟩ := front.mp h
    exact List.prefix_append _ _
  · rintro only ⟨t, rfl⟩
    refine front.mpr ⟨t, rfl, ?_⟩
    rw [of_decide_eq_true only]
    exact amatch_star t

/-- The names that pass both tests are those that are matched. -/
theorem passes_iff {fpat n : Name} (text : (0 : Byte) ∉ fpat) :
    pbuf fpat <+: n ∧ ( isPrefix fpat || amatch n fpat) = true ↔ amatch n fpat = true := by
  obtain ⟨front, only⟩ := @amatch_pbuf fpat n text
  rw [Bool.or_eq_true]
  exact ⟨fun ⟨start, h⟩ => h.elim (fun yes => only yes start) id, fun h => ⟨front h, Or.inr h⟩⟩

end Fronts

/-! ## Tables in order -/

section Tables

theorem ptrcmp_eq (a b : Name) : ptrcmp a b = strcmp a b := by
  rw [ptrcmp]
  split
  · rename_i differ
    cases a with
    | nil =>
        cases b with
        | nil => exact absurd (Int.sub_self _) differ
        | cons d b => rfl
    | cons c a =>
        cases b with
        | nil => rfl
        | cons d b =>
            have other : c ≠ d := fun same => differ (by rw [same]; exact Int.sub_self _)
            exact (if_neg other).symm
  · rfl

theorem strcmp_trans {a b c : Name} (first : strcmp a b ≤ 0) (second : strcmp b c ≤ 0) :
    strcmp a c ≤ 0 :=
  Library.Compare.strcmp_trans (fun _ _ => BitVec.toInt_inj.mp) first second

theorem strcmp_swap (a b : Name) : strcmp b a = -strcmp a b :=
  Library.Compare.strcmp_swap a b

/-- A name of seven-bit characters. -/
structure FileName (n : Name) : Prop where
  ne_nil : n ≠ []
  ascii : ∀ c ∈ n, (0 : Byte).toInt < c.toInt

theorem FileName.noNul {n : Name} (h : FileName n) : (0 : Byte) ∉ n := fun inside =>
  Int.lt_irrefl _ (h.ascii 0 inside)

/-- A table that can be searched. -/
structure Ordered (table : List Name) : Prop where
  file : ∀ n ∈ table, FileName n
  nodup : table.Nodup
  sorted : table.Pairwise fun a b => strcmp a b ≤ 0

variable {table : List Name} {q : Name}

theorem Ordered.le {i j : Nat} {a b : Name} (h : Ordered table) (le : i ≤ j)
    (first : table[i]? = some a) (second : table[j]? = some b) : strcmp a b ≤ 0 := by
  rcases Nat.lt_or_eq_of_le le with less | rfl
  · obtain ⟨bound, rfl⟩ := List.getElem?_eq_some_iff.mp first
    obtain ⟨bound', rfl⟩ := List.getElem?_eq_some_iff.mp second
    exact List.pairwise_iff_getElem.mp h.sorted i j bound bound' less
  · cases first.symm.trans second
    refine Int.le_of_eq ?_
    rw [strcmp, Library.Compare.strcmp_self]

theorem eq_of_strcmp {a : Name} (text : (0 : Byte) ∉ q) (text' : (0 : Byte) ∉ a) :
    strcmp q a = 0 ↔ q = a :=
  Library.Compare.strcmp_eq_zero (fun _ _ => BitVec.toInt_inj.mp) text text'

/-- The search starts at the first name that is not before the one that is looked for. -/
theorem start_spec (h : Ordered table) (text : (0 : Byte) ∉ q) :
    (∀ i, i < start q table → ∀ a, table[i]? = some a → ¬strcmp q a ≤ 0) ∧
      ∀ i, start q table ≤ i → ∀ a, table[i]? = some a → strcmp q a ≤ 0 := by
  have get : ∀ {i : Nat} {a : Name}, table[i]? = some a → table.getD i [] = a := fun found => by
    rw [List.getD_eq_getElem?_getD, found, Option.getD_some]
  have bound : ∀ {i : Nat} {a : Name}, table[i]? = some a → i < table.length := fun found =>
    (List.getElem?_eq_some_iff.mp found).1
  have holds_iff : ∀ {i : Nat} {a : Name}, table[i]? = some a →
      (decide (0 ≤ ptrcmp q (table.getD i [])) = true ↔ strcmp a q ≤ 0) := fun found => by
    rw [get found, ptrcmp_eq, decide_eq_true_eq, strcmp_swap q]
    omega
  have beyond : ∀ {m : Nat}, m < table.length → ∃ a, table[m]? = some a := fun less =>
    ⟨_, List.getElem?_eq_getElem less⟩
  obtain ⟨low, high, front, back⟩ := @bisect_list
    (fun k => decide (0 ≤ ptrcmp q (table.getD k []))) table.length fun i j le less holds => by
      obtain ⟨a, found⟩ := beyond (Nat.lt_of_le_of_lt le less)
      obtain ⟨b, found'⟩ := beyond less
      rw [holds_iff found'] at holds
      rw [holds_iff found]
      exact strcmp_trans (h.le le found found') holds
  rw [start]
  generalize bisect (fun k => decide (0 ≤ ptrcmp q (table.getD k []))) (-1) table.length = r at *
  have after : ∀ {i : Nat} {a : Name}, r < i → table[i]? = some a → strcmp q a ≤ 0 := by
    intro i a behind found
    have fails := Bool.eq_false_iff.mp (back i behind (bound found))
    rw [Ne, holds_iff found, strcmp_swap q] at fails
    omega
  split
  · rename_i apart
    refine ⟨fun i less a found no => ?_, fun i le a found => after (by omega) found⟩
    obtain ⟨b, last⟩ := @beyond r.toNat (by omega)
    have differ := apart.resolve_left (by omega)
    rw [get last, ptrcmp_eq] at differ
    have below := (holds_iff last).mp (front r.toNat (by omega))
    have above := strcmp_trans no (h.le (by omega) found last)
    rw [strcmp_swap q] at below
    omega
  · rename_i here
    rw [not_or, not_not] at here
    obtain ⟨some, equal⟩ := here
    obtain ⟨b, last⟩ := @beyond r.toNat (by omega)
    rw [get last, ptrcmp_eq] at equal
    refine ⟨fun i less a found no => ?_, fun i le a found => ?_⟩
    · have below := (holds_iff found).mp (front i (by omega))
      rw [strcmp_swap q] at below
      have same := (eq_of_strcmp text (h.file a (List.mem_of_getElem? found)).noNul).mp (by omega)
      have same' := (eq_of_strcmp text (h.file b (List.mem_of_getElem? last)).noNul).mp equal
      have index := (List.getElem?_inj (bound found) h.nodup).mp
        (found.trans ((same.symm.trans same') ▸ last.symm))
      omega
    · rcases Nat.lt_or_eq_of_le le with less | rfl
      · exact after (by omega) found
      · cases last.symm.trans found
        omega

/-- The names behind the start that begin with the text come first. -/
theorem starts_front (h : Ordered table) :
    (table.filter fun n => decide (strcmp q n ≤ 0)).Pairwise fun a b =>
      decide (q <+: b) = true → decide (q <+: a) = true := by
  refine (h.sorted.filter _).imp_of_mem fun {a b} first second le start => ?_
  rw [List.mem_filter] at first second
  obtain ⟨t, rfl⟩ := of_decide_eq_true start
  refine decide_eq_true ?_
  refine Library.Compare.prefix_of_between (fun _ _ => BitVec.toInt_inj.mp) (fun c inside => ?_)
    (of_decide_eq_true first.2) le
  exact (h.file _ second.1).ascii c (List.mem_append_left t inside)

/-- What is found in a table are the names that are matched, in their order. -/
theorem cached_eq {fpat : Name} (h : Ordered table) (text : (0 : Byte) ∉ fpat) :
    cached fpat table = table.filter (amatch · fpat) := by
  have visible : (0 : Byte) ∉ pbuf fpat := fun inside =>
    text ((List.takeWhile_prefix _).subset inside)
  obtain ⟨before, behind⟩ := start_spec h visible
  have rest : table.drop (start (pbuf fpat) table) =
      table.filter fun n => decide (strcmp (pbuf fpat) n ≤ 0) :=
    drop_eq_filter (fun i less a found => decide_eq_false (before i less a found))
      fun i le a found => decide_eq_true (behind i le a found)
  rw [cached, rest, takeWhile_eq_filter (starts_front h), List.filter_filter, List.filter_filter]
  refine List.filter_congr fun n inside => Bool.eq_iff_iff.mpr ?_
  rw [Bool.and_eq_true, Bool.and_eq_true, decide_eq_true_eq, decide_eq_true_eq,
    ← passes_iff text]
  constructor
  · rintro ⟨⟨pass, start⟩, -⟩
    exact ⟨start, pass⟩
  · rintro ⟨start, pass⟩
    refine ⟨⟨pass, start⟩, ?_⟩
    obtain ⟨t, rfl⟩ := start
    exact Library.Compare.strcmp_append_le fun c member =>
      (h.file _ inside).ascii c (List.mem_append_right _ member)

end Tables

/-! ## Reading a directory -/

section Reading

/-- The names of a header. -/
def Dirhdr.names (dh : Dirhdr) : List Name := dh.ntable.take dh.nents

theorem addEntry_names {dh : Dirhdr} (fits : dh.nents ≤ dh.ntable.length) (name : Name) :
    (addEntry dh name).names = dh.names ++ [name] ∧
      (addEntry dh name).nents ≤ (addEntry dh name).ntable.length := by
  have room : ∀ table : List Name, dh.nents < table.length → table.take dh.nents = dh.names →
      (table.set dh.nents name).take (dh.nents + 1) = dh.names ++ [name] := by
    intro table less same
    have inside : dh.nents < (table.set dh.nents name).length := by rwa [List.length_set]
    rw [List.take_succ_eq_append_getElem inside, List.take_set_of_le (Nat.le_refl _), same,
      List.getElem_set_self]
  have kept : dh.nents < dh.ntable.length ∨ dh.nents = dh.ntable.length :=
    Nat.lt_or_eq_of_le fits
  rw [addEntry]
  simp only [Dirhdr.names, List.length_set]
  rcases kept with less | full
  · rw [if_neg (Nat.ne_of_lt less)]
    exact ⟨room _ less rfl, less⟩
  · rw [if_pos full]
    split
    · rename_i empty
      rw [List.isEmpty_iff] at empty
      rw [empty, List.length_nil] at full
      refine ⟨room _ ?_ ?_, ?_⟩
      · rw [full, List.length_replicate]
        decide
      · rw [Dirhdr.names, full, List.take_zero, List.take_zero]
      · rw [full, List.length_replicate]
        decide
    · rename_i some
      have positive : 0 < dh.ntable.length := List.length_pos_iff.mpr fun empty =>
        some (List.isEmpty_iff.mpr empty)
      refine ⟨room _ ?_ ?_, ?_⟩
      · rw [List.length_append, List.length_replicate]
        omega
      · rw [Dirhdr.names, List.take_append_of_le_length (Nat.le_of_eq full)]
      · rw [List.length_append, List.length_replicate]
        omega

theorem addEntries_names {dh : Dirhdr} (fits : dh.nents ≤ dh.ntable.length) (names : List Name) :
    (names.foldl addEntry dh).names = dh.names ++ names ∧
      (names.foldl addEntry dh).nents ≤ (names.foldl addEntry dh).ntable.length := by
  induction names generalizing dh with
  | nil => exact ⟨(List.append_nil _).symm, fits⟩
  | cons name names ih =>
      obtain ⟨added, fits'⟩ := addEntry_names fits name
      obtain ⟨all, fits''⟩ := ih fits'
      refine ⟨?_, fits''⟩
      rw [List.foldl_cons, all, added, List.append_assoc]
      rfl

theorem qsortPtrcmp_iff (a b : Name) : qsortPtrcmp a b = true ↔ strcmp a b ≤ 0 := by
  rw [qsortPtrcmp, decide_eq_true_eq, ptrcmp_eq]

theorem sorted_qsort (names : List Name) :
    (names.mergeSort qsortPtrcmp).Pairwise fun a b => strcmp a b ≤ 0 := by
  refine (List.pairwise_mergeSort (fun a b c first second => ?_) (fun a b => ?_) names).imp
    fun le => (qsortPtrcmp_iff _ _).mp le
  · rw [qsortPtrcmp_iff] at first second ⊢
    exact strcmp_trans first second
  · rw [Bool.or_eq_true, qsortPtrcmp_iff, qsortPtrcmp_iff]
    exact Library.Compare.strcmp_total a b

/-- The table holds the names of the directory, in order. -/
structure Filled (dh : Dirhdr) (names : List Name) : Prop where
  perm : dh.names.Perm names
  sorted : dh.names.Pairwise fun a b => strcmp a b ≤ 0

/-- Whatever was in the table, it is filled with what is read. -/
theorem fill_filled {dh : Dirhdr} (empty : dh.nents = 0) (names : List Name) :
    (fill dh names).mtime = dh.mtime ∧ (fill dh names).dirfc = dh.dirfc ∧
      Filled (fill dh names) names := by
  have others : ∀ (dh : Dirhdr) (names : List Name), (names.foldl addEntry dh).mtime = dh.mtime ∧
      (names.foldl addEntry dh).dirfc = dh.dirfc := by
    intro dh names
    induction names generalizing dh with
    | nil => exact ⟨rfl, rfl⟩
    | cons name names ih => exact ih (addEntry dh name)
  obtain ⟨all, fits⟩ := @addEntries_names dh (empty ▸ Nat.zero_le _) names
  refine ⟨(others dh names).1, (others dh names).2, ?_⟩
  rw [fill]
  have nothing : dh.names = [] := by rw [Dirhdr.names, empty, List.take_zero]
  generalize List.foldl addEntry dh names = dh' at *
  have read : dh'.ntable.take dh'.nents = names := all.trans (by rw [nothing, List.nil_append])
  have size : dh'.nents = names.length := by
    rw [← read, List.length_take, Nat.min_eq_left fits]
  have front : (names.mergeSort qsortPtrcmp ++ dh'.ntable.drop dh'.nents).take dh'.nents =
      names.mergeSort qsortPtrcmp :=
    List.take_left' (by rw [List.length_mergeSort, size])
  rw [read]
  refine ⟨?_, ?_⟩
  · rw [Dirhdr.names, front]
    exact List.mergeSort_perm names qsortPtrcmp
  · rw [Dirhdr.names, front]
    exact sorted_qsort names

end Reading

/-! ## A directory over time -/

/-- The files of a directory. -/
structure Contents where
  names : List Name
  nodup : names.Nodup
  file : ∀ n ∈ names, FileName n

/-- A pattern without its terminator. -/
structure Pattern where
  data : Name
  noNul : (0 : Byte) ∉ data

section Time

/-- The name denotes the directory `dir`, which holds what it holds at its time. -/
structure Denotes (contents : Int → Contents) (dir : Nat) (m : Moment) (mtime : Int) : Prop where
  stat : m.stat = some mtime
  opendir : m.opendir = .directory dir
  readdir : m.readdir dir = (contents mtime).names

/-- At every one of the moments the name denotes the same directory. -/
def Unreplaced (contents : Int → Contents) (dir : Nat) (moments : List Moment) : Prop :=
  ∀ m ∈ moments, ∃ mtime, Denotes contents dir m mtime

/-- The header that is known afterwards. -/
def Found.known : Found → Option Dirhdr
  | .header dh => some dh
  | _ => none

/-- The directory is looked up at several moments, one after the other. -/
def history (nam : Name) (moments : List Moment) : Option Dirhdr :=
  moments.foldl (fun known m => (finddir m nam known).known) none

/-- A header that is known is filled with what the directory held at its time, and keeps no other
descriptor. -/
def Faithful (contents : Int → Contents) (dir : Nat) (known : Option Dirhdr) : Prop :=
  ∀ dh, known = some dh → Filled dh (contents dh.mtime).names ∧ ∀ dirf, dh.dirfc = some dirf →
    dirf = dir

variable {nam : Name} {contents : Int → Contents} {dir : Nat}

theorem finddir_faithful {known : Option Dirhdr} (other : isCurrent nam = false)
    (faithful : Faithful contents dir known) {m : Moment} {mtime : Int}
    (denotes : Denotes contents dir m mtime) :
    ∃ dh, finddir m nam known = .header dh ∧ dh.mtime = mtime ∧
      Filled dh (contents mtime).names ∧ ∀ dirf, dh.dirfc = some dirf → dirf = dir := by
  have scan : ∃ dh, (mscandir m known mtime).elim Found.fatal .header = .header dh ∧
      dh.mtime = mtime ∧ Filled dh (contents mtime).names ∧
      ∀ dirf, dh.dirfc = some dirf → dirf = dir := by
    rw [mscandir]
    dsimp only
    split
    next dirf kept =>
      -- the descriptor is that of the directory
      have same : dirf = dir := by
        cases known with
        | none => cases kept
        | some dh => exact (faithful dh rfl).2 dirf kept
      rw [same, denotes.readdir]
      rw [same] at kept
      obtain ⟨time, dirfc, filled⟩ := @fill_filled
        { (known.getD ⟨[], 0, 0, none⟩) with nents := 0, mtime := mtime } rfl (contents mtime).names
      refine ⟨_, rfl, time, filled, fun dirf' h => ?_⟩
      exact (Option.some.inj (kept.symm.trans (dirfc.symm.trans h))).symm
    next =>
      rw [denotes.opendir]
      dsimp only
      rw [denotes.readdir]
      obtain ⟨time, dirfc, filled⟩ := @fill_filled
        { (known.getD ⟨[], 0, 0, none⟩) with
          nents := 0, mtime := mtime, dirfc := if m.room then some dir else none } rfl
        (contents mtime).names
      refine ⟨_, rfl, time, filled, fun dirf h => ?_⟩
      have kept := dirfc.symm.trans h
      dsimp only at kept
      split at kept
      · exact (Option.some.inj kept).symm
      · cases kept
  rw [finddir, if_neg (Bool.eq_false_iff.mp other), denotes.stat]
  dsimp only
  cases known with
  | none => exact scan
  | some dh =>
      by_cases same : mtime = dh.mtime
      · obtain ⟨filled, kept⟩ := faithful dh rfl
        exact ⟨dh, if_neg (not_not_intro same), same.symm, same ▸ filled, kept⟩
      · obtain ⟨dh', read, rest⟩ := scan
        exact ⟨dh', (if_pos same).trans read, rest⟩

theorem history_faithful (other : isCurrent nam = false) {moments : List Moment}
    (unreplaced : Unreplaced contents dir moments) :
    Faithful contents dir (history nam moments) := by
  rw [history]
  generalize start : (none : Option Dirhdr) = known
  have faithful : Faithful contents dir known := fun dh h => by rw [← start] at h; cases h
  clear start
  induction moments generalizing known with
  | nil => exact faithful
  | cons m moments ih =>
      refine ih (fun m' later => unreplaced m' (List.mem_cons_of_mem m later)) _ fun dh h => ?_
      obtain ⟨mtime, denotes⟩ := unreplaced m List.mem_cons_self
      obtain ⟨dh', read, time, rest⟩ := finddir_faithful other faithful denotes
      have same : (finddir m nam known).known = some dh := h
      rw [read] at same
      cases same
      exact time ▸ rest

theorem Filled.ordered {dh : Dirhdr} {c : Contents} (h : Filled dh c.names) :
    Ordered dh.names where
  file n inside := c.file n (h.perm.mem_iff.mp inside)
  nodup := h.perm.nodup_iff.mpr c.nodup
  sorted := h.sorted

theorem mem_plain {fpat : Pattern} {names : List Name} {n : Name} :
    n ∈ plain fpat.data names ↔ n ∈ names ∧ amatch n fpat.data = true := by
  rw [plain, List.mem_filter, Bool.and_eq_true, decide_eq_true_eq, passes_iff fpat.noNul]

end Time

/-- Looked up by the name `nam` after these moments, the directory is searched as well as by the
name `here`, when it is the current directory: each name that the pattern matches is added,
once. -/
def Agrees (nam here : Name) (moments : List Moment) (now : Moment) (names : List Name)
    (fpat : Name) : Prop :=
  ∃ added scanned, srchpref now fpat (finddir now nam (history nam moments)) = some added ∧
    srchpref now fpat (finddir now here none) = some scanned ∧ added.Nodup ∧
    (∀ n, n ∈ added ↔ n ∈ names ∧ amatch n fpat = true) ∧ ∀ n, n ∈ added ↔ n ∈ scanned

/-- A directory to which `b` comes after time 0. -/
def growing (mtime : Int) : Contents :=
  if mtime = 0 then
    ⟨[[97]], by decide, fun n inside => by
      rw [List.mem_singleton.mp inside]
      exact ⟨List.cons_ne_nil _ _, by decide⟩⟩
  else
    ⟨[[98], [97]], by decide, fun n inside => by
      rcases List.mem_cons.mp inside with rfl | inside
      · exact ⟨List.cons_ne_nil _ _, by decide⟩
      · rw [List.mem_singleton.mp inside]
        exact ⟨List.cons_ne_nil _ _, by decide⟩⟩

/-- At this time the name denotes the directory `dir`, and all directories hold the same. -/
def growingAt (dir : Nat) (mtime : Int) : Moment :=
  ⟨fun _ => (growing mtime).names, some mtime, .directory dir, true⟩

theorem growingAt_denotes (dir : Nat) (mtime : Int) :
    Denotes growing dir (growingAt dir mtime) mtime :=
  ⟨rfl, rfl, rfl⟩

/-- Directory 3 stays as it was, and directory 4 with the name `b` takes its place. -/
def replacedAt (dir : Nat) (mtime : Int) : Moment :=
  { growingAt dir mtime with readdir := fun d => if d = 4 then (growing 1).names else (growing 0).names }

end MachFormal.Make.Dirs
