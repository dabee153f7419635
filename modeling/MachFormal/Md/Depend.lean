import Mathlib.Data.List.Forall2
import Mathlib.Data.List.TakeWhile
import MachFormal.Library.Compare
import MachFormal.Library.Paths

/-!
# Dependency files

`md` reads the dependency files of the compiler, brings the names in them to a canonical form
and writes each of them once, in order, on lines that are filled.  A name is taken apart in
`dep_line` and put together again in `file_array`, over the line that it comes from.  The
sizes of the arrays are left out, as no file is meant to exceed them.

A name of which nothing is left is not stored, and the terminator then goes before the line;
and what follows the last newline is not looked at.
-/

namespace MachFormal.Md

open Library.Paths

abbrev Byte := BitVec 8

abbrev Name := List Byte

def newline : Byte := 10
def tab : Byte := 9
def space : Byte := 32
def dot : Byte := 46
def slash : Byte := 47
def colon : Byte := 58

/-- The contents of a file of text. -/
structure TextFile where
  data : List Byte
  noNul : (0 : Byte) ∉ data

def OUTLINELEN : Int := 79

def strcmp : Name → Name → Int := Library.Compare.strcmp 0 BitVec.toInt

/-! ## Reading -/

/-- The string that an array holds from an index on. -/
def string (array : List Byte) (start : Nat) : Name := (array.drop start).takeWhile (· ≠ 0)

def saveDotO : List Byte → Name
  | [] => []
  | c :: cp => if c = 0 then [] else if c = colon then [c] else c :: saveDotO cp

structure Dep where
  len : Int
  str : Nat

def blank (c : Byte) : Bool := c = space || c = tab

/-- The name in a line, behind the name of the `.o` file. -/
def pathOf (depLine : Name) : Name :=
  ((depLine.dropWhile (· ≠ colon)).drop 1).dropWhile blank

/-- What a component does to the ones before it. -/
def component (paths : List Name) (c : Name) : List Name :=
  if c = [dot] then paths
  else if c ≠ [dot, dot] then paths ++ [c]
  else if paths = [] ∨ paths.getLast? = some [dot, dot] then paths ++ [c]
  else paths.dropLast

/-- The loop over the components of a name. -/
def crunch : Nat → List Name → Name → List Name
  | 0, paths, _ => paths
  | fuel + 1, paths, cp =>
      let cp := cp.dropWhile (· = slash)
      if cp = [] then paths
      else
        crunch fuel (component paths (cp.takeWhile (· ≠ slash)))
          ((cp.dropWhile (· ≠ slash)).drop 1)

/-- Stores into `file_array`. -/
abbrev Stores := List (Int × Byte)

def copy (cp : Int) : Name → Stores
  | [] => []
  | c :: ccp => (cp, c) :: copy (cp + 1) ccp

/-- One component is put together with the ones before it; a separator is stored over its
terminator. -/
def append (s : Stores × Int) (c : Name) : Stores × Int :=
  (s.1 ++ copy s.2 (c ++ [0]) ++ [(s.2 + c.length, slash)], s.2 + c.length + 1)

/-- The components are put together; the terminator is stored over the last separator. -/
def reassemble (tlp : Nat) (abspath : Bool) (paths : List Name) : Stores × Int :=
  let s : Stores × Int := if abspath then ([(tlp, slash)], tlp + 1) else ([], tlp)
  let s := paths.foldl append s
  (s.1 ++ [(s.2 - 1, 0)], s.2 - 1)

/-- Stores before the array do not change it. -/
def store (array : List Byte) (stores : Stores) : List Byte :=
  stores.foldl (fun array s => if s.1 < 0 then array else array.set s.1.toNat s.2) array

/-- A line is rewritten between two indexes. -/
structure Rewrite where
  tlp : Nat
  lp : Nat
  stores : Stores

structure Parsed where
  fileArray : List Byte
  depFiles : List Dep
  rewrites : List Rewrite

def Parsed.line (p : Parsed) (tlp lp : Nat) (cp : Name) : Parsed :=
  let paths := crunch cp.length [] cp
  let s := reassemble tlp (cp.head? = some slash) paths
  { fileArray := store p.fileArray s.1
    depFiles := p.depFiles ++ [⟨s.2 - tlp, tlp⟩]
    rewrites := p.rewrites ++ [⟨tlp, lp, s.1⟩] }

/-- The loop of `parse_dep`. -/
def parseLines : Nat → Parsed → Nat → Parsed
  | 0, p, _ => p
  | fuel + 1, p, tlp =>
      if p.fileArray.getD tlp 0 = 0 then p
      else
        let line := (p.fileArray.drop tlp).takeWhile fun c => c ≠ 0 && c ≠ newline
        let lp := tlp + line.length + 1
        if p.fileArray.getD (lp - 1) 0 = 0 then p
        else
          let p := { p with fileArray := p.fileArray.set (lp - 1) 0 }
          let cp := pathOf line
          parseLines fuel (if cp = [] then p else p.line tlp lp cp) lp

def parseDep (file : List Byte) : Parsed := parseLines file.length ⟨file ++ [0], [], []⟩ 0

/-! ## Writing -/

/-- The entries with their strings. -/
def Parsed.names (p : Parsed) : List (Int × Name) :=
  p.depFiles.map fun d => (d.len, string p.fileArray d.str)

def qsortStrcmp (a b : Int × Name) : Bool := strcmp a.2 b.2 ≤ 0

/-- The loop of `output_dep`, with the entry before the next one and the length of the line.
The names are printed on a new line or on the one before. -/
def fillLines (dotO : Name) : Option (Int × Name) → Int → List (Int × Name) → List (Bool × Name)
  | _, _, [] => []
  | prev, size, d :: rest =>
      if (prev.any fun p => d.1 = p.1 && strcmp d.2 p.2 = 0) = true then
        fillLines dotO (some d) size rest
      else if OUTLINELEN < size + d.1 + 1 then
        (true, d.2) :: fillLines dotO (some d) (dotO.length + d.1 + 1) rest
      else (false, d.2) :: fillLines dotO (some d) (size + d.1 + 1) rest

/-- The names that are printed for a file. -/
def printed (file : List Byte) : List (Bool × Name) :=
  fillLines (saveDotO file) none 1000 ((parseDep file).names.mergeSort qsortStrcmp)

/-! ## What is to be written -/

/-- The lines of a file; what follows the last newline is the last one. -/
def lines (file : List Byte) : List Name := file.splitOn newline

/-- The names in some lines. -/
def paths (lines : List Name) : List Name := (lines.map pathOf).filter (· ≠ [])

/-- The components that remain. -/
def parts (p : Name) : List Name := settle dot (components slash p)

def canonical (p : Name) : Name :=
  (if p.head? = some slash then [slash] else []) ++ [slash].intercalate (parts p)

/-- The second name leads to where the first one leads. -/
def SameFile (p q : Name) : Prop :=
  ∀ (ν : Type) (places : Places Byte ν), Tree places dot → ∀ x,
    places.walk (places.start slash p) (components slash p) = some x →
    places.walk (places.start slash q) (components slash q) = some x

/-- A line with some names. -/
def depLine (dotO : Name) (names : List Name) : List Byte := dotO ++ names.flatMap (space :: ·)

/-- What is asked of the treatment of a file. -/
structure Recorded (file : List Byte) : Prop where
  inside : ∀ r ∈ (parseDep file).rewrites, ∀ s ∈ r.stores, (r.tlp : Int) ≤ s.1 ∧ s.1 < r.lp
  ordered : ((printed file).map Prod.snd).Pairwise (strcmp · · < 0)
  complete : ∀ n, n ∈ (printed file).map Prod.snd ↔ n ∈ (paths (lines file)).map canonical
  begins : ∀ x ∈ (printed file).head?, x.1 = true
  fits : ∀ before n more after,
    printed file = before ++ (true, n) :: (more.map (Prod.mk false) ++ after) → more ≠ [] →
    ((depLine (saveDotO file) (n :: more)).length : Int) ≤ OUTLINELEN
  same : ∀ p ∈ paths (lines file), SameFile p (canonical p)
  short : ∀ p ∈ paths (lines file), (canonical p).length ≤ p.length

/-- Of every name in a line that is ended something is left, and the name in the last line, if
there is one, is not the only one with its canonical form. -/
def Covered (file : List Byte) : Prop :=
  (∀ p ∈ paths (lines file).dropLast, parts p ≠ []) ∧
    ∀ p ∈ paths [(lines file).getLastD []],
      canonical p ∈ (paths (lines file).dropLast).map canonical

/-! ## Components -/

section Components

variable {kept : List Name} {c : Name}

/-- Among settled components the last one says whether all of them lead up. -/
theorem component_eq (settled : Settled dot kept) (filled : c ≠ []) :
    component kept c = push dot kept c := by
  rw [component, push]
  by_cases here : c = [dot]
  · rw [if_pos here, if_pos (.inr here)]
  · rw [if_neg here, if_neg (not_or.mpr ⟨filled, here⟩)]
    by_cases up : c = [dot, dot]
    · rw [if_neg (not_not.mpr up), if_pos up]
      obtain ⟨ups, downs, rfl, all⟩ := settled
      congr 1
      cases downs using List.reverseRecOn with
      | nil =>
          rw [List.append_nil, eq_iff_iff]
          refine ⟨fun _ k inside => List.eq_of_mem_replicate inside, fun _ => ?_⟩
          cases ups with
          | zero => exact .inl rfl
          | succ ups => exact .inr (by rw [List.replicate_succ', List.getLast?_concat])
      | append_singleton downs d =>
          have down : Down dot d := all d (by simp)
          rw [← List.append_assoc, List.getLast?_concat, eq_iff_iff]
          constructor
          · rintro (none | last)
            · simp at none
            · exact absurd (Option.some.inj last) down.2.2
          · exact fun same => absurd (same d (by simp)) down.2.2
    · rw [if_pos up, if_neg up]

theorem crunch_eq {fuel : Nat} {p : Name} (settled : Settled dot kept) (enough : p.length ≤ fuel) :
    crunch fuel kept p = (components slash p).foldl (push dot) kept := by
  induction fuel generalizing kept p with
  | zero =>
      obtain rfl := List.eq_nil_of_length_eq_zero (Nat.le_zero.mp enough)
      rfl
  | succ fuel ih =>
      rw [crunch, ← components_dropWhile slash p]
      split
      · next none => rw [none]; rfl
      · next filled =>
          generalize begun : p.dropWhile (· = slash) = cp at filled
          have first : cp.head? ≠ some slash := by
            intro same
            cases cp with
            | nil => cases same
            | cons a cp =>
                have stopped := List.head_dropWhile_not (fun c => decide (c = slash))
                  (begun ▸ List.cons_ne_nil a cp : p.dropWhile (· = slash) ≠ [])
                simp only [begun, List.head_cons] at stopped
                simp [Option.some.inj same] at stopped
          have shorter : ((cp.dropWhile (· ≠ slash)).drop 1).length ≤ fuel := by
            have rest := (List.dropWhile_sublist (· ≠ slash) (l := cp)).length_le
            have whole := (List.dropWhile_sublist (· = slash) (l := p)).length_le
            have positive := List.length_pos_iff.mpr filled
            rw [begun] at whole
            rw [List.length_drop]
            omega
          rw [components_takeWhile slash first filled, List.foldl_cons,
            component_eq settled (takeWhile_filled slash first filled), ih (settled.push _) shorter]

/-- The code keeps the parts of a name. -/
theorem crunch_parts (p : Name) : crunch p.length [] p = parts p :=
  crunch_eq ⟨0, [], rfl, fun _ inside => by cases inside⟩ (Nat.le_refl p.length)

theorem parts_simple {p : Name} (inside : c ∈ parts p) : slash ∉ c ∧ c ≠ [] :=
  components_simple (mem_settle inside)

theorem components_canonical (p : Name) : components slash (canonical p) = parts p := by
  rw [canonical]
  split
  · rw [List.singleton_append, components_cons, components_intercalate fun c => parts_simple]
  · rw [List.nil_append, components_intercalate fun c => parts_simple]

/-- The canonical form begins where the name begins. -/
theorem head_canonical (p : Name) :
    (canonical p).head? = some slash ↔ p.head? = some slash := by
  rw [canonical]
  split
  · next first => exact ⟨fun _ => first, fun _ => rfl⟩
  · next other =>
      refine ⟨fun same => ?_, fun same => absurd same other⟩
      rw [List.nil_append] at same
      cases split : parts p with
      | nil => rw [split] at same; cases same
      | cons c cs =>
          obtain ⟨simple, filled⟩ := parts_simple (split ▸ List.mem_cons_self : c ∈ parts p)
          obtain ⟨a, c, rfl⟩ := List.exists_cons_of_ne_nil filled
          have first : ([slash].intercalate ((a :: c) :: cs)).head? = some a := by
            cases cs with
            | nil => rw [List.intercalate_singleton]; rfl
            | cons d cs => rw [intercalate_cons]; rfl
          rw [split, first] at same
          exact absurd (Option.some.inj same ▸ List.mem_cons_self) simple

theorem sameFile_canonical (p : Name) : SameFile p (canonical p) := by
  intro ν places tree x leads
  have start : places.start slash (canonical p) = places.start slash p := by
    rw [Places.start, Places.start]
    exact if_congr (head_canonical p) rfl rfl
  rw [start, components_canonical]
  exact tree.walk_foldl ⟨0, [], rfl, fun _ inside => by cases inside⟩
    (fun c member => (components_simple member).2) leads

theorem size_parts (p : Name) :
    (if p.head? = some slash then 1 else 0) + size (parts p) ≤ p.length + 1 := by
  have settled : size (parts p) ≤ size (components slash p) := size_settle_le _
  split
  · next first =>
      obtain ⟨rest, rfl⟩ := List.head?_eq_some_iff.mp first
      rw [components_cons] at settled
      have bound : size (components slash rest) ≤ rest.length + 1 := size_components rest
      rw [List.length_cons]
      omega
  · have bound : size (components slash p) ≤ p.length + 1 := size_components p
    omega

theorem length_canonical_le (p : Name) : (canonical p).length ≤ p.length := by
  have bound := size_parts p
  rw [canonical, List.length_append]
  cases split : parts p with
  | nil =>
      rw [List.intercalate_nil, List.length_nil, Nat.add_zero]
      split
      · next first =>
          obtain ⟨rest, rfl⟩ := List.head?_eq_some_iff.mp first
          exact Nat.succ_le_succ (Nat.zero_le _)
      · exact Nat.zero_le _
  | cons c cs =>
      have total : ([slash].intercalate (c :: cs)).length + 1 = size (c :: cs) :=
        length_intercalate (List.cons_ne_nil c cs)
      rw [split] at bound
      split
      · next first =>
          rw [if_pos first] at bound
          rw [List.length_singleton]
          omega
      · next other =>
          rw [if_neg other] at bound
          rw [List.length_nil]
          omega

end Components

/-! ## Stores -/

section Storing

variable {array front rest : List Byte} {c : Name} {cs : List Name} {tlp : Nat} {abspath : Bool}

theorem store_append (array : List Byte) (first second : Stores) :
    store array (first ++ second) = store (store array first) second :=
  List.foldl_append

/-- A text is copied over what is there. -/
theorem store_copy (text : List Byte) (enough : text.length ≤ rest.length) :
    store (front ++ rest) (copy front.length text) = front ++ text ++ rest.drop text.length := by
  induction text generalizing front rest with
  | nil => rw [List.append_nil]; rfl
  | cons b text ih =>
      cases rest with
      | nil => cases enough
      | cons a rest =>
          have first : store (front ++ a :: rest) (copy front.length (b :: text)) =
              store (front ++ [b] ++ rest) (copy (front ++ [b]).length text) := by
            rw [copy, store, List.foldl_cons, if_neg (by omega), Int.toNat_natCast,
              List.set_append_right _ _ (Nat.le_refl _), Nat.sub_self, List.set_cons_zero,
              List.length_append, List.length_singleton, List.append_assoc]
            rfl
          rw [first, ih (Nat.le_of_succ_le_succ enough), List.length_cons, List.drop_succ_cons,
            List.append_assoc front, List.singleton_append]

/-- The components with a separator behind each. -/
def ended (cs : List Name) : List Byte := cs.flatMap (· ++ [slash])

theorem length_ended (cs : List Name) : (ended cs).length = size cs := by
  rw [ended, List.length_flatMap, size]
  congr
  funext c
  exact List.length_append

theorem ended_cons (c : Name) (cs : List Name) : ended (c :: cs) = c ++ slash :: ended cs := by
  rw [ended, List.flatMap_cons, List.append_assoc]
  rfl

theorem ended_eq (filled : cs ≠ []) : ended cs = [slash].intercalate cs ++ [slash] := by
  induction cs with
  | nil => exact absurd rfl filled
  | cons c cs ih =>
      cases cs with
      | nil => rw [ended_cons, List.intercalate_singleton]; rfl
      | cons d cs =>
          rw [ended_cons, ih (List.cons_ne_nil d cs), intercalate_cons, List.append_assoc]
          rfl

theorem foldl_append_snd (s : Stores × Int) (cs : List Name) :
    (cs.foldl append s).2 = s.2 + size cs := by
  induction cs generalizing s with
  | nil => exact (Int.add_zero _).symm
  | cons c cs ih =>
      rw [List.foldl_cons, ih, append, size_cons]
      push_cast
      omega

/-- One character is stored. -/
theorem store_one (front rest : List Byte) (a b : Byte) :
    store (front ++ a :: rest) [((front.length : Int), b)] = front ++ b :: rest := by
  have stored : store (front ++ a :: rest) (copy front.length [b]) =
      front ++ [b] ++ (a :: rest).drop 1 := store_copy [b] (Nat.succ_le_succ (Nat.zero_le _))
  rw [List.append_assoc] at stored
  exact stored

/-- Components are stored one behind the other. -/
theorem store_foldl (s : Stores × Int) (at_ : s.2 = front.length)
    (written : store array s.1 = front ++ rest) (enough : size cs ≤ rest.length) :
    store array (cs.foldl append s).1 = front ++ ended cs ++ rest.drop (size cs) := by
  induction cs generalizing s front rest with
  | nil => rw [ended, List.flatMap_nil, List.append_nil]; exact written
  | cons c cs ih =>
      rw [size_cons] at enough
      have text : store array (append s c).1 =
          front ++ (c ++ [slash]) ++ rest.drop (c.length + 1) := by
        have last := store_one (front ++ c) (rest.drop (c.length + 1)) 0 slash
        have room : (c ++ [0]).length ≤ rest.length := by
          rw [List.length_append, List.length_singleton]
          omega
        rw [append, store_append, store_append, written, at_, store_copy _ room,
          List.length_append, List.length_singleton]
        rw [List.length_append, Int.natCast_add] at last
        simpa using last
      rw [List.foldl_cons, ih (append s c) _ text, size_cons, List.drop_drop, ended_cons]
      · simp
      · rw [List.length_drop]
        omega
      · rw [append, at_]
        simp
        omega

/-- What is put together, with a separator at the end. -/
def assembled (abspath : Bool) (cs : List Name) : List Byte :=
  (if abspath then [slash] else []) ++ ended cs

theorem length_assembled : (assembled abspath cs).length = abspath.toNat + size cs := by
  rw [assembled, List.length_append, length_ended]
  cases abspath <;> rfl

theorem reassemble_snd :
    (reassemble tlp abspath cs).2 = tlp + (assembled abspath cs).length - 1 := by
  rw [reassemble, length_assembled]
  dsimp only
  rw [foldl_append_snd]
  cases abspath
  · simp
  · simp [Int.add_assoc]

/-- What is stored before the terminator. -/
theorem store_begun (enough : abspath.toNat + size cs ≤ rest.length) :
    store (front ++ rest) (cs.foldl append (if abspath then
      ([((front.length : Int), slash)], (front.length : Int) + 1)
      else ([], (front.length : Int)))).1 =
    front ++ assembled abspath cs ++ rest.drop (abspath.toNat + size cs) := by
  cases abspath with
  | false =>
      rw [Bool.toNat_false, Nat.zero_add] at enough ⊢
      exact store_foldl ([], (front.length : Int)) rfl rfl enough
  | true =>
      rw [Bool.toNat_true] at enough ⊢
      have first : store (front ++ rest) [((front.length : Int), slash)] =
          front ++ [slash] ++ rest.drop 1 := store_copy [slash] (by
            rw [List.length_singleton]
            omega)
      have pointer : (front.length : Int) + 1 = (front ++ [slash]).length := by
        rw [List.length_append]
        rfl
      rw [if_pos rfl, store_foldl _ pointer first (by rw [List.length_drop]; omega), List.drop_drop,
        assembled, if_pos rfl, List.append_assoc front]

/-- The last separator gives way to the terminator. -/
theorem store_reassemble {text : List Byte} (last : assembled abspath cs = text ++ [slash])
    (enough : text.length + 1 ≤ rest.length) :
    store (front ++ rest) (reassemble front.length abspath cs).1 =
      front ++ text ++ 0 :: rest.drop (text.length + 1) := by
  have whole : abspath.toNat + size cs = text.length + 1 := by
    rw [← length_assembled, last, List.length_append, List.length_singleton]
  have pointer := @reassemble_snd cs front.length abspath
  rw [last, List.length_append, List.length_singleton] at pointer
  have end_ : (reassemble front.length abspath cs).2 = (front ++ text).length := by
    rw [pointer, List.length_append]
    omega
  have all := @store_begun front rest cs abspath (whole ▸ enough)
  rw [whole, last] at all
  have stored := store_one (front ++ text) (rest.drop (text.length + 1)) slash 0
  rw [reassemble] at end_ ⊢
  dsimp only at end_ ⊢
  rw [store_append, all, end_]
  simpa using stored

theorem copy_bounds {text : List Byte} {cp : Int} :
    ∀ s ∈ copy cp text, cp ≤ s.1 ∧ s.1 < cp + text.length := by
  induction text generalizing cp with
  | nil => exact fun s none => by cases none
  | cons b text ih =>
      intro s member
      rw [List.length_cons]
      rcases List.mem_cons.mp member with rfl | later
      · exact ⟨Int.le_refl cp, by push_cast; omega⟩
      · have := ih s later
        push_cast
        omega

theorem foldl_bounds (s : Stores × Int) :
    ∀ x ∈ (cs.foldl append s).1, x ∈ s.1 ∨ s.2 ≤ x.1 ∧ x.1 < s.2 + size cs := by
  induction cs generalizing s with
  | nil => exact fun x member => .inl member
  | cons c cs ih =>
      intro x member
      rw [List.foldl_cons] at member
      rw [size_cons]
      push_cast
      rcases ih (append s c) x member with first | later
      · rw [append, List.mem_append, List.mem_append, List.mem_singleton] at first
        rcases first with (old | copied) | rfl
        · exact .inl old
        · have bounds := copy_bounds x copied
          rw [List.length_append, List.length_singleton] at bounds
          push_cast at bounds
          omega
        · right
          omega
      · rw [append] at later
        dsimp only at later
        omega

/-- The stores are from the beginning of the line on, unless there is nothing to store. -/
theorem reassemble_bounds : ∀ x ∈ (reassemble tlp abspath cs).1,
    (assembled abspath cs ≠ [] → (tlp : Int) ≤ x.1) ∧
      x.1 < tlp + (assembled abspath cs).length := by
  intro x member
  have positive : assembled abspath cs ≠ [] → 0 < (assembled abspath cs).length :=
    List.length_pos_iff.mpr
  have total := @length_assembled cs abspath
  rcases List.mem_append.mp member with stored | last
  · have bounds := foldl_bounds _ x stored
    cases abspath with
    | false =>
        rcases bounds with none | bounds
        · cases none
        · rw [Bool.toNat_false] at total
          exact ⟨fun _ => bounds.1, by simpa [total] using bounds.2⟩
    | true =>
        rw [Bool.toNat_true] at total
        rcases bounds with first | bounds
        · obtain rfl := List.mem_singleton.mp first
          dsimp only
          omega
        · simp only [if_true] at bounds
          omega
  · have pointer := @reassemble_snd cs tlp abspath
    rw [reassemble] at pointer
    obtain rfl := List.mem_singleton.mp last
    dsimp only at pointer ⊢
    rw [pointer]
    exact ⟨fun filled => by have := positive filled; omega, by omega⟩

theorem length_store (array : List Byte) (stores : Stores) :
    (store array stores).length = array.length := by
  induction stores generalizing array with
  | nil => rfl
  | cons x stores ih =>
      rw [store, List.foldl_cons, ← store, ih]
      split
      · rfl
      · exact List.length_set

/-- Nothing behind the stores is changed. -/
theorem store_drop {stores : Stores} {n : Nat} (below : ∀ x ∈ stores, x.1 < n) :
    (store array stores).drop n = array.drop n := by
  induction stores generalizing array with
  | nil => rfl
  | cons x stores ih =>
      have first := below x List.mem_cons_self
      rw [store, List.foldl_cons, ← store,
        ih fun y member => below y (List.mem_cons_of_mem x member)]
      split
      · rfl
      · exact List.drop_set_of_lt (by omega)

end Storing

/-! ## Lines -/

section Lines

variable {p : Parsed} {front line after : List Byte} {ls : List Name} {last : Name}

theorem pathOf_length (filled : pathOf line ≠ []) : (pathOf line).length + 1 ≤ line.length := by
  have whole := (List.dropWhile_sublist (· ≠ colon) (l := line)).length_le
  have blanks := (List.dropWhile_sublist blank
    (l := (line.dropWhile (· ≠ colon)).drop 1)).length_le
  have positive := List.length_pos_iff.mpr filled
  rw [List.length_drop] at blanks
  rw [pathOf] at positive ⊢
  omega

/-- What is put together of a name. -/
def rewritten (p : Name) : List Byte := assembled (p.head? = some slash) (parts p)

theorem rewritten_length (filled : pathOf line ≠ []) :
    (rewritten (pathOf line)).length ≤ line.length := by
  have bound := size_parts (pathOf line)
  have shorter := pathOf_length filled
  rw [rewritten, length_assembled]
  split at bound
  · next first =>
      rw [decide_eq_true first, Bool.toNat_true]
      omega
  · next other =>
      rw [decide_eq_false other, Bool.toNat_false]
      omega

/-- The effect of a line that is ended. -/
def Parsed.ended (p : Parsed) (tlp : Nat) (line : Name) : Parsed :=
  let lp := tlp + line.length + 1
  let p := { p with fileArray := p.fileArray.set (lp - 1) 0 }
  if pathOf line = [] then p else p.line tlp lp (pathOf line)

theorem getD_append_length (front rest : List Byte) (a : Byte) :
    (front ++ a :: rest).getD front.length 0 = a := by
  simp

theorem takeWhile_line {line rest : Name} (noNul : 0 ∉ line) (single : newline ∉ line)
    (stops : ∀ a ∈ rest.head?, a = 0 ∨ a = newline) :
    (line ++ rest).takeWhile (fun c => c ≠ 0 && c ≠ newline) = line := by
  rw [List.takeWhile_append_of_pos]
  · cases rest with
    | nil => simp
    | cons a rest =>
        rcases stops a rfl with rfl | rfl
        · simp
        · simp
  · intro c member
    have filled : c ≠ 0 := fun same => noNul (same ▸ member)
    have other : c ≠ newline := fun same => single (same ▸ member)
    rw [decide_eq_true filled, decide_eq_true other]
    rfl

theorem parseLines_ended {fuel : Nat} (noNul : 0 ∉ line) (single : newline ∉ line)
    (array : p.fileArray = front ++ (line ++ newline :: after)) :
    parseLines (fuel + 1) p front.length =
      parseLines fuel (p.ended front.length line) (front.length + line.length + 1) := by
  have taken : (p.fileArray.drop front.length).takeWhile
      (fun c => c ≠ 0 && c ≠ newline) = line := by
    rw [array, List.drop_left]
    exact takeWhile_line noNul single fun a member => .inr (Option.some.inj member).symm
  have first : p.fileArray.getD front.length 0 ≠ 0 := by
    rw [array]
    cases line with
    | nil => rw [List.nil_append, getD_append_length]; decide
    | cons a line =>
        rw [List.cons_append, getD_append_length]
        exact fun same => noNul (same ▸ List.mem_cons_self)
  have delimiter : p.fileArray.getD (front.length + line.length + 1 - 1) 0 ≠ 0 := by
    rw [array, ← List.append_assoc, Nat.add_sub_cancel, ← List.length_append, getD_append_length]
    decide
  rw [parseLines, if_neg first, taken]
  dsimp only
  rw [if_neg delimiter]
  rfl

/-- A line that is not ended is not looked at. -/
theorem parseLines_last {fuel : Nat} (noNul : 0 ∉ line) (single : newline ∉ line)
    (array : p.fileArray = front ++ (line ++ [0])) : parseLines fuel p front.length = p := by
  cases fuel with
  | zero => rfl
  | succ fuel =>
      have taken : (p.fileArray.drop front.length).takeWhile
          (fun c => c ≠ 0 && c ≠ newline) = line := by
        rw [array, List.drop_left]
        exact takeWhile_line noNul single fun a member => .inl (Option.some.inj member).symm
      have delimiter : p.fileArray.getD (front.length + line.length + 1 - 1) 0 = 0 := by
        rw [array, ← List.append_assoc, Nat.add_sub_cancel, ← List.length_append,
          getD_append_length]
      rw [parseLines, taken]
      dsimp only
      rw [if_pos delimiter, ite_self]

/-- The effects of some lines that are ended. -/
def Parsed.all (p : Parsed) (tlp : Nat) : List Name → Parsed
  | [] => p
  | l :: ls => (p.ended tlp l).all (tlp + l.length + 1) ls

theorem set_newline (array : p.fileArray = front ++ (line ++ newline :: after)) :
    p.fileArray.set (front.length + line.length + 1 - 1) 0 = front ++ line ++ [0] ++ after := by
  rw [array, Nat.add_sub_cancel, ← List.append_assoc, ← List.length_append,
    List.set_append_right _ _ (Nat.le_refl _), Nat.sub_self, List.set_cons_zero]
  simp

/-- Behind the line the array is as it was. -/
theorem ended_drop (array : p.fileArray = front ++ (line ++ newline :: after)) :
    ∃ front', front'.length = front.length + line.length + 1 ∧
      (p.ended front.length line).fileArray = front' ++ after := by
  have cleared := set_newline array
  have length : (front ++ line ++ [0]).length = front.length + line.length + 1 := by
    rw [List.length_append, List.length_append, List.length_singleton]
  rw [Parsed.ended]
  split
  · exact ⟨_, length, cleared⟩
  · next filled =>
      have stored : (store (p.fileArray.set (front.length + line.length + 1 - 1) 0)
          (reassemble front.length ((pathOf line).head? = some slash)
            (parts (pathOf line))).1).drop (front.length + line.length + 1) = after := by
        rw [store_drop, cleared, ← length, List.drop_left]
        intro x member
        have bound := (reassemble_bounds x member).2
        have inside := rewritten_length filled
        rw [rewritten] at inside
        omega
      have whole := List.take_append_drop (front.length + line.length + 1)
        (store (p.fileArray.set (front.length + line.length + 1 - 1) 0)
          (reassemble front.length ((pathOf line).head? = some slash) (parts (pathOf line))).1)
      rw [stored] at whole
      refine ⟨_, ?_, by rw [Parsed.line, crunch_parts]; exact whole.symm⟩
      rw [List.length_take, length_store, cleared, List.length_append, length]
      omega

theorem parseLines_all {fuel : Nat} (noNul : ∀ l ∈ ls, 0 ∉ l) (single : ∀ l ∈ ls, newline ∉ l)
    (noNul' : 0 ∉ last) (single' : newline ∉ last) (enough : ls.length ≤ fuel)
    (array : p.fileArray = front ++ (ls.flatMap (· ++ [newline]) ++ (last ++ [0]))) :
    parseLines fuel p front.length = p.all front.length ls := by
  induction ls generalizing p front fuel with
  | nil => exact parseLines_last noNul' single' array
  | cons l ls ih =>
      obtain ⟨fuel, rfl⟩ : ∃ more, fuel = more + 1 :=
        ⟨fuel - 1, (Nat.sub_add_cancel (Nat.zero_lt_of_lt enough)).symm⟩
      have array' : p.fileArray =
          front ++ (l ++ newline :: (ls.flatMap (· ++ [newline]) ++ (last ++ [0]))) := by
        rw [array]
        simp
      obtain ⟨front', length, after⟩ := ended_drop array'
      rw [parseLines_ended (noNul l List.mem_cons_self) (single l List.mem_cons_self) array',
        Parsed.all, ← length]
      exact ih (fun l' member => noNul l' (List.mem_cons_of_mem l member))
        (fun l' member => single l' (List.mem_cons_of_mem l member))
        (Nat.le_of_succ_le_succ enough) after

/-- The rewriting of a line. -/
def rewriteOf (tlp : Nat) (line : Name) : Rewrite :=
  ⟨tlp, tlp + line.length + 1,
    (reassemble tlp ((pathOf line).head? = some slash) (parts (pathOf line))).1⟩

theorem ended_rewrites (p : Parsed) (tlp : Nat) (line : Name) : (p.ended tlp line).rewrites =
    p.rewrites ++ if pathOf line = [] then [] else [rewriteOf tlp line] := by
  rw [Parsed.ended]
  split
  · exact (List.append_nil _).symm
  · rw [Parsed.line, crunch_parts]
    rfl

theorem all_rewrites (p : Parsed) (tlp : Nat) (ls : List Name) (r : Rewrite)
    (member : r ∈ (p.all tlp ls).rewrites) :
    r ∈ p.rewrites ∨ ∃ l ∈ ls, pathOf l ≠ [] ∧ ∃ tlp, r = rewriteOf tlp l := by
  induction ls generalizing p tlp with
  | nil => exact .inl member
  | cons l ls ih =>
      rcases ih (p.ended tlp l) (tlp + l.length + 1) member with first | ⟨l', later, filled, found⟩
      · rw [ended_rewrites, List.mem_append] at first
        rcases first with old | new
        · exact .inl old
        · split at new
          · cases new
          · next filled =>
              exact .inr ⟨l, List.mem_cons_self, filled, tlp, List.mem_singleton.mp new⟩
      · exact .inr ⟨l', List.mem_cons_of_mem l later, filled, found⟩

/-- Every line with a name is rewritten. -/
theorem rewriteOf_mem (p : Parsed) (tlp : Nat) (ls : List Name) :
    (∀ r ∈ p.rewrites, r ∈ (p.all tlp ls).rewrites) ∧
      ∀ l ∈ ls, pathOf l ≠ [] → ∃ tlp', rewriteOf tlp' l ∈ (p.all tlp ls).rewrites := by
  induction ls generalizing p tlp with
  | nil => exact ⟨fun r member => member, fun l none => by cases none⟩
  | cons l ls ih =>
      obtain ⟨old, new⟩ := ih (p.ended tlp l) (tlp + l.length + 1)
      refine ⟨fun r member => old r ?_, fun l' member filled => ?_⟩
      · rw [ended_rewrites]
        exact List.mem_append_left _ member
      · rcases List.mem_cons.mp member with rfl | later
        · refine ⟨tlp, old _ ?_⟩
          rw [ended_rewrites, if_neg filled]
          exact List.mem_append_right _ (List.mem_singleton_self _)
        · exact new l' later filled

/-! ## The entries -/

/-- An entry stands for a name that the array holds. -/
structure Entry (array : List Byte) (d : Dep) (n : Name) : Prop where
  text : ∃ front back, array = front ++ (n ++ 0 :: back) ∧ front.length = d.str
  noNul : 0 ∉ n
  len : d.len = n.length

theorem Entry.append {array : List Byte} {d : Dep} {n : Name} (entry : Entry array d n)
    (more : List Byte) : Entry (array ++ more) d n := by
  obtain ⟨⟨front, back, rfl, at_⟩, noNul, len⟩ := entry
  exact ⟨⟨front, back ++ more, by simp, at_⟩, noNul, len⟩

theorem Entry.string {array : List Byte} {d : Dep} {n : Name} (entry : Entry array d n) :
    string array d.str = n := by
  obtain ⟨⟨front, back, rfl, at_⟩, noNul, len⟩ := entry
  rw [Md.string, ← at_, List.drop_left, List.takeWhile_append_of_pos]
  · simp
  · exact fun c member => decide_eq_true fun same => noNul (same ▸ member)

theorem map_entries {array : List Byte} {deps : List Dep} {names : List Name}
    (entries : List.Forall₂ (Entry array) deps names) :
    (deps.map fun d => (d.len, Md.string array d.str)) =
      names.map fun n => ((n.length : Int), n) := by
  induction entries with
  | nil => rfl
  | cons entry _ ih => rw [List.map_cons, List.map_cons, entry.string, entry.len, ih]

/-- What is found where a name has been rewritten. -/
def recorded (p : Name) : Name := (rewritten p).dropLast

theorem rewritten_eq {p : Name} (filled : rewritten p ≠ []) :
    rewritten p = recorded p ++ [slash] := by
  rw [recorded]
  rw [rewritten, assembled] at filled ⊢
  cases split : parts p with
  | nil =>
      rw [split] at filled
      split
      · rfl
      · next other =>
          rw [if_neg other] at filled
          exact absurd rfl filled
  | cons c cs =>
      rw [ended_eq (List.cons_ne_nil c cs), ← List.append_assoc, List.dropLast_concat]

theorem noNul_recorded {p : Name} (noNul : 0 ∉ p) : 0 ∉ recorded p := by
  intro member
  have whole := (List.dropLast_sublist (rewritten p)).subset member
  rw [rewritten, assembled, List.mem_append] at whole
  rcases whole with first | rest
  · split at first
    · exact absurd (List.mem_singleton.mp first) (by decide)
    · cases first
  · rw [ended, List.mem_flatMap] at rest
    obtain ⟨c, inside, found⟩ := rest
    rcases List.mem_append.mp found with part | separator
    · have piece : c ∈ p.splitOn slash := (List.mem_filter.mp (mem_settle inside)).1
      exact noNul (mem_of_mem_splitOn p piece part)
    · exact absurd (List.mem_singleton.mp separator) (by decide)

theorem noNul_pathOf (noNul : 0 ∉ line) : 0 ∉ pathOf line := fun member =>
  noNul ((List.dropWhile_sublist _).subset
    (List.mem_of_mem_drop ((List.dropWhile_sublist _).subset member)))

theorem recorded_eq {p : Name} (filled : parts p ≠ []) : recorded p = canonical p := by
  rw [recorded, rewritten, assembled, ended_eq filled, ← List.append_assoc, List.dropLast_concat,
    canonical]
  simp

/-- A name is in its place when its line has been treated. -/
theorem ended_entry (noNul : 0 ∉ line)
    (array : p.fileArray = front ++ (line ++ newline :: after))
    (stored : pathOf line ≠ [] → rewritten (pathOf line) ≠ []) :
    ∃ mid, mid.length = line.length + 1 ∧
      (p.ended front.length line).fileArray = front ++ mid ++ after ∧
      ∃ deps, (p.ended front.length line).depFiles = p.depFiles ++ deps ∧
        List.Forall₂ (Entry (front ++ mid)) deps ((paths [line]).map recorded) := by
  have cleared := set_newline array
  rw [Parsed.ended]
  split
  · next none =>
      refine ⟨line ++ [0], by simp, by rw [← List.append_assoc]; exact cleared, [],
        (List.append_nil _).symm, ?_⟩
      simp [paths, none]
  · next filled =>
      have whole := rewritten_eq (stored filled)
      have bound := rewritten_length filled
      rw [whole, List.length_append, List.length_singleton] at bound
      have done : store (front ++ (line ++ 0 :: after)) (reassemble front.length
          ((pathOf line).head? = some slash) (parts (pathOf line))).1 =
          front ++ recorded (pathOf line) ++
            0 :: (line ++ 0 :: after).drop ((recorded (pathOf line)).length + 1) :=
        store_reassemble whole (by rw [List.length_append]; omega)
      have pointer := @reassemble_snd (parts (pathOf line)) front.length
        ((pathOf line).head? = some slash)
      rw [← rewritten, whole, List.length_append, List.length_singleton] at pointer
      refine ⟨recorded (pathOf line) ++
        0 :: (line.drop ((recorded (pathOf line)).length + 1) ++ [0]), ?_, ?_, _, rfl, ?_⟩
      · simp
        omega
      · have moved : front ++ line ++ [0] ++ after = front ++ (line ++ 0 :: after) := by simp
        rw [Parsed.line, crunch_parts]
        dsimp only
        rw [cleared, moved, done, List.drop_append_of_le_length bound]
        simp
      · have single : (paths [line]).map recorded = [recorded (pathOf line)] := by
          simp [paths, filled]
        rw [single]
        refine List.Forall₂.cons
          ⟨⟨front, _, rfl, rfl⟩, noNul_recorded (noNul_pathOf noNul), ?_⟩ .nil
        rw [crunch_parts, pointer]
        push_cast
        omega

theorem paths_cons (l : Name) (ls : List Name) : paths (l :: ls) = paths [l] ++ paths ls := by
  rw [paths, List.map_cons, ← List.singleton_append, List.filter_append]
  rfl

/-- The entries of some lines. -/
theorem all_entries {names : List Name} (noNul : ∀ l ∈ ls, 0 ∉ l)
    (stored : ∀ l ∈ ls, pathOf l ≠ [] → rewritten (pathOf l) ≠ [])
    (array : p.fileArray = front ++ (ls.flatMap (· ++ [newline]) ++ after))
    (entries : List.Forall₂ (Entry front) p.depFiles names) :
    List.Forall₂ (Entry (p.all front.length ls).fileArray) (p.all front.length ls).depFiles
      (names ++ (paths ls).map recorded) := by
  induction ls generalizing p front names with
  | nil =>
      rw [Parsed.all, array]
      simpa [paths] using entries.imp fun d n entry => entry.append _
  | cons l ls ih =>
      have array' : p.fileArray =
          front ++ (l ++ newline :: (ls.flatMap (· ++ [newline]) ++ after)) := by
        rw [array]
        simp
      obtain ⟨mid, length, array'', deps, grown, new⟩ := ended_entry
        (noNul l List.mem_cons_self) array' (stored l List.mem_cons_self)
      have both : List.Forall₂ (Entry (front ++ mid)) (p.ended front.length l).depFiles
          (names ++ (paths [l]).map recorded) := by
        rw [grown]
        exact List.rel_append (entries.imp fun d n entry => entry.append mid) new
      have more := ih (fun l' member => noNul l' (List.mem_cons_of_mem l member))
        (fun l' member => stored l' (List.mem_cons_of_mem l member)) array'' both
      rw [List.length_append, length, ← Nat.add_assoc] at more
      rw [Parsed.all, paths_cons, List.map_append, ← List.append_assoc]
      exact more

end Lines

/-! ## Whole files -/

section Files

variable (file : TextFile)

theorem lines_ne_nil (data : List Byte) : lines data ≠ [] := List.splitOn_ne_nil _ _

theorem lines_single {data line : List Byte} (member : line ∈ lines data) : newline ∉ line :=
  sep_not_mem_splitOn data member

theorem lines_noNul {line : List Byte} (member : line ∈ lines file.data) : 0 ∉ line :=
  fun inside => file.noNul (mem_of_mem_splitOn file.data member inside)

/-- The lines that are ended and the last one make up the file. -/
theorem lines_eq (data : List Byte) :
    data = (lines data).dropLast.flatMap (· ++ [newline]) ++ (lines data).getLastD [] := by
  have whole : [newline].intercalate (lines data) = data := List.intercalate_splitOn newline
  conv => lhs; rw [← whole]
  exact intercalate_eq (lines_ne_nil data)

theorem length_dropLast_le (data : List Byte) : (lines data).dropLast.length ≤ data.length := by
  have total : size (lines data) = data.length + 1 := size_splitOn data
  have counted : (lines data).length ≤ size (lines data) := length_le_size _
  rw [List.length_dropLast]
  omega

/-- The lines that are ended are treated. -/
theorem parseDep_eq : parseDep file.data =
    (Parsed.mk (file.data ++ [0]) [] []).all 0 (lines file.data).dropLast := by
  have ends : (lines file.data).getLastD [] ∈ lines file.data := by
    rw [List.getLastD_eq_getLast?, List.getLast?_eq_some_getLast (lines_ne_nil _)]
    exact List.getLast_mem (lines_ne_nil _)
  refine @parseLines_all ⟨file.data ++ [0], [], []⟩ [] _ ((lines file.data).getLastD [])
    file.data.length ?_ ?_ (lines_noNul file ends) (lines_single ends) (length_dropLast_le _) ?_
  · exact fun l member => lines_noNul file (List.dropLast_subset _ member)
  · exact fun l member => lines_single (List.dropLast_subset _ member)
  · dsimp only
    conv => lhs; rw [lines_eq file.data]
    rw [List.nil_append, List.append_assoc]

/-- The names that are found are those that have been put together. -/
theorem names_eq (stored : ∀ p ∈ paths (lines file.data).dropLast, rewritten p ≠ []) :
    (parseDep file.data).names =
      ((paths (lines file.data).dropLast).map recorded).map fun n => ((n.length : Int), n) := by
  have array : (Parsed.mk (file.data ++ [0]) [] []).fileArray = [] ++
      ((lines file.data).dropLast.flatMap (· ++ [newline]) ++
        ((lines file.data).getLastD [] ++ [0])) := by
    conv => lhs; rw [lines_eq file.data]
    rw [List.nil_append, List.append_assoc]
  have noNul : ∀ l ∈ (lines file.data).dropLast, 0 ∉ l := fun l member =>
    lines_noNul file (List.dropLast_subset _ member)
  have kept : ∀ l ∈ (lines file.data).dropLast, pathOf l ≠ [] → rewritten (pathOf l) ≠ [] :=
    fun l member filled => stored (pathOf l)
      (List.mem_filter.mpr ⟨List.mem_map_of_mem member, decide_eq_true filled⟩)
  have entries := all_entries noNul kept array (List.Forall₂.nil (R := Entry []))
  rw [List.nil_append, List.length_nil, ← parseDep_eq] at entries
  exact map_entries entries

end Files

/-! ## The lines that are written -/

section Output

variable {dotO : Name} {size : Int} {d : Int × Name} {l : List (Int × Name)} {names : List Name}

/-- The lengths belong to the strings. -/
def Sized (l : List (Int × Name)) : Prop := ∀ d ∈ l, d.1 = d.2.length ∧ 0 ∉ d.2

/-- The names that differ from the ones before them. -/
def fresh : Option (Int × Name) → List (Int × Name) → List Name
  | _, [] => []
  | prev, d :: rest =>
      if (prev.any fun p => d.1 = p.1 && strcmp d.2 p.2 = 0) = true then fresh (some d) rest
      else d.2 :: fresh (some d) rest

/-- Names on lines. -/
def fill (dotO : Name) : Int → List Name → List (Bool × Name)
  | _, [] => []
  | size, n :: rest =>
      if OUTLINELEN < size + n.length + 1 then
        (true, n) :: fill dotO (dotO.length + n.length + 1) rest
      else (false, n) :: fill dotO (size + n.length + 1) rest

theorem fillLines_eq (prev : Option (Int × Name)) (size : Int) (sized : Sized l) :
    fillLines dotO prev size l = fill dotO size (fresh prev l) := by
  induction l generalizing prev size with
  | nil => rfl
  | cons d l ih =>
      have sized' : Sized l := fun e member => sized e (List.mem_cons_of_mem d member)
      rw [fillLines, fresh]
      split
      · exact ih _ _ sized'
      · rw [fill, (sized d List.mem_cons_self).1, ih _ _ sized', ih _ _ sized']

theorem fill_names : (fill dotO size names).map Prod.snd = names := by
  induction names generalizing size with
  | nil => rfl
  | cons n names ih =>
      rw [fill]
      split
      · rw [List.map_cons, ih]
      · rw [List.map_cons, ih]

/-- What is put on a line fits. -/
theorem fill_more {more : List Name} {after : List (Bool × Name)}
    (eq : fill dotO size names = more.map (Prod.mk false) ++ after) (filled : more ≠ []) :
    size + (more.flatMap (space :: ·)).length ≤ OUTLINELEN := by
  induction more generalizing size names with
  | nil => exact absurd rfl filled
  | cons n more ih =>
      cases names with
      | nil => cases eq
      | cons m names =>
          rw [fill] at eq
          split at eq
          · cases eq
          · next fits =>
              rw [List.map_cons, List.cons_append] at eq
              obtain ⟨head, tail⟩ := List.cons.inj eq
              obtain rfl := (Prod.mk.inj head).2
              rw [List.flatMap_cons, List.length_append, List.length_cons]
              push_cast
              cases more with
              | nil =>
                  rw [List.flatMap_nil, List.length_nil]
                  push_cast
                  omega
              | cons k more =>
                  have := ih tail (List.cons_ne_nil k more)
                  omega

theorem fill_fits {before after : List (Bool × Name)} {n : Name} {more : List Name}
    (eq : fill dotO size names = before ++ (true, n) :: (more.map (Prod.mk false) ++ after))
    (filled : more ≠ []) : ((depLine dotO (n :: more)).length : Int) ≤ OUTLINELEN := by
  induction before generalizing size names with
  | nil =>
      cases names with
      | nil => cases eq
      | cons m names =>
          rw [fill] at eq
          split at eq
          · obtain ⟨head, tail⟩ := List.cons.inj eq
            obtain rfl := (Prod.mk.inj head).2
            have bound := fill_more tail filled
            rw [depLine, List.length_append, List.flatMap_cons, List.length_append,
              List.length_cons]
            push_cast
            omega
          · cases eq
  | cons x before ih =>
      cases names with
      | nil => cases eq
      | cons m names =>
          rw [fill] at eq
          split at eq
          · exact ih (List.cons.inj eq).2
          · exact ih (List.cons.inj eq).2

theorem injective_toInt : Function.Injective (BitVec.toInt : Byte → Int) :=
  fun _ _ => BitVec.eq_of_toInt_eq

theorem strcmp_eq_zero {m n : Name} (noNul : 0 ∉ m) (noNul' : 0 ∉ n) : strcmp m n = 0 ↔ m = n :=
  Library.Compare.strcmp_eq_zero injective_toInt noNul noNul'

/-- Of sorted names every one is left once. -/
theorem fresh_spec (sized : Sized l) (sorted : l.Pairwise fun a b => strcmp a.2 b.2 ≤ 0)
    (prev : Option (Int × Name)) (sizedPrev : ∀ p ∈ prev, p.1 = p.2.length ∧ 0 ∉ p.2)
    (least : ∀ p ∈ prev, ∀ d ∈ l, strcmp p.2 d.2 ≤ 0) :
    (fresh prev l).Pairwise (strcmp · · < 0) ∧
      ∀ n, n ∈ fresh prev l ↔ n ∈ l.map Prod.snd ∧ ∀ p ∈ prev, n ≠ p.2 := by
  induction l generalizing prev with
  | nil => simp [fresh]
  | cons d l ih =>
      obtain ⟨below, sorted⟩ := List.pairwise_cons.mp sorted
      obtain ⟨length, noNul⟩ := sized d List.mem_cons_self
      obtain ⟨pairwise, members⟩ := ih (fun e member => sized e (List.mem_cons_of_mem d member))
        sorted (some d) (fun p same => Option.some.inj same ▸ ⟨length, noNul⟩)
        (fun p same e member => Option.some.inj same ▸ below e member)
      rw [fresh]
      split
      · next same =>
          obtain ⟨p, rfl⟩ : ∃ p, prev = some p := by
            cases prev with
            | none => cases same
            | some p => exact ⟨p, rfl⟩
          rw [Option.any_some, Bool.and_eq_true, decide_eq_true_eq, decide_eq_true_eq] at same
          have name := (strcmp_eq_zero noNul (sizedPrev p rfl).2).mp same.2
          refine ⟨pairwise, fun n => ?_⟩
          rw [members]
          simp only [Option.mem_some_iff, forall_eq', List.map_cons, List.mem_cons, name]
          tauto
      · next other =>
          have differ : ∀ p ∈ prev, d.2 ≠ p.2 := by
            rintro p rfl same
            refine other ?_
            simp [same, length, (sizedPrev p rfl).1, strcmp, Library.Compare.strcmp_self]
          refine ⟨List.pairwise_cons.mpr ⟨fun n member => ?_, pairwise⟩, fun n => ?_⟩
          · obtain ⟨inside, unequal⟩ := (members n).mp member
            obtain ⟨e, found, rfl⟩ := List.mem_map.mp inside
            have noNul' := (sized e (List.mem_cons_of_mem d found)).2
            have apart : strcmp d.2 e.2 ≠ 0 := fun zero =>
              unequal d rfl ((strcmp_eq_zero noNul noNul').mp zero).symm
            have := below e found
            omega
          · rw [List.mem_cons, members, List.map_cons, List.mem_cons]
            constructor
            · rintro (rfl | ⟨inside, -⟩)
              · exact ⟨.inl rfl, differ⟩
              · refine ⟨.inr inside, ?_⟩
                rintro p rfl rfl
                obtain ⟨e, found, same⟩ := List.mem_map.mp inside
                have first := least p rfl d List.mem_cons_self
                have second := below e found
                rw [same] at second
                have swap : strcmp p.2 d.2 = -strcmp d.2 p.2 :=
                  Library.Compare.strcmp_swap d.2 p.2
                exact differ p rfl ((strcmp_eq_zero noNul (sizedPrev p rfl).2).mp (by omega))
            · rintro ⟨rfl | inside, -⟩
              · exact .inl rfl
              · rcases eq_or_ne n d.2 with same | unequal
                · exact .inl same
                · refine .inr ⟨inside, fun p same => ?_⟩
                  rwa [← Option.some.inj same]

theorem sorted_mergeSort (l : List (Int × Name)) :
    (l.mergeSort qsortStrcmp).Pairwise fun a b => strcmp a.2 b.2 ≤ 0 := by
  have sorted := @List.pairwise_mergeSort _ qsortStrcmp
    (fun a b c first second => decide_eq_true (Library.Compare.strcmp_trans injective_toInt
      (of_decide_eq_true first) (of_decide_eq_true second)))
    (fun a b => by
      rw [Bool.or_eq_true]
      exact (Library.Compare.strcmp_total a.2 b.2).imp decide_eq_true decide_eq_true) l
  exact sorted.imp of_decide_eq_true

variable {file : List Byte}

theorem printed_eq (eq : (parseDep file).names = names.map fun n => ((n.length : Int), n))
    (noNul : ∀ n ∈ names, 0 ∉ n) : ∃ sorted : List Name,
    printed file = fill (saveDotO file) 1000 sorted ∧ sorted.Pairwise (strcmp · · < 0) ∧
      ∀ n, n ∈ sorted ↔ n ∈ names := by
  have sized : Sized ((parseDep file).names.mergeSort qsortStrcmp) := by
    intro d member
    rw [List.mem_mergeSort, eq, List.mem_map] at member
    obtain ⟨n, inside, rfl⟩ := member
    exact ⟨rfl, noNul n inside⟩
  obtain ⟨pairwise, members⟩ := fresh_spec sized (sorted_mergeSort _) none
    (fun p none => by cases none) (fun p none => by cases none)
  refine ⟨_, fillLines_eq none 1000 sized, pairwise, fun n => ?_⟩
  rw [members, and_iff_left (fun p none => by cases none), List.mem_map]
  constructor
  · rintro ⟨d, member, rfl⟩
    rw [List.mem_mergeSort, eq, List.mem_map] at member
    obtain ⟨n, inside, rfl⟩ := member
    exact inside
  · intro member
    refine ⟨((n.length : Int), n), ?_, rfl⟩
    rw [List.mem_mergeSort, eq]
    exact List.mem_map_of_mem member

theorem fill_begins : ∀ x ∈ (fill dotO 1000 names).head?, x.1 = true := by
  intro x first
  cases names with
  | nil => cases first
  | cons n names =>
      rw [fill, if_pos (by rw [OUTLINELEN]; omega)] at first
      rw [← Option.some.inj first]

end Output

/-! ## What is recorded -/

section Result

variable {p : Name} {line : List Byte}

theorem mem_paths {ls : List Name} : p ∈ paths ls ↔ ∃ l ∈ ls, pathOf l = p ∧ p ≠ [] := by
  rw [paths, List.mem_filter, List.mem_map, decide_eq_true_eq]
  constructor
  · rintro ⟨⟨l, member, rfl⟩, filled⟩
    exact ⟨l, member, rfl, filled⟩
  · rintro ⟨l, member, rfl, filled⟩
    exact ⟨⟨l, member, rfl⟩, filled⟩

theorem rewritten_ne_nil (filled : parts p ≠ []) : rewritten p ≠ [] := by
  rw [rewritten, assembled, ended_eq filled]
  simp

/-- Of a name that has been stored something is left, unless it is the root. -/
theorem canonical_root (stored : rewritten p ≠ []) (none : parts p = []) :
    canonical p = [slash] := by
  rw [rewritten, assembled, none] at stored
  rw [canonical, none]
  split
  · rfl
  · next other =>
      rw [decide_eq_false other] at stored
      exact absurd rfl stored

theorem recorded_ne_root (p : Name) : recorded p ≠ [slash] := by
  intro same
  by_cases filled : parts p = []
  · have short : (rewritten p).length ≤ 1 := by
      rw [rewritten, assembled, filled]
      split
      · exact Nat.le_refl 1
      · exact Nat.zero_le 1
    have length := congrArg List.length same
    rw [recorded, List.length_dropLast, List.length_singleton] at length
    omega
  · have components := components_canonical p
    rw [← recorded_eq filled, same] at components
    exact filled components.symm

theorem paths_append (first second : List Name) :
    paths (first ++ second) = paths first ++ paths second := by
  rw [paths, List.map_append, List.filter_append]
  rfl

theorem paths_lines (data : List Byte) : paths (lines data) =
    paths (lines data).dropLast ++ paths [(lines data).getLastD []] := by
  rw [← paths_append]
  congr
  rw [List.getLastD_eq_getLast?, List.getLast?_eq_some_getLast (lines_ne_nil data)]
  exact (List.dropLast_append_getLast (lines_ne_nil data)).symm

variable {file : TextFile}

/-- The stores of a name of which nothing is left are not in its line. -/
theorem Recorded.stored (recorded : Recorded file.data) :
    ∀ p ∈ paths (lines file.data).dropLast, rewritten p ≠ [] := by
  intro p member none
  obtain ⟨l, inside, rfl, filled⟩ := mem_paths.mp member
  obtain ⟨tlp, found⟩ := (rewriteOf_mem ⟨file.data ++ [0], [], []⟩ 0
    (lines file.data).dropLast).2 l inside filled
  rw [← parseDep_eq] at found
  have last : (((tlp : Int) + (rewritten (pathOf l)).length - 1), (0 : Byte)) ∈
      (rewriteOf tlp l).stores := by
    rw [rewritten, ← reassemble_snd, rewriteOf, reassemble]
    exact List.mem_append_right _ (List.mem_singleton_self _)
  have bound := (recorded.inside _ found _ last).1
  rw [none, rewriteOf] at bound
  dsimp only at bound
  rw [List.length_nil] at bound
  omega

theorem noNul_paths (member : p ∈ paths (lines file.data).dropLast) : 0 ∉ p := by
  obtain ⟨l, inside, rfl, -⟩ := mem_paths.mp member
  exact noNul_pathOf (lines_noNul file (List.dropLast_subset _ inside))

/-- If every name is stored, the names that are printed are those of the lines that are ended. -/
theorem printed_spec (stored : ∀ p ∈ paths (lines file.data).dropLast, rewritten p ≠ []) :
    ∃ sorted : List Name, printed file.data = fill (saveDotO file.data) 1000 sorted ∧
      sorted.Pairwise (strcmp · · < 0) ∧
      ∀ n, n ∈ sorted ↔ n ∈ (paths (lines file.data).dropLast).map recorded := by
  refine printed_eq (names_eq file stored) fun n member => ?_
  obtain ⟨p, inside, rfl⟩ := List.mem_map.mp member
  exact noNul_recorded (noNul_paths inside)

theorem Recorded.covered (recorded : Recorded file.data) : Covered file.data := by
  have stored := recorded.stored
  obtain ⟨sorted, eq, -, members⟩ := printed_spec stored
  have complete := recorded.complete
  rw [eq, fill_names, paths_lines, List.map_append] at complete
  have filled : ∀ p ∈ paths (lines file.data).dropLast, parts p ≠ [] := by
    intro p member none
    have image := (complete (canonical p)).mpr (List.mem_append_left _ (List.mem_map_of_mem member))
    rw [canonical_root (stored p member) none, members] at image
    obtain ⟨q, -, same⟩ := List.mem_map.mp image
    exact recorded_ne_root q same
  refine ⟨filled, fun p member => ?_⟩
  have image := (complete (canonical p)).mpr (List.mem_append_right _ (List.mem_map_of_mem member))
  rw [members] at image
  obtain ⟨q, inside, same⟩ := List.mem_map.mp image
  rw [← same, recorded_eq (filled q inside)]
  exact List.mem_map_of_mem inside

theorem Covered.recorded (covered : Covered file.data) : Recorded file.data := by
  obtain ⟨filled, last⟩ := covered
  have stored : ∀ p ∈ paths (lines file.data).dropLast, rewritten p ≠ [] := fun p member =>
    rewritten_ne_nil (filled p member)
  obtain ⟨sorted, eq, pairwise, members⟩ := printed_spec stored
  have images : (paths (lines file.data).dropLast).map Md.recorded =
      (paths (lines file.data).dropLast).map canonical :=
    List.map_congr_left fun p member => recorded_eq (filled p member)
  refine ⟨?_, ?_, fun n => ?_, ?_, ?_, fun p _ => sameFile_canonical p,
    fun p _ => length_canonical_le p⟩
  · intro r member s inside
    rw [parseDep_eq] at member
    rcases all_rewrites _ _ _ r member with none | ⟨l, found, path, tlp, rfl⟩
    · cases none
    · obtain ⟨low, high⟩ := reassemble_bounds s inside
      have whole := stored (pathOf l) (mem_paths.mpr ⟨l, found, rfl, path⟩)
      have room := rewritten_length path
      refine ⟨low whole, ?_⟩
      rw [← rewritten] at high
      rw [rewriteOf]
      push_cast
      omega
  · rw [eq, fill_names]
    exact pairwise
  · rw [eq, fill_names, members, images, paths_lines, List.map_append, List.mem_append]
    refine ⟨.inl, fun either => either.elim id fun inside => ?_⟩
    obtain ⟨p, member, rfl⟩ := List.mem_map.mp inside
    exact last p member
  · rw [eq]
    exact fill_begins
  · intro before n more after split nonempty
    rw [eq] at split
    exact fill_fits split nonempty

/-- **Theorem.** The names of a file are recorded exactly if something is left of every name and
no name is in the last line only. -/
theorem recorded_iff (file : TextFile) : Recorded file.data ↔ Covered file.data :=
  ⟨Recorded.covered, Covered.recorded⟩

/-- `a:b`, without a newline. -/
def unended : TextFile := ⟨[97, 58, 98], by decide⟩

theorem not_recorded_unended : ¬ Recorded unended.data := by
  intro recorded
  have member := recorded.covered.2 [98] (by decide)
  revert member
  decide

end Result

end MachFormal.Md
