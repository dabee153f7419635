import Mathlib.Data.List.Perm.Subperm
import MachFormal.Library.Rings
import MachFormal.Sdm.Database

/-!
# How strings are shared

Strings are kept on hash chains that run both ways.  A chain is in the order of the lengths
of its strings, then of their exclusive ors, and then of what `bcmp` says, and a search stops
at the first string that compares to more.  But the sign of what `bcmp` returns means nothing,
so of three strings with one length, one sum and one exclusive or the middle one may be missed
and is then made again.  Also the size of a table is a short number, which the sixteenth
doubling takes to zero.

The strings are shared in runs in which every search gets to the string if it is there, and
the tables do not grow that far.
-/

namespace MachFormal.Sdm.Interning

open Library

/-! ## Tables of pointers -/

/-- The slots from `cur` on have no contents yet. -/
structure Table where
  cur : UShort
  max : UShort
  tab : List (Option Nat)

namespace Table

def empty : Table := ⟨0, 0, []⟩

/-- `alloc_table`. -/
def alloc (table : Table) (initialSize : UShort) : Table :=
  if table.max = 0 then
    { table with max := initialSize, tab := List.replicate initialSize.toNat none }
  else
    let max := table.max <<< 1
    { table with max := max, tab := (table.tab ++ List.replicate max.toNat none).take max.toNat }

/-- A new record gets an index and its slot.  There is no result if the slot is outside. -/
def add (table : Table) (initialSize : UShort) (record : Nat) : Option (Table × UShort) :=
  let index := table.cur
  let table := { table with cur := table.cur + 1 }
  let table := if table.max < table.cur then table.alloc initialSize else table
  if index.toNat < table.tab.length then
    some ({ table with tab := table.tab.set index.toNat (some record) }, index)
  else none

/-- The table has `n` records, which are in the slots of their indexes. -/
structure Holds (table : Table) (n : Nat) : Prop where
  cur : table.cur.toNat = n
  size : table.tab.length = table.max.toNat
  power : table.max = 0 ∨ ∃ k ≤ 15, table.max.toNat = 2 ^ k
  room : n ≤ table.max.toNat
  slot : ∀ i < n, table.tab[i]? = some (some i)

variable {table : Table} {n : Nat}

theorem Holds.empty : Holds empty 0 where
  cur := rfl
  size := rfl
  power := .inl rfl
  room := Nat.le_refl 0
  slot := fun i below => absurd below (Nat.not_lt_zero i)

theorem Holds.small (holds : table.Holds n) : n ≤ 32768 := by
  rcases holds.power with none | ⟨k, bound, power⟩
  · have room := holds.room
    rw [none] at room
    exact Nat.le_trans room (by decide)
  · calc n ≤ 2 ^ k := power ▸ holds.room
      _ ≤ 2 ^ 15 := Nat.pow_le_pow_right (by omega) bound

theorem alloc_spec (length : table.tab.length = table.max.toNat)
    (power : table.max = 0 ∨ ∃ k ≤ 15, table.max.toNat = 2 ^ k) (below : table.max.toNat < 32768)
    {initialSize : UShort} {j : Nat} (size : initialSize.toNat = 2 ^ j) (small : j ≤ 15) :
    (table.alloc initialSize).tab.length = (table.alloc initialSize).max.toNat ∧
      (∃ k ≤ 15, (table.alloc initialSize).max.toNat = 2 ^ k) ∧
      table.max.toNat < (table.alloc initialSize).max.toNat ∧
      (table.alloc initialSize).tab.take table.max.toNat = table.tab := by
  rcases power with none | ⟨k, bound, power⟩
  · have zero : table.max.toNat = 0 := by rw [none]; rfl
    have empty : table.tab = [] := List.eq_nil_of_length_eq_zero (length.trans zero)
    rw [Table.alloc, if_pos none, zero]
    refine ⟨List.length_replicate, ⟨j, small, size⟩, ?_, by rw [empty]; rfl⟩
    rw [size]
    exact Nat.two_pow_pos j
  · have exponent : k < 15 := by
      rw [power] at below
      exact (Nat.pow_lt_pow_iff_right (by omega)).mp (below : 2 ^ k < 2 ^ 15)
    have positive := Nat.two_pow_pos k
    have some : table.max ≠ 0 := fun zero => positive.ne (by rw [← power, zero]; rfl)
    have large : 2 ^ (k + 1) ≤ 2 ^ 15 := Nat.pow_le_pow_right (by omega) exponent
    have doubled : (table.max <<< 1).toNat = 2 ^ (k + 1) := by
      rw [BitVec.toNat_shiftLeft, power, Nat.shiftLeft_eq, Nat.mod_eq_of_lt (by omega)]
      ring
    rw [Table.alloc, if_neg some]
    simp only [doubled]
    refine ⟨?_, ⟨k + 1, exponent, rfl⟩, by omega, ?_⟩
    · rw [List.length_take, List.length_append, List.length_replicate]
      omega
    · rw [List.take_take, Nat.min_eq_left (by omega), ← length, List.take_left]

theorem Holds.alloc (holds : table.Holds n) (full : table.max.toNat = n) (below : n < 32768)
    {initialSize : UShort} {j : Nat} (size : initialSize.toNat = 2 ^ j) (small : j ≤ 15) :
    (table.alloc initialSize).tab.length = (table.alloc initialSize).max.toNat ∧
      (∃ k ≤ 15, (table.alloc initialSize).max.toNat = 2 ^ k) ∧
      n < (table.alloc initialSize).max.toNat ∧
      ∀ i < n, (table.alloc initialSize).tab[i]? = some (some i) := by
  obtain ⟨length, power, larger, kept⟩ :=
    alloc_spec holds.size holds.power (full ▸ below) size small
  rw [full] at larger kept
  refine ⟨length, power, larger, fun i below => ?_⟩
  rw [← List.getElem?_take_of_lt below, kept]
  exact holds.slot i below

theorem alloc_with_cur (cur initialSize : UShort) :
    ({ table with cur := cur } : Table).alloc initialSize =
      { table.alloc initialSize with cur := cur } := by
  rw [alloc, alloc]
  split <;> rfl

theorem Holds.add (holds : table.Holds n) (below : n < 32768) {initialSize : UShort} {j : Nat}
    (size : initialSize.toNat = 2 ^ j) (small : j ≤ 15) :
    ∃ table', table.add initialSize n = some (table', BitVec.ofNat 16 n) ∧
      table'.Holds (n + 1) := by
  have cur : table.cur = BitVec.ofNat 16 n := by
    apply BitVec.eq_of_toNat_eq
    rw [holds.cur, BitVec.toNat_ofNat, Nat.mod_eq_of_lt (by omega)]
  have next : (table.cur + 1).toNat = n + 1 := by
    rw [BitVec.toNat_add, holds.cur]
    exact Nat.mod_eq_of_lt (by omega : n + 1 < 65536)
  have grown : ∃ table', (if table.max < table.cur + 1 then
      ({ table with cur := table.cur + 1 } : Table).alloc initialSize
      else { table with cur := table.cur + 1 }) = table' ∧ table'.cur = table.cur + 1 ∧
      table'.tab.length = table'.max.toNat ∧ (∃ k ≤ 15, table'.max.toNat = 2 ^ k) ∧
      n < table'.max.toNat ∧ ∀ i < n, table'.tab[i]? = some (some i) := by
    split
    · next more =>
        rw [BitVec.lt_def, next] at more
        have full : table.max.toNat = n := by have := holds.room; omega
        rw [alloc_with_cur]
        exact ⟨_, rfl, rfl, holds.alloc full below size small⟩
    · next enough =>
        rw [BitVec.lt_def, next] at enough
        refine ⟨_, rfl, rfl, holds.size, ?_, (by omega : n < table.max.toNat), holds.slot⟩
        rcases holds.power with none | power
        · rw [none] at enough
          exact absurd enough (by simp)
        · exact power
  obtain ⟨table', eq, same, length, power, room, slot⟩ := grown
  refine ⟨{ table' with tab := table'.tab.set n (some n) }, ?_, ?_⟩
  · rw [Table.add]
    dsimp only
    rw [eq, if_pos (by rw [holds.cur, length]; exact room), holds.cur, cur]
  · refine ⟨by rw [same, next], (List.length_set ..).trans length, .inr power, room, ?_⟩
    intro i inside
    dsimp only
    rcases Nat.lt_or_eq_of_le (Nat.lt_succ_iff.mp inside) with old | rfl
    · rw [List.getElem?_set_ne (by omega)]
      exact slot i old
    · exact List.getElem?_set_self (by rw [length]; exact room)

end Table

/-! ## Strings and owners -/

/-- A `struct strhdr`, of a chain or at the beginning of a string. -/
inductive Node where
  | header (ahash : Byte)
  | string (s : Nat)
deriving DecidableEq

/-- The strings and the infos that have been made, with their tables. -/
structure Pool where
  strings : List StringRec
  stringIndexes : List UShort
  stringTable : Table
  links : Links Node
  infos : List FileInfo
  infoIndexes : List UShort
  infoTable : Table

/-- `initialize_database`. -/
def Pool.initial : Pool := ⟨[], [], .empty, ⟨id, id⟩, [], [], .empty⟩

section Definitions

variable (bcmp : List Byte → List Byte → Int)

def cmpstring (s : StringRec) (len : Nat) (xhash : Byte) (str : List Byte) : Int :=
  if s.len.toNat ≠ len then s.len.toNat - len
  else if s.xhash ≠ xhash then (s.xhash.toNat : Int) - xhash.toNat
  else bcmp (s.data.data.take len) (str.take len)

/-- What a string of the pool compares to. -/
def Pool.cmp (pool : Pool) (ptr : CString) (s : Nat) : Int :=
  cmpstring bcmp (pool.strings.getD s default) ptr.data.length (hashstring ptr.data).2 ptr.data

/-- The loop of `prevstring`, up to the last string `sp`. -/
def scanLinks (cmp : Nat → Int) (links : Links Node) (sp : Node) :
    Nat → Node → Option (Node × Option Nat)
  | 0, _ => none
  | fuel + 1, node =>
      if node = sp then some (links.prev node, none)
      else
        match node with
        | .header _ => none
        | .string s =>
            if cmp s = 0 then some (links.prev node, some s)
            else if 0 < cmp s then some (links.prev node, none)
            else scanLinks cmp links sp fuel (links.next node)

/-- `prevstring`: the node behind which the string belongs, and the string if it is found. -/
def prevstring (cmp : Nat → Int) (links : Links Node) (fuel : Nat) (ahash : Byte) :
    Option (Node × Option Nat) :=
  let sp := links.prev (.header ahash)
  match sp with
  | .header _ => if sp = links.prev sp then some (sp, none) else none
  | .string last =>
      if sp = links.prev sp then some (sp, none)
      else if cmp last = 0 then some (links.prev sp, some last)
      else if cmp last < 0 then some (sp, none)
      else scanLinks cmp links sp fuel (links.next (.header ahash))

/-- A new string is linked in behind `sp`; it has got its index and its slot. -/
def Pool.push (pool : Pool) (ptr : CString) (sp : Node) (added : Table × UShort) : Pool :=
  let hash := hashstring ptr.data
  { pool with
    strings := pool.strings ++ [⟨BitVec.ofNat 16 ptr.data.length, hash.1, hash.2, ptr⟩]
    stringIndexes := pool.stringIndexes ++ [added.2]
    stringTable := added.1
    links := pool.links.insertAfter sp (.string pool.strings.length) }

def createString (pool : Pool) (ptr : CString) : Option (Pool × Nat) :=
  match prevstring (pool.cmp bcmp ptr) pool.links pool.strings.length (hashstring ptr.data).1 with
  | none => none
  | some (_, some s) => some (pool, s)
  | some (sp, none) =>
      let s := pool.strings.length
      (pool.stringTable.add 128 s).map fun added => (pool.push ptr sp added, s)

/-- The loop of `insert_info`. -/
def findInfo (pool : Pool) (info : FileInfo) : Option Nat :=
  (pool.infoTable.tab.take pool.infoTable.cur.toNat).findSome? fun entry =>
    entry.filter fun fi => pool.infos.getD fi default = info

/-- `insert_info`, with the owner and the group as pointers. -/
def insertInfo (pool : Pool) (owner group : Nat) (mode : UShort) : Option (Pool × Nat) :=
  match findInfo pool ⟨owner, group, mode⟩ with
  | some fi => some (pool, fi)
  | none =>
      let fi := pool.infos.length
      (pool.infoTable.add 32 fi).map fun added =>
        ({ pool with
            infos := pool.infos ++ [⟨owner, group, mode⟩]
            infoIndexes := pool.infoIndexes ++ [added.2]
            infoTable := added.1 }, fi)

/-! ## Runs -/

inductive Call where
  | createString (ptr : CString)
  | insertInfo (owner group : Nat) (mode : UShort)

def step (pool : Pool) : Call → Option (Pool × Nat)
  | .createString ptr => createString bcmp pool ptr
  | .insertInfo owner group mode => insertInfo pool owner group mode

/-- The texts of the calls of `create_string`, with the strings they return. -/
def noted (call : Call) (s : Nat) : List (CString × Nat) :=
  match call with
  | .createString ptr => [(ptr, s)]
  | .insertInfo .. => []

def run (pool : Pool) : List Call → Option (Pool × List (CString × Nat))
  | [] => some (pool, [])
  | call :: more =>
      (step bcmp pool call).bind fun after =>
        (run after.1 more).map fun ended => (ended.1, noted call after.2 ++ ended.2)

/-- Every call meets a condition in the state before it. -/
def Along (P : Pool → Call → Prop) (pool : Pool) : List Call → Prop
  | [] => True
  | call :: more =>
      P pool call ∧ ∀ after, step bcmp pool call = some after → Along P after.1 more

/-- The strings from a node on. -/
def walk (links : Links Node) : Nat → Node → List Nat
  | 0, _ => []
  | _ + 1, .header _ => []
  | fuel + 1, .string s => s :: walk links fuel (links.next (.string s))

def Pool.chain (pool : Pool) (ahash : Byte) : List Nat :=
  walk pool.links pool.strings.length (pool.links.next (.header ahash))

/-- Texts are short, and pointers point to strings. -/
def Proper (pool : Pool) : Call → Prop
  | .createString ptr => ptr.data.length < 65536
  | .insertInfo owner group _ => owner < pool.strings.length ∧ group < pool.strings.length

/-- A search gets to a string that is the last one of its chain, or that has only smaller ones
before it and a greater one at the end. -/
def Reaches (cmp : Nat → Int) (chain : List Nat) (s : Nat) : Prop :=
  ∃ front back, chain = front ++ s :: back ∧
    (back = [] ∨ (∀ r ∈ front, cmp r < 0) ∧ ∀ last ∈ back.getLast?, 0 < cmp last)

/-- The search gets to the text if it is there, and if not, the table can take it. -/
def Clear (pool : Pool) : Call → Prop
  | .createString ptr =>
      let chain := pool.chain (hashstring ptr.data).1
      (∀ s ∈ chain, pool.cmp bcmp ptr s = 0 → Reaches (pool.cmp bcmp ptr) chain s) ∧
        ((∀ s ∈ chain, pool.cmp bcmp ptr s ≠ 0) → pool.strings.length < 32768)
  | .insertInfo owner group mode =>
      ⟨owner, group, mode⟩ ∈ pool.infos ∨ pool.infos.length < 32768

instance (cmp : Nat → Int) (chain : List Nat) (s : Nat) : Decidable (Reaches cmp chain s) := by
  refine decidable_of_iff (∃ i < chain.length, chain[i]? = some s ∧ (chain.drop (i + 1) = [] ∨
    (∀ r ∈ chain.take i, cmp r < 0) ∧ ∀ last ∈ (chain.drop (i + 1)).getLast?, 0 < cmp last))
    ⟨fun ⟨i, below, there, found⟩ => ⟨chain.take i, chain.drop (i + 1), ?_, found⟩,
      fun ⟨front, back, split, found⟩ => ⟨front.length, ?_, ?_, ?_⟩⟩
  · rw [← (List.getElem?_eq_some_iff.mp there).2, ← List.drop_eq_getElem_cons, List.take_append_drop]
  · rw [split, List.length_append, List.length_cons]
    omega
  · rw [split, List.getElem?_append_right (Nat.le_refl _), Nat.sub_self]
    rfl
  · rw [split, List.take_left, List.drop_append, List.drop_eq_nil_of_le (Nat.le_succ _),
      Nat.add_sub_cancel_left]
    exact found

instance (pool : Pool) (call : Call) : Decidable (Proper pool call) :=
  match call with
  | .createString ptr => inferInstanceAs (Decidable (ptr.data.length < 65536))
  | .insertInfo owner group _ =>
      inferInstanceAs (Decidable (owner < pool.strings.length ∧ group < pool.strings.length))

instance (pool : Pool) (call : Call) : Decidable (Clear bcmp pool call) :=
  match call with
  | .createString ptr =>
      inferInstanceAs (Decidable
        ((∀ s ∈ pool.chain (hashstring ptr.data).1, pool.cmp bcmp ptr s = 0 →
            Reaches (pool.cmp bcmp ptr) (pool.chain (hashstring ptr.data).1) s) ∧
          ((∀ s ∈ pool.chain (hashstring ptr.data).1, pool.cmp bcmp ptr s ≠ 0) →
            pool.strings.length < 32768)))
  | .insertInfo owner group mode =>
      inferInstanceAs (Decidable (⟨owner, group, mode⟩ ∈ pool.infos ∨ pool.infos.length < 32768))

instance decidableAlong (P : Pool → Call → Prop) [∀ pool call, Decidable (P pool call)] :
    ∀ pool calls, Decidable (Along bcmp P pool calls)
  | _, [] => isTrue trivial
  | pool, call :: more =>
      match stepped : step bcmp pool call with
      | none => decidable_of_iff (P pool call)
          ⟨fun here => ⟨here, fun _ eq => by cases stepped.symm.trans eq⟩, And.left⟩
      | some after =>
          haveI := decidableAlong P after.1 more
          decidable_of_iff (P pool call ∧ Along bcmp P after.1 more)
            ⟨fun ⟨here, rest⟩ => ⟨here, fun _ eq => by cases stepped.symm.trans eq; exact rest⟩,
              fun ⟨here, rest⟩ => ⟨here, rest after stepped⟩⟩

end Definitions

/-- What sharing is to mean, with the texts that were asked for and the strings returned. -/
structure Interned (pool : Pool) (log : List (CString × Nat)) : Prop where
  same : ∀ p ∈ log, ∀ q ∈ log, p.2 = q.2 ↔ p.1 = q.1
  linked : ∀ ahash, pool.links.Ring (.header ahash) ((pool.chain ahash).map .string)
  once : ∀ s < pool.strings.length, ∃ ahash, (pool.chain ahash).count s = 1 ∧
    ∀ other, other ≠ ahash → s ∉ pool.chain other
  only : ∀ ahash, ∀ s ∈ pool.chain ahash, s < pool.strings.length
  indexed : ∀ s < pool.strings.length, ∃ index, pool.stringIndexes[s]? = some index ∧
    pool.stringTable.tab[index.toNat]? = some (some s)
  infos : ∀ (i j : Nat) (a b : FileInfo), pool.infos[i]? = some a → pool.infos[j]? = some b →
    (pool.strings.getD a.owner default).data = (pool.strings.getD b.owner default).data →
    (pool.strings.getD a.group default).data = (pool.strings.getD b.group default).data →
    a.mode = b.mode → i = j

/-! ## Searches -/

/-- The node before a place of a chain. -/
def before (ahash : Byte) (chain : List Nat) (place : Nat) : Node :=
  ((chain.take place).map Node.string).getLastD (.header ahash)

section Search

variable {cmp : Nat → Int} {links : Links Node} {ahash : Byte} {chain front back rest : List Nat}
variable {s last fuel place : Nat}

theorem ring_at_string
    (ring : links.Ring (.header ahash) ((front ++ s :: back).map Node.string)) :
    links.prev (.string s) = before ahash (front ++ s :: back) front.length ∧
      links.next (.string s) = (back.map Node.string).headD (.header ahash) := by
  rw [List.map_append, List.map_cons] at ring
  rw [before, List.take_left]
  exact ring.at_node

theorem scanLinks_eq
    (ring : links.Ring (.header ahash) ((front ++ (rest ++ [last])).map Node.string))
    (nodup : (front ++ (rest ++ [last])).Nodup) (enough : rest.length < fuel) :
    scanLinks cmp links (.string last) fuel (.string (rest.headD last)) =
      some (before ahash (front ++ (rest ++ [last])) (scanChain cmp rest front.length).1,
        (scanChain cmp rest front.length).2) := by
  induction rest generalizing front fuel with
  | nil =>
      obtain ⟨fuel, rfl⟩ : ∃ more, fuel = more + 1 := ⟨fuel - 1, (Nat.sub_add_cancel enough).symm⟩
      rw [List.headD_nil, scanLinks, if_pos rfl, (ring_at_string ring).1]
      rfl
  | cons r rest ih =>
      obtain ⟨fuel, rfl⟩ : ∃ more, fuel = more + 1 :=
        ⟨fuel - 1, (Nat.sub_add_cancel (Nat.zero_lt_of_lt enough)).symm⟩
      have differ : r ≠ last := by
        rintro rfl
        have behind := (List.nodup_append.mp nodup).2.1
        rw [List.cons_append] at behind
        exact (List.nodup_cons.mp behind).1 (by simp)
      obtain ⟨prev, next⟩ := ring_at_string ring
      have following : links.next (.string r) = .string (rest.headD last) := by
        rw [next]
        cases rest <;> rfl
      rw [List.headD_cons, scanLinks, if_neg (fun same => differ (Node.string.inj same))]
      rw [prev, following, scanChain]
      split
      · rfl
      · split
        · rfl
        · have moved : front ++ (r :: rest ++ [last]) = front ++ [r] ++ (rest ++ [last]) := by simp
          rw [moved] at ring nodup ⊢
          rw [ih ring nodup (Nat.lt_of_succ_lt_succ enough), List.length_append,
            List.length_singleton]

theorem prevstring_eq (ring : links.Ring (.header ahash) (chain.map Node.string))
    (nodup : chain.Nodup) (enough : chain.length ≤ fuel) :
    prevstring cmp links fuel ahash =
      some (before ahash chain (Sdm.prevstring cmp chain).1, (Sdm.prevstring cmp chain).2) := by
  rcases List.eq_nil_or_concat' chain with rfl | ⟨rest, last, rfl⟩
  · have empty : links.prev (.header ahash) = .header ahash := ring.prev_header
    rw [prevstring]
    simp only [empty, if_true]
    rfl
  · have end_ : links.prev (.header ahash) = .string last := by
      rw [ring.prev_header, List.map_append, List.map_singleton, List.getLastD_concat]
    have prev := (ring_at_string ring).1
    have start : links.next (.header ahash) = .string (rest.headD last) := by
      rw [ring.next_header]
      cases rest <;> rfl
    have apart : Node.string last ≠ before ahash (rest ++ [last]) rest.length := by
      rw [before, List.take_left]
      intro same
      have member := Links.getLastD_mem (.header ahash) (rest.map Node.string)
      rw [← same] at member
      rcases List.mem_cons.mp member with header | inside
      · cases header
      · obtain ⟨s, found, eq⟩ := List.mem_map.mp inside
        cases eq
        exact (List.nodup_append.mp nodup).2.2 last found last (List.mem_singleton_self last) rfl
    rw [prevstring, Sdm.prevstring, List.getLast?_concat]
    simp only [end_, prev, start, if_neg apart]
    split
    · rw [List.length_append, List.length_singleton, Nat.add_sub_cancel]
    · split
      · rw [before, List.take_length, List.map_append, List.map_singleton, List.getLastD_concat]
      · rw [List.dropLast_concat]
        rw [List.length_append, List.length_singleton] at enough
        exact @scanLinks_eq cmp links ahash [] rest last fuel ring nodup enough

theorem scanChain_spec : (scanChain cmp chain place).1 ≤ place + chain.length ∧
    ∀ s ∈ (scanChain cmp chain place).2, s ∈ chain ∧ cmp s = 0 := by
  induction chain generalizing place with
  | nil => exact ⟨Nat.le_refl place, fun s none => by cases none⟩
  | cons r rest ih =>
      rw [scanChain, List.length_cons]
      split
      · next equal =>
          refine ⟨Nat.le_add_right place _, fun s found => ?_⟩
          obtain rfl := Option.some.inj found
          exact ⟨List.mem_cons_self, equal⟩
      · split
        · exact ⟨Nat.le_add_right place _, fun s none => by cases none⟩
        · obtain ⟨bound, found⟩ := @ih (place + 1)
          exact ⟨by omega, fun s member =>
            ⟨List.mem_cons_of_mem r (found s member).1, (found s member).2⟩⟩

theorem prevstring_spec : (Sdm.prevstring cmp chain).1 ≤ chain.length ∧
    ∀ s ∈ (Sdm.prevstring cmp chain).2, s ∈ chain ∧ cmp s = 0 := by
  rw [Sdm.prevstring]
  rcases List.eq_nil_or_concat' chain with rfl | ⟨rest, last, rfl⟩
  · exact ⟨Nat.le_refl 0, fun s none => by cases none⟩
  · rw [List.getLast?_concat]
    dsimp only
    split
    · next equal =>
        refine ⟨Nat.sub_le _ _, fun s found => ?_⟩
        obtain rfl := Option.some.inj found
        exact ⟨by simp, equal⟩
    · split
      · exact ⟨Nat.le_refl _, fun s none => by cases none⟩
      · rw [List.dropLast_concat, List.length_append]
        obtain ⟨bound, found⟩ := @scanChain_spec cmp rest 0
        exact ⟨by omega, fun s member =>
          ⟨List.mem_append_left _ (found s member).1, (found s member).2⟩⟩

theorem scanChain_finds (less : ∀ r ∈ front, cmp r < 0) (equal : cmp s = 0) :
    (scanChain cmp (front ++ s :: back) place).2 = some s := by
  induction front generalizing place with
  | nil => rw [List.nil_append, scanChain, if_pos equal]
  | cons r front ih =>
      have here := less r List.mem_cons_self
      rw [List.cons_append, scanChain, if_neg (by omega), if_neg (by omega)]
      exact ih fun r' member => less r' (List.mem_cons_of_mem r member)

theorem Reaches.found (reaches : Reaches cmp chain s) (equal : cmp s = 0) :
    (Sdm.prevstring cmp chain).2 = some s := by
  obtain ⟨front, back, rfl, rfl | ⟨less, greater⟩⟩ := reaches
  · rw [Sdm.prevstring, List.getLast?_concat]
    dsimp only
    rw [if_pos equal]
  · rcases List.eq_nil_or_concat' back with rfl | ⟨rest, last, rfl⟩
    · rw [Sdm.prevstring, List.getLast?_concat]
      dsimp only
      rw [if_pos equal]
    · have positive := greater last (by rw [List.getLast?_concat]; rfl)
      rw [← List.cons_append, ← List.append_assoc, Sdm.prevstring, List.getLast?_concat]
      dsimp only
      rw [if_neg (by omega), if_neg (by omega), List.dropLast_concat]
      exact scanChain_finds less equal

theorem walk_eq {start : Node}
    (trail : links.Trail start (chain.map Node.string ++ [.header ahash]))
    (enough : chain.length ≤ fuel) : walk links fuel (links.next start) = chain := by
  induction chain generalizing start fuel with
  | nil =>
      rw [trail.1]
      cases fuel <;> rfl
  | cons s chain ih =>
      obtain ⟨fuel, rfl⟩ : ∃ more, fuel = more + 1 :=
        ⟨fuel - 1, (Nat.sub_add_cancel (Nat.zero_lt_of_lt enough)).symm⟩
      rw [trail.1, walk, ih trail.2.2 (Nat.le_of_succ_le_succ enough)]

end Search

/-! ## The invariant -/

/-- What holds of the pool, with the strings of its chains. -/
structure Sound (pool : Pool) (chains : Byte → List Nat) : Prop where
  linked : ∀ ahash, pool.links.Ring (.header ahash) ((chains ahash).map Node.string)
  nodup : ∀ ahash, (chains ahash).Nodup
  member : ∀ ahash s, s ∈ chains ahash ↔ ∃ r, pool.strings[s]? = some r ∧ r.ahash = ahash
  record : ∀ r ∈ pool.strings, r.len.toNat = r.data.data.length ∧
    (r.ahash, r.xhash) = hashstring r.data.data
  distinct : (pool.strings.map StringRec.data).Nodup
  strings : pool.stringTable.Holds pool.strings.length
  stringIndexes : pool.stringIndexes = (List.range pool.strings.length).map (BitVec.ofNat 16)
  infos : pool.infoTable.Holds pool.infos.length
  different : pool.infos.Nodup
  owners : ∀ info ∈ pool.infos,
    info.owner < pool.strings.length ∧ info.group < pool.strings.length

theorem Sound.initial : Sound .initial fun _ => [] where
  linked := fun _ => ⟨rfl, rfl, trivial⟩
  nodup := fun _ => List.nodup_nil
  member := fun ahash s => by simp [Pool.initial]
  record := fun r member => by cases member
  distinct := List.nodup_nil
  strings := .empty
  stringIndexes := rfl
  infos := .empty
  different := List.nodup_nil
  owners := fun info member => by cases member

namespace Sound

variable {bcmp : List Byte → List Byte → Int} {pool : Pool} {chains : Byte → List Nat}
variable {ptr : CString} {ahash : Byte} {s : Nat} {r : StringRec}

theorem below (sound : Sound pool chains) (member : s ∈ chains ahash) :
    s < pool.strings.length := by
  obtain ⟨r, at_s, -⟩ := (sound.member ahash s).mp member
  exact (List.getElem?_eq_some_iff.mp at_s).1

theorem chain_length (sound : Sound pool chains) :
    (chains ahash).length ≤ pool.strings.length := by
  have inside : chains ahash ⊆ List.range pool.strings.length := fun s member =>
    List.mem_range.mpr (sound.below member)
  simpa using ((sound.nodup ahash).subperm inside).length_le

theorem chain_eq (sound : Sound pool chains) : pool.chain ahash = chains ahash :=
  walk_eq (sound.linked ahash) sound.chain_length

theorem eq_of_data (sound : Sound pool chains) {t : Nat} {r' : StringRec}
    (at_s : pool.strings[s]? = some r) (at_t : pool.strings[t]? = some r')
    (same : r.data = r'.data) : s = t := by
  obtain ⟨inside, rfl⟩ := List.getElem?_eq_some_iff.mp at_s
  obtain ⟨inside', rfl⟩ := List.getElem?_eq_some_iff.mp at_t
  have equal := List.inj_on_of_nodup_map sound.distinct (List.getElem_mem inside)
    (List.getElem_mem inside') same
  exact (List.Nodup.getElem_inj_iff (List.Nodup.of_map _ sound.distinct)).mp equal

theorem eq_of_getD (sound : Sound pool chains) {t : Nat} (inside : s < pool.strings.length)
    (inside' : t < pool.strings.length)
    (same : (pool.strings.getD s default).data = (pool.strings.getD t default).data) : s = t := by
  rw [List.getD_eq_getElem?_getD, List.getD_eq_getElem?_getD, List.getElem?_eq_getElem inside,
    List.getElem?_eq_getElem inside'] at same
  exact sound.eq_of_data (List.getElem?_eq_getElem inside) (List.getElem?_eq_getElem inside') same

theorem cmp_eq_zero (exact : ∀ a b, a.length = b.length → (bcmp a b = 0 ↔ a = b))
    (sound : Sound pool chains) (at_s : pool.strings[s]? = some r) :
    pool.cmp bcmp ptr s = 0 ↔ r.data = ptr := by
  obtain ⟨length, hash⟩ := sound.record r (List.mem_of_getElem? at_s)
  rw [Pool.cmp, List.getD_eq_getElem?_getD, at_s, Option.getD_some, cmpstring, length]
  constructor
  · intro equal
    split at equal
    · omega
    · next same =>
        split at equal
        · next differ =>
            have differ' : r.xhash.toNat ≠ (hashstring ptr.data).2.toNat := fun same =>
              differ (BitVec.eq_of_toNat_eq same)
            omega
        · rw [← not_ne_iff.mp same, List.take_length, not_ne_iff.mp same, List.take_length,
            exact _ _ (not_ne_iff.mp same)] at equal
          cases r with
          | mk len ahash xhash data =>
              cases data
              cases ptr
              simpa using equal
  · rintro rfl
    rw [if_neg (by simp), if_neg (by rw [← hash]; simp), List.take_length]
    exact (exact _ _ rfl).mpr rfl

theorem search (exact : ∀ a b, a.length = b.length → (bcmp a b = 0 ↔ a = b))
    (sound : Sound pool chains) (clear : Clear bcmp pool (.createString ptr)) :
    (∃ s r, (Sdm.prevstring (pool.cmp bcmp ptr) (chains (hashstring ptr.data).1)).2 = some s ∧
      pool.strings[s]? = some r ∧ r.data = ptr) ∨
    ((Sdm.prevstring (pool.cmp bcmp ptr) (chains (hashstring ptr.data).1)).2 = none ∧
      (∀ r ∈ pool.strings, r.data ≠ ptr) ∧ pool.strings.length < 32768) := by
  rw [Clear, sound.chain_eq] at clear
  cases found : (Sdm.prevstring (pool.cmp bcmp ptr) (chains (hashstring ptr.data).1)).2 with
  | some s =>
      obtain ⟨member, equal⟩ := prevstring_spec.2 s found
      obtain ⟨r, at_s, -⟩ := (sound.member _ s).mp member
      exact .inl ⟨s, r, rfl, at_s, (sound.cmp_eq_zero exact at_s).mp equal⟩
  | none =>
      have unequal : ∀ s ∈ chains (hashstring ptr.data).1, pool.cmp bcmp ptr s ≠ 0 := by
        intro s member equal
        rw [(clear.1 s member equal).found equal] at found
        cases found
      refine .inr ⟨rfl, fun r member same => ?_, clear.2 unequal⟩
      obtain ⟨s, at_s⟩ := List.mem_iff_getElem?.mp member
      have hash := (sound.record r member).2
      refine unequal s ((sound.member _ s).mpr ⟨r, at_s, ?_⟩)
        ((sound.cmp_eq_zero exact at_s).mpr same)
      rw [← same, ← hash]

/-- The chains with a new string at its place. -/
def place (chains : Byte → List Nat) (ahash : Byte) (place n : Nat) : Byte → List Nat :=
  Function.update chains ahash ((chains ahash).take place ++ n :: (chains ahash).drop place)

theorem mem_place {n at_ : Nat} {other : Byte} :
    s ∈ place chains ahash at_ n other ↔ s ∈ chains other ∨ (s = n ∧ other = ahash) := by
  rw [place]
  rcases eq_or_ne other ahash with rfl | differ
  · rw [Function.update_self, List.mem_append, List.mem_cons]
    conv => rhs; rw [← List.take_append_drop at_ (chains other), List.mem_append]
    tauto
  · rw [Function.update_of_ne differ]
    exact ⟨.inl, fun either => either.resolve_right fun same => differ same.2⟩

theorem apart (sound : Sound pool chains) {other : Byte} (differ : other ≠ ahash) {node : Node}
    (member : node ∈ Node.header ahash :: (chains ahash).map Node.string) :
    node ∉ Node.header other :: (chains other).map Node.string := by
  intro member'
  rcases List.mem_cons.mp member with rfl | inside
  · rcases List.mem_cons.mp member' with same | inside'
    · exact differ (Node.header.inj same).symm
    · obtain ⟨s, -, eq⟩ := List.mem_map.mp inside'
      cases eq
  · obtain ⟨s, found, rfl⟩ := List.mem_map.mp inside
    rcases List.mem_cons.mp member' with eq | inside'
    · cases eq
    · obtain ⟨s', found', eq⟩ := List.mem_map.mp inside'
      obtain ⟨r, at_s, hash⟩ := (sound.member ahash s).mp found
      obtain ⟨r', at_s', hash'⟩ := (sound.member other s').mp found'
      rw [Node.string.inj eq, at_s] at at_s'
      exact differ (by rw [← hash, ← hash', Option.some.inj at_s'])

theorem linked_place (sound : Sound pool chains) (at_ : Nat) (other : Byte) :
    (pool.links.insertAfter (before ahash (chains ahash) at_)
      (.string pool.strings.length)).Ring (.header other)
        ((place chains ahash at_ pool.strings.length other).map Node.string) := by
  have fresh : ∀ h, Node.string pool.strings.length ∉
      Node.header h :: (chains h).map Node.string := by
    intro h member
    rcases List.mem_cons.mp member with eq | inside
    · cases eq
    · obtain ⟨s, found, eq⟩ := List.mem_map.mp inside
      have := sound.below found
      rw [Node.string.inj eq] at this
      exact Nat.lt_irrefl _ this
  have chain : (chains ahash).map Node.string =
      ((chains ahash).take at_).map Node.string ++ ((chains ahash).drop at_).map Node.string := by
    rw [← List.map_append, List.take_append_drop]
  rw [place]
  rcases eq_or_ne other ahash with rfl | differ
  · rw [Function.update_self, List.map_append, List.map_cons]
    apply Links.Ring.insert
    · rw [← chain]
      exact sound.linked other
    · rw [← chain]
      refine List.nodup_cons.mpr ⟨by simp, (sound.nodup other).map ?_⟩
      exact fun s t same => Node.string.inj same
    · rw [← chain]
      exact fresh other
  · have inside : before ahash (chains ahash) at_ ∈
        Node.header ahash :: (chains ahash).map Node.string := by
      have member := Links.getLastD_mem (.header ahash) (((chains ahash).take at_).map Node.string)
      rcases List.mem_cons.mp member with header | string
      · exact List.mem_cons.mpr (.inl header)
      · rw [chain]
        exact List.mem_cons_of_mem _ (List.mem_append_left _ string)
    rw [Function.update_of_ne differ]
    apply (sound.linked other).insert_other (fresh other)
    · exact (ne_of_mem_of_not_mem inside (fresh ahash)).symm
    · exact sound.apart differ inside
    · exact sound.apart differ ((sound.linked ahash).next_mem inside)

theorem of_push (sound : Sound pool chains) (short : ptr.data.length < 65536)
    (new : ∀ r ∈ pool.strings, r.data ≠ ptr) {table : Table}
    (holds : table.Holds (pool.strings.length + 1)) (at_ : Nat) :
    Sound (pool.push ptr (before (hashstring ptr.data).1 (chains (hashstring ptr.data).1) at_)
      (table, BitVec.ofNat 16 pool.strings.length))
      (place chains (hashstring ptr.data).1 at_ pool.strings.length) where
  linked := sound.linked_place at_
  nodup := by
    intro other
    rw [place]
    rcases eq_or_ne other (hashstring ptr.data).1 with rfl | differ
    · rw [Function.update_self, List.nodup_middle, List.take_append_drop]
      exact List.nodup_cons.mpr
        ⟨fun member => Nat.lt_irrefl _ (sound.below member), sound.nodup _⟩
    · rw [Function.update_of_ne differ]
      exact sound.nodup other
  member := by
    intro other s
    rw [mem_place, sound.member, Pool.push]
    dsimp only
    rcases Nat.lt_trichotomy s pool.strings.length with old | rfl | beyond
    · rw [List.getElem?_append_left old]
      exact ⟨fun either => either.resolve_right fun same => Nat.ne_of_lt old same.1, .inl⟩
    · rw [List.getElem?_concat_length, List.getElem?_eq_none (Nat.le_refl _)]
      simp [eq_comm]
    · rw [List.getElem?_eq_none (Nat.le_of_lt beyond), List.getElem?_eq_none (by
        rw [List.length_append]; exact beyond)]
      simp [Nat.ne_of_gt beyond]
  record := by
    intro r member
    rcases List.mem_append.mp member with old | last
    · exact sound.record r old
    · rw [List.mem_singleton.mp last]
      exact ⟨by rw [BitVec.toNat_ofNat, Nat.mod_eq_of_lt (by omega)], rfl⟩
  distinct := by
    rw [Pool.push, List.map_append, List.map_singleton, List.nodup_append]
    refine ⟨sound.distinct, List.nodup_singleton _, fun data found data' last => ?_⟩
    obtain ⟨r, member, rfl⟩ := List.mem_map.mp found
    rw [List.mem_singleton.mp last]
    exact new r member
  strings := by
    rw [Pool.push, List.length_append]
    exact holds
  stringIndexes := by
    rw [Pool.push, List.length_append, List.length_singleton, List.range_succ, List.map_append,
      ← sound.stringIndexes]
    rfl
  infos := sound.infos
  different := sound.different
  owners := by
    intro info member
    rw [Pool.push, List.length_append]
    have := sound.owners info member
    omega

theorem createString (exact : ∀ a b, a.length = b.length → (bcmp a b = 0 ↔ a = b))
    (sound : Sound pool chains) (short : ptr.data.length < 65536)
    (clear : Clear bcmp pool (.createString ptr)) :
    ∃ pool' s chains', createString bcmp pool ptr = some (pool', s) ∧ Sound pool' chains' ∧
      pool.strings <+: pool'.strings ∧ ∃ r, pool'.strings[s]? = some r ∧ r.data = ptr := by
  have searched := @prevstring_eq (pool.cmp bcmp ptr) _ _ _ _
    (sound.linked (hashstring ptr.data).1) (sound.nodup _) sound.chain_length
  rw [Interning.createString]
  dsimp only
  rw [searched]
  rcases sound.search exact clear with ⟨s, r, found, at_s, same⟩ | ⟨none, new, room⟩
  · rw [found]
    exact ⟨pool, s, chains, rfl, sound, List.prefix_rfl, r, at_s, same⟩
  · obtain ⟨table', added, holds⟩ := @Table.Holds.add _ _ sound.strings room 128 7
      rfl (by decide)
    rw [none]
    dsimp only
    rw [added]
    exact ⟨_, _, _, rfl, sound.of_push short new holds _, List.prefix_append _ _, _,
      List.getElem?_concat_length, rfl⟩

theorem findInfo_eq (sound : Sound pool chains) (info : FileInfo) :
    findInfo pool info = (List.range pool.infos.length).findSome? fun fi =>
      (some fi).filter fun fi => pool.infos.getD fi default = info := by
  have entries : pool.infoTable.tab.take pool.infoTable.cur.toNat =
      (List.range pool.infos.length).map some := by
    rw [sound.infos.cur]
    apply List.ext_getElem?
    intro i
    rcases Nat.lt_or_ge i pool.infos.length with inside | outside
    · rw [List.getElem?_take_of_lt inside, sound.infos.slot i inside, List.getElem?_map,
        List.getElem?_range inside]
      rfl
    · rw [List.getElem?_eq_none (by rw [List.length_take]; omega),
        List.getElem?_eq_none (by simpa using outside)]
  rw [findInfo, entries, List.findSome?_map]
  rfl

theorem insertInfo (sound : Sound pool chains) {owner group : Nat} {mode : UShort}
    (proper : Proper pool (.insertInfo owner group mode))
    (clear : Clear bcmp pool (.insertInfo owner group mode)) :
    ∃ pool' fi, insertInfo pool owner group mode = some (pool', fi) ∧ Sound pool' chains ∧
      pool'.strings = pool.strings := by
  rw [Interning.insertInfo]
  cases found : findInfo pool ⟨owner, group, mode⟩ with
  | some fi => exact ⟨pool, fi, rfl, sound, rfl⟩
  | none =>
      have new : ⟨owner, group, mode⟩ ∉ pool.infos := by
        intro member
        obtain ⟨fi, at_fi⟩ := List.mem_iff_getElem?.mp member
        rw [sound.findInfo_eq, List.findSome?_eq_none_iff] at found
        have miss := found fi (List.mem_range.mpr (List.getElem?_eq_some_iff.mp at_fi).1)
        have equal : pool.infos.getD fi default = ⟨owner, group, mode⟩ := by
          rw [List.getD_eq_getElem?_getD, at_fi]
          rfl
        rw [Option.filter_some, if_pos (decide_eq_true equal)] at miss
        cases miss
      obtain ⟨table', added, holds⟩ := @Table.Holds.add _ _ sound.infos (clear.resolve_left new)
        32 5 rfl (by decide)
      dsimp only
      rw [added]
      refine ⟨_, _, rfl, { sound with infos := ?_, different := ?_, owners := ?_ }, rfl⟩
      · rw [List.length_append]
        exact holds
      · rw [List.nodup_append]
        refine ⟨sound.different, List.nodup_singleton _, fun info member info' last same => new ?_⟩
        rwa [← List.mem_singleton.mp last, ← same]
      · intro info member
        rcases List.mem_append.mp member with old | last
        · exact sound.owners info old
        · rw [List.mem_singleton.mp last]
          exact proper

theorem step (exact : ∀ a b, a.length = b.length → (bcmp a b = 0 ↔ a = b))
    (sound : Sound pool chains) {call : Call} (proper : Proper pool call)
    (clear : Clear bcmp pool call) :
    ∃ pool' s chains', step bcmp pool call = some (pool', s) ∧ Sound pool' chains' ∧
      pool.strings <+: pool'.strings ∧
      ∀ p ∈ noted call s, ∃ r, pool'.strings[p.2]? = some r ∧ r.data = p.1 := by
  cases call with
  | createString ptr =>
      obtain ⟨pool', s, chains', eq, sound', grown, r, at_s, same⟩ :=
        sound.createString exact proper clear
      refine ⟨pool', s, chains', eq, sound', grown, fun p member => ?_⟩
      rw [List.mem_singleton.mp member]
      exact ⟨r, at_s, same⟩
  | insertInfo owner group mode =>
      obtain ⟨pool', fi, eq, sound', strings⟩ := sound.insertInfo proper clear
      exact ⟨pool', fi, chains, eq, sound', strings ▸ List.prefix_rfl, fun p none => by cases none⟩

theorem run (exact : ∀ a b, a.length = b.length → (bcmp a b = 0 ↔ a = b)) {calls : List Call}
    (sound : Sound pool chains) (proper : Along bcmp Proper pool calls)
    (clear : Along bcmp (Clear bcmp) pool calls) :
    ∃ pool' log chains', run bcmp pool calls = some (pool', log) ∧ Sound pool' chains' ∧
      pool.strings <+: pool'.strings ∧
      ∀ p ∈ log, ∃ r, pool'.strings[p.2]? = some r ∧ r.data = p.1 := by
  induction calls generalizing pool chains with
  | nil => exact ⟨pool, [], chains, rfl, sound, List.prefix_rfl, fun p none => by cases none⟩
  | cons call more ih =>
      obtain ⟨mid, s, chains', eq, sound', grown, texts⟩ := sound.step exact proper.1 clear.1
      obtain ⟨pool', log, chains'', eq', sound'', grown', texts'⟩ :=
        ih sound' (proper.2 _ eq) (clear.2 _ eq)
      refine ⟨pool', noted call s ++ log, chains'', ?_, sound'', grown.trans grown', ?_⟩
      · rw [Interning.run, eq, Option.bind_some, eq']
        rfl
      · intro p member
        rcases List.mem_append.mp member with here | later
        · obtain ⟨r, at_s, same⟩ := texts p here
          obtain ⟨new, whole⟩ := grown'
          refine ⟨r, ?_, same⟩
          rw [← whole, List.getElem?_append_left (List.getElem?_eq_some_iff.mp at_s).1, at_s]
        · exact texts' p later

theorem interned (sound : Sound pool chains) {log : List (CString × Nat)}
    (texts : ∀ p ∈ log, ∃ r, pool.strings[p.2]? = some r ∧ r.data = p.1) : Interned pool log where
  same := by
    intro p member q member'
    obtain ⟨r, at_p, text⟩ := texts p member
    obtain ⟨r', at_q, text'⟩ := texts q member'
    constructor
    · intro equal
      rw [equal, at_q] at at_p
      rw [← text, ← text', Option.some.inj at_p]
    · intro equal
      exact sound.eq_of_data at_p at_q (by rw [text, text', equal])
  linked := by
    intro ahash
    rw [sound.chain_eq]
    exact sound.linked ahash
  once := by
    intro s below
    have at_s := List.getElem?_eq_getElem below
    refine ⟨pool.strings[s].ahash, ?_, fun other differ member => ?_⟩
    · rw [sound.chain_eq]
      exact List.count_eq_one_of_mem (sound.nodup _) ((sound.member _ s).mpr ⟨_, at_s, rfl⟩)
    · rw [sound.chain_eq] at member
      obtain ⟨r, at_r, hash⟩ := (sound.member other s).mp member
      rw [at_s] at at_r
      exact differ (by rw [← hash, Option.some.inj at_r])
  only := by
    intro ahash s member
    rw [sound.chain_eq] at member
    exact sound.below member
  indexed := by
    intro s below
    have small := sound.strings.small
    refine ⟨BitVec.ofNat 16 s, ?_, ?_⟩
    · rw [sound.stringIndexes, List.getElem?_map, List.getElem?_range below]
      rfl
    · rw [BitVec.toNat_ofNat, Nat.mod_eq_of_lt (by omega)]
      exact sound.strings.slot s below
  infos := by
    intro i j a b at_i at_j owner group mode
    obtain ⟨owned, grouped⟩ := sound.owners a (List.mem_of_getElem? at_i)
    obtain ⟨owned', grouped'⟩ := sound.owners b (List.mem_of_getElem? at_j)
    have owners := sound.eq_of_getD owned owned' owner
    have groups := sound.eq_of_getD grouped grouped' group
    have equal : a = b := by
      cases a
      cases b
      simp only [FileInfo.mk.injEq]
      exact ⟨owners, groups, mode⟩
    obtain ⟨inside, rfl⟩ := List.getElem?_eq_some_iff.mp at_i
    obtain ⟨inside', rfl⟩ := List.getElem?_eq_some_iff.mp at_j
    exact (List.Nodup.getElem_inj_iff sound.different).mp equal

end Sound

/-- **Theorem.** In runs whose calls are clear the strings are shared, whatever the sign of
`bcmp` is. -/
theorem interned_of_clear (bcmp : List Byte → List Byte → Int)
    (exact : ∀ a b, a.length = b.length → (bcmp a b = 0 ↔ a = b)) (calls : List Call)
    (proper : Along bcmp Proper .initial calls) (clear : Along bcmp (Clear bcmp) .initial calls) :
    ∃ pool log, run bcmp .initial calls = some (pool, log) ∧ Interned pool log := by
  obtain ⟨pool, log, chains, eq, sound, -, texts⟩ := Sound.initial.run exact proper clear
  exact ⟨pool, log, eq, sound.interned texts⟩

theorem bcmp_eq_zero (a b : List Byte) (same : a.length = b.length) :
    (bcmp a b : Int) = 0 ↔ a = b := by
  induction a generalizing b with
  | nil => simp [List.length_eq_zero_iff.mp same.symm, bcmp]
  | cons x a ih =>
      cases b with
      | nil => cases same
      | cons y b =>
          rw [bcmp, List.cons.injEq]
          split
          · next equal => rw [ih b (Nat.succ.inj same), and_iff_right equal]
          · next differ =>
              simp only [differ, false_and, iff_false]
              omega

/-- `abc`, `acb` and `bac`. -/
def letters (a b c : Nat) : CString :=
  .ofMemory [BitVec.ofNat 8 a, BitVec.ofNat 8 b, BitVec.ofNat 8 c]

/-- Two texts of one chain, the first of them once more, and an info twice. -/
def shared : List Call :=
  [.createString (letters 97 98 99), .createString (letters 97 99 98),
    .createString (letters 97 98 99), .insertInfo 0 1 420, .insertInfo 0 1 420]

theorem interned_shared : ∃ pool log,
    run (fun a b => bcmp a b) .initial shared = some (pool, log) ∧ Interned pool log :=
  interned_of_clear (fun a b => bcmp a b) bcmp_eq_zero shared (by decide +kernel)
    (by decide +kernel)

/-- The middle one of three strings is made again. -/
theorem interned_missed : ¬ ∀ bcmp : List Byte → List Byte → Int,
    (∀ a b, a.length = b.length → (bcmp a b = 0 ↔ a = b)) → ∀ calls : List Call,
    Along bcmp Proper .initial calls →
    ∃ pool log, run bcmp .initial calls = some (pool, log) ∧ Interned pool log := by
  intro claim
  obtain ⟨pool, log, eq, interned⟩ := claim (fun a b => bcmp a b) bcmp_eq_zero
    [.createString (letters 97 98 99), .createString (letters 97 99 98),
      .createString (letters 98 97 99), .createString (letters 97 99 98)] (by decide +kernel)
  have computed : (run (fun a b => bcmp a b) .initial
      [.createString (letters 97 98 99), .createString (letters 97 99 98),
        .createString (letters 98 97 99), .createString (letters 97 99 98)]).map Prod.snd =
      some [(letters 97 98 99, 0), (letters 97 99 98, 1), (letters 98 97 99, 2),
        (letters 97 99 98, 3)] := by decide +kernel
  rw [eq] at computed
  obtain rfl := Option.some.inj computed
  have same := (interned.same (letters 97 99 98, 1) (by simp) (letters 97 99 98, 3)
    (by simp)).mpr rfl
  cases same

end MachFormal.Sdm.Interning
