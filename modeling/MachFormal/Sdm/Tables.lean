import MachFormal.Sdm.Interning

/-!
# The sizes of the tables

The tables of the database and of its directories are counted by short numbers and doubled
when they are full.  A table of 32768 slots is doubled to none; the next record then goes
outside, and the loops that size a table for more records than that never end.
-/

namespace MachFormal.Sdm.Tables

open Interning (Table)

/-! ## The code -/

/-- The loops of `restore_database` and `restore_dirs` that size a table. -/
def sizing (cur : UShort) : Nat → UShort → Option UShort
  | 0, _ => none
  | fuel + 1, max => if max < cur then sizing cur fuel (max <<< 1) else some max

/-- `insert_file` puts a record into the table of a directory, at the place that the search has
found.  There is no result if a slot outside the table is stored to. -/
def insert (table : Table) (place : Nat) (record : Nat) : Option Table :=
  let table := if table.max ≤ table.cur then table.alloc 4 else table
  let cur := table.cur.toNat
  if cur < table.tab.length then
    some { table with
      cur := table.cur + 1
      tab := (table.tab.take cur).insertIdx place (some record) ++ table.tab.drop (cur + 1) }
  else none

/-- The tables of the database, and those of its directories. -/
structure Database where
  stringTable : Table
  fileInfoTable : Table
  fileTable : Table
  dirTable : Table
  ftable : Nat → Table
  dtable : Nat → Table

/-- `initialize_database`; a new directory has no tables. -/
def Database.initial : Database := ⟨.empty, .empty, .empty, .empty, fun _ => .empty, fun _ => .empty⟩

/-- A record is made, and for a file or directory of `insert_file` also put into the table of
the directory `d`, at most at its end. -/
inductive Insertion where
  | createString
  | insertInfo
  | createFile
  | createDir
  | insertFile (d place : Nat)
  | insertDir (d place : Nat)

/-- The next record. -/
def add (table : Table) (initialSize : UShort) : Option Table :=
  (table.add initialSize table.cur.toNat).map Prod.fst

def step (db : Database) : Insertion → Option Database
  | .createString => (add db.stringTable 128).map fun t => { db with stringTable := t }
  | .insertInfo => (add db.fileInfoTable 32).map fun t => { db with fileInfoTable := t }
  | .createFile => (add db.fileTable 64).map fun t => { db with fileTable := t }
  | .createDir => (add db.dirTable 64).map fun t => { db with dirTable := t }
  | .insertFile d place =>
      (add db.fileTable 64).bind fun t =>
        (insert (db.ftable d) (min place (db.ftable d).cur.toNat) db.fileTable.cur.toNat).map
          fun ftable => { db with fileTable := t, ftable := Function.update db.ftable d ftable }
  | .insertDir d place =>
      (add db.dirTable 64).bind fun t =>
        (insert (db.dtable d) (min place (db.dtable d).cur.toNat) db.dirTable.cur.toNat).map
          fun dtable => { db with dirTable := t, dtable := Function.update db.dtable d dtable }

/-! ## What is asked for -/

/-- The entries 0 to `cur - 1`. -/
def entries (table : Table) : List (Option Nat) := table.tab.take table.cur.toNat

/-- The table has one entry more, and slots for all of them. -/
structure Grown (table table' : Table) (place record : Nat) : Prop where
  slots : table'.cur.toNat ≤ table'.tab.length
  count : table'.cur.toNat = table.cur.toNat + 1
  entries : entries table' = (entries table).insertIdx place (some record)

/-- A global table has the new record at its end. -/
def Added (table table' : Table) : Prop :=
  Grown table table' table.cur.toNat table.cur.toNat

/-- What an insertion is to do. -/
def Inserted (db db' : Database) : Insertion → Prop
  | .createString => Added db.stringTable db'.stringTable
  | .insertInfo => Added db.fileInfoTable db'.fileInfoTable
  | .createFile => Added db.fileTable db'.fileTable
  | .createDir => Added db.dirTable db'.dirTable
  | .insertFile d place => Added db.fileTable db'.fileTable ∧
      Grown (db.ftable d) (db'.ftable d) (min place (db.ftable d).cur.toNat) db.fileTable.cur.toNat
  | .insertDir d place => Added db.dirTable db'.dirTable ∧
      Grown (db.dtable d) (db'.dtable d) (min place (db.dtable d).cur.toNat) db.dirTable.cur.toNat

/-- Every insertion of a run does so.  As there is memory none of them returns an error. -/
def Sound (db : Database) : List Insertion → Prop
  | [] => True
  | insertion :: more =>
      ∃ db', step db insertion = some db' ∧ Inserted db db' insertion ∧ Sound db' more

/-- The sizing loops end with a size that is large enough. -/
def Sized (cur initialSize : UShort) : Prop :=
  ∃ fuel max, sizing cur fuel initialSize = some max ∧ cur ≤ max

/-- The counts that are read for the database and, twice, for each of its directories. -/
structure Counts where
  strings : UShort
  fileInfos : UShort
  files : UShort
  dirs : UShort
  directories : List (UShort × UShort)

structure Counts.Sized (counts : Counts) : Prop where
  strings : Tables.Sized counts.strings 128
  fileInfos : Tables.Sized counts.fileInfos 32
  files : Tables.Sized counts.files 64
  dirs : Tables.Sized counts.dirs 64
  directories : ∀ d ∈ counts.directories, Tables.Sized d.1 4 ∧ Tables.Sized d.2 4

/-- How many of the records are strings. -/
def Insertion.isString : Insertion → Bool
  | .createString => true
  | _ => false

def Insertion.isInfo : Insertion → Bool
  | .insertInfo => true
  | _ => false

def Insertion.isFile : Insertion → Bool
  | .createFile | .insertFile .. => true
  | _ => false

def Insertion.isDir : Insertion → Bool
  | .createDir | .insertDir .. => true
  | _ => false

/-- At most 32768 records of each kind are made. -/
structure Few (insertions : List Insertion) : Prop where
  strings : insertions.countP Insertion.isString ≤ 32768
  infos : insertions.countP Insertion.isInfo ≤ 32768
  files : insertions.countP Insertion.isFile ≤ 32768
  dirs : insertions.countP Insertion.isDir ≤ 32768

structure Counts.Few (counts : Counts) : Prop where
  strings : counts.strings.toNat ≤ 32768
  fileInfos : counts.fileInfos.toNat ≤ 32768
  files : counts.files.toNat ≤ 32768
  dirs : counts.dirs.toNat ≤ 32768
  directories : ∀ d ∈ counts.directories, d.1.toNat ≤ 32768 ∧ d.2.toNat ≤ 32768

/-! ## The sizing loops -/

section Sizing

variable {cur max : UShort} {k : Nat}

theorem double (power : max.toNat = 2 ^ k) (small : k < 15) :
    (max <<< 1).toNat = 2 ^ (k + 1) := by
  have large : 2 ^ (k + 1) ≤ 2 ^ 15 := Nat.pow_le_pow_right (by omega) small
  rw [BitVec.toNat_shiftLeft, power, Nat.shiftLeft_eq, Nat.mod_eq_of_lt (by omega)]
  ring

/-- The loop ends before the size is too large. -/
theorem sizing_ends {d : Nat} (power : max.toNat = 2 ^ k) (left : k + d = 15)
    (few : cur.toNat ≤ 32768) : ∃ fuel m, sizing cur fuel max = some m ∧ cur ≤ m := by
  induction d generalizing k max with
  | zero =>
      obtain rfl : k = 15 := left
      have enough : ¬ max < cur := by
        rw [BitVec.lt_def, power]
        omega
      exact ⟨1, max, if_neg enough, BitVec.not_lt.mp enough⟩
  | succ d ih =>
      by_cases more : max < cur
      · obtain ⟨fuel, m, eq, enough⟩ := ih (double power (by omega)) (by omega)
        exact ⟨fuel + 1, m, by rw [sizing, if_pos more, eq], enough⟩
      · exact ⟨1, max, if_neg more, BitVec.not_lt.mp more⟩

/-- From a power of two the size gets to zero and stays there. -/
theorem sizing_goes_on (power : max = 0 ∨ ∃ k ≤ 15, max.toNat = 2 ^ k)
    (many : 32768 < cur.toNat) (fuel : Nat) : sizing cur fuel max = none := by
  induction fuel generalizing max with
  | zero => rfl
  | succ fuel ih =>
      have more : max < cur := by
        rw [BitVec.lt_def]
        rcases power with rfl | ⟨k, bound, power⟩
        · exact Nat.zero_lt_of_lt many
        · calc max.toNat = 2 ^ k := power
            _ ≤ 2 ^ 15 := Nat.pow_le_pow_right (by omega) bound
            _ < cur.toNat := many
      rw [sizing, if_pos more]
      apply ih
      rcases power with rfl | ⟨k, bound, power⟩
      · exact .inl rfl
      · rcases Nat.lt_or_eq_of_le bound with inside | rfl
        · exact .inr ⟨k + 1, inside, double power inside⟩
        · refine .inl (BitVec.eq_of_toNat_eq ?_)
          rw [BitVec.toNat_shiftLeft, power]
          rfl

theorem sized_iff {initialSize : UShort} {j : Nat} (size : initialSize.toNat = 2 ^ j)
    (small : j ≤ 15) : Sized cur initialSize ↔ cur.toNat ≤ 32768 := by
  constructor
  · rintro ⟨fuel, m, eq, -⟩
    by_contra many
    rw [sizing_goes_on (.inr ⟨j, small, size⟩) (by omega)] at eq
    cases eq
  · exact sizing_ends size (Nat.add_sub_cancel' small)

theorem Counts.sized_iff (counts : Counts) : counts.Sized ↔ counts.Few := by
  have four : ∀ cur, Tables.Sized cur 4 ↔ cur.toNat ≤ 32768 := fun cur =>
    @Tables.sized_iff cur 4 2 rfl (by decide)
  have sixtyFour : ∀ cur, Tables.Sized cur 64 ↔ cur.toNat ≤ 32768 := fun cur =>
    @Tables.sized_iff cur 64 6 rfl (by decide)
  have thirtyTwo : ∀ cur, Tables.Sized cur 32 ↔ cur.toNat ≤ 32768 := fun cur =>
    @Tables.sized_iff cur 32 5 rfl (by decide)
  have many : ∀ cur, Tables.Sized cur 128 ↔ cur.toNat ≤ 32768 := fun cur =>
    @Tables.sized_iff cur 128 7 rfl (by decide)
  constructor
  · rintro ⟨strings, fileInfos, files, dirs, directories⟩
    exact ⟨(many _).mp strings, (thirtyTwo _).mp fileInfos, (sixtyFour _).mp files,
      (sixtyFour _).mp dirs, fun d member =>
        (directories d member).imp (four _).mp (four _).mp⟩
  · rintro ⟨strings, fileInfos, files, dirs, directories⟩
    exact ⟨(many _).mpr strings, (thirtyTwo _).mpr fileInfos, (sixtyFour _).mpr files,
      (sixtyFour _).mpr dirs, fun d member =>
        (directories d member).imp (four _).mpr (four _).mpr⟩

end Sizing

/-! ## Insertions -/

section Insertions

variable {table : Table} {n : Nat} {initialSize : UShort} {j : Nat}

/-- A table with `n` entries, of whatever they are. -/
structure Counted (table : Table) (n : Nat) : Prop where
  cur : table.cur.toNat = n
  length : table.tab.length = table.max.toNat
  power : table.max = 0 ∨ ∃ k ≤ 15, table.max.toNat = 2 ^ k
  room : n ≤ table.max.toNat

theorem Counted.empty : Counted .empty 0 := ⟨rfl, rfl, .inl rfl, Nat.le_refl 0⟩

theorem Counted.small (counted : Counted table n) : n ≤ 32768 := by
  have room := counted.room
  rcases counted.power with none | ⟨k, bound, power⟩
  · rw [none] at room
    exact Nat.le_trans room (by decide)
  · calc n ≤ 2 ^ k := power ▸ room
      _ ≤ 2 ^ 15 := Nat.pow_le_pow_right (by omega) bound

theorem Counted.next (counted : Counted table n) (below : n < 65535) :
    (table.cur + 1).toNat = n + 1 := by
  rw [BitVec.toNat_add, counted.cur]
  exact Nat.mod_eq_of_lt (by omega : n + 1 < 65536)

/-- A full table of the largest size is doubled to none. -/
theorem Counted.full (counted : Counted table 32768) (initialSize : UShort) :
    (table.alloc initialSize).tab = [] := by
  obtain ⟨length, power, room⟩ := (⟨counted.length, counted.power, counted.room⟩ : _ ∧ _ ∧ _)
  rcases power with none | ⟨k, bound, power⟩
  · rw [none] at room
    exact absurd room (by decide)
  · have whole : table.max.toNat = 32768 := by
      have := Nat.pow_le_pow_right (by omega : 0 < 2) bound
      omega
    have some : table.max ≠ 0 := fun zero => by
      rw [zero] at whole
      exact absurd whole (by decide)
    have doubled : (table.max <<< 1).toNat = 0 := by
      rw [BitVec.toNat_shiftLeft, whole]
      rfl
    rw [Table.alloc, if_neg some]
    simp only [doubled, List.take_zero]

theorem add_full (counted : Counted table 32768) (initialSize : UShort) :
    add table initialSize = none := by
  have max : table.max.toNat ≤ 32768 := by
    rcases counted.power with none | ⟨k, bound, power⟩
    · rw [none]
      exact Nat.zero_le _
    · rw [power]
      exact Nat.pow_le_pow_right (by omega) bound
  have more : table.max < table.cur + 1 := by
    rw [BitVec.lt_def, counted.next (by omega)]
    omega
  rw [add, Table.add]
  dsimp only
  rw [if_pos more, Table.alloc_with_cur]
  simp only [counted.full initialSize, List.length_nil, Nat.not_lt_zero, if_false]
  rfl

/-- A table that has room for one more entry, with the entries it had. -/
structure Roomy (table table' : Table) (n : Nat) : Prop where
  length : table'.tab.length = table'.max.toNat
  power : ∃ k ≤ 15, table'.max.toNat = 2 ^ k
  room : n < table'.max.toNat
  kept : table'.tab.take n = table.tab.take n

theorem Counted.alloc (counted : Counted table n) (below : n < 32768)
    (full : table.max.toNat = n) (size : initialSize.toNat = 2 ^ j) (small : j ≤ 15) :
    Roomy table (table.alloc initialSize) n := by
  obtain ⟨length, power, larger, kept⟩ :=
    Table.alloc_spec counted.length counted.power (full ▸ below) size small
  rw [full] at larger kept
  refine ⟨length, power, larger, ?_⟩
  rw [kept, List.take_of_length_le (by rw [counted.length, full])]

theorem Counted.roomy (counted : Counted table n) (more : n < table.max.toNat) :
    Roomy table table n := by
  refine ⟨counted.length, ?_, more, rfl⟩
  rcases counted.power with none | power
  · rw [none] at more
    exact absurd more (Nat.not_lt_zero n)
  · exact power

/-- The entries of a table into which a record has been put. -/
theorem Roomy.grown {table' : Table} (roomy : Roomy table table' n) (counted : Counted table n)
    (below : n < 32768) {place record : Nat} {tab : List (Option Nat)}
    (stored : tab.length = table'.tab.length)
    (entries : tab.take (n + 1) = (table.tab.take n).insertIdx place (some record)) :
    Grown table ⟨table.cur + 1, table'.max, tab⟩ place record ∧
      Counted ⟨table.cur + 1, table'.max, tab⟩ (n + 1) := by
  have next := counted.next (by omega)
  have length := roomy.length
  have room := roomy.room
  refine ⟨⟨?_, ?_, ?_⟩, next, stored.trans length, .inr roomy.power, room⟩
  · dsimp only
    omega
  · rw [counted.cur]
    exact next
  · rw [Tables.entries, Tables.entries, next, counted.cur]
    exact entries

theorem insertIdx_end {l : List (Option Nat)} (length : l.length = n) (x : Option Nat) :
    l.insertIdx n x = l ++ [x] := by
  rw [← length]
  exact List.insertIdx_length_self

/-- A table that is not too large takes the next record. -/
theorem add_grows (counted : Counted table n) (below : n < 32768)
    (size : initialSize.toNat = 2 ^ j) (small : j ≤ 15) :
    ∃ table', add table initialSize = some table' ∧ Added table table' ∧
      Counted table' (n + 1) := by
  have next := counted.next (by omega)
  obtain ⟨table', eq, roomy, cur⟩ : ∃ table', (if table.max < table.cur + 1 then
      ({ table with cur := table.cur + 1 } : Table).alloc initialSize
      else { table with cur := table.cur + 1 }) = table' ∧ Roomy table table' n ∧
      table'.cur = table.cur + 1 := by
    split
    · next more =>
        rw [BitVec.lt_def, next] at more
        have full : table.max.toNat = n := by have := counted.room; omega
        rw [Table.alloc_with_cur]
        have roomy := counted.alloc below full size small
        exact ⟨_, rfl, ⟨roomy.length, roomy.power, roomy.room, roomy.kept⟩, rfl⟩
    · next enough =>
        rw [BitVec.lt_def, next] at enough
        have roomy := counted.roomy (by omega)
        exact ⟨_, rfl, ⟨roomy.length, roomy.power, roomy.room, roomy.kept⟩, rfl⟩
  have inside : n < table'.tab.length := by rw [roomy.length]; exact roomy.room
  have entries : (table'.tab.set n (some n)).take (n + 1) =
      (table.tab.take n).insertIdx n (some n) := by
    have length : (table'.tab.take n).length = n := by
      rw [List.length_take]
      omega
    rw [← roomy.kept, List.set_eq_take_append_cons_drop, if_pos inside, List.take_append, length,
      Nat.add_sub_cancel_left, List.take_of_length_le (by omega)]
    rw [insertIdx_end length]
    rfl
  obtain ⟨grown, counted'⟩ := roomy.grown counted below (List.length_set ..) entries
  refine ⟨⟨table.cur + 1, table'.max, table'.tab.set n (some n)⟩, ?_, ?_, counted'⟩
  · rw [add, Table.add]
    dsimp only
    rw [eq, counted.cur, if_pos inside, ← cur]
    rfl
  · rw [Added, counted.cur]
    exact grown

/-- The table of a directory takes a record at any place. -/
theorem insert_grows (counted : Counted table n) (below : n < 32768) {place : Nat}
    (inside : place ≤ n) (record : Nat) :
    ∃ table', insert table place record = some table' ∧ Grown table table' place record ∧
      Counted table' (n + 1) := by
  obtain ⟨table', eq, roomy, cur⟩ : ∃ table', (if table.max ≤ table.cur then table.alloc 4
      else table) = table' ∧ Roomy table table' n ∧ table'.cur = table.cur := by
    split
    · next more =>
        rw [BitVec.le_def, counted.cur] at more
        have full : table.max.toNat = n := by have := counted.room; omega
        refine ⟨_, rfl, @Counted.alloc table n 4 2 counted below full rfl (by decide), ?_⟩
        rw [Table.alloc]
        split <;> rfl
    · next enough =>
        rw [BitVec.le_def, counted.cur] at enough
        exact ⟨_, rfl, counted.roomy (by omega), rfl⟩
  have enough : n < table'.tab.length := by rw [roomy.length]; exact roomy.room
  have prefix_ : ((table'.tab.take n).insertIdx place (some record)).length = n + 1 := by
    rw [List.length_insertIdx_of_le_length] <;> rw [List.length_take] <;> omega
  obtain ⟨grown, counted'⟩ := @Roomy.grown table n table' roomy counted below place record
    ((table'.tab.take n).insertIdx place (some record) ++ table'.tab.drop (n + 1))
    (by rw [List.length_append, prefix_, List.length_drop]; omega)
    (by rw [List.take_left' prefix_, roomy.kept])
  refine ⟨_, ?_, grown, counted'⟩
  rw [insert, eq, cur, counted.cur]
  exact if_pos enough

end Insertions

/-! ## Runs -/

/-- How many records there are of each kind. -/
structure Sizes where
  strings : Nat
  infos : Nat
  files : Nat
  dirs : Nat

/-- The records after an insertion. -/
def Sizes.after (sizes : Sizes) (insertion : Insertion) : Sizes where
  strings := sizes.strings + insertion.isString.toNat
  infos := sizes.infos + insertion.isInfo.toNat
  files := sizes.files + insertion.isFile.toNat
  dirs := sizes.dirs + insertion.isDir.toNat

/-- The records of a whole run. -/
def Sizes.all (sizes : Sizes) (insertions : List Insertion) : Sizes :=
  insertions.foldl Sizes.after sizes

structure Sizes.Few (sizes : Sizes) : Prop where
  strings : sizes.strings ≤ 32768
  infos : sizes.infos ≤ 32768
  files : sizes.files ≤ 32768
  dirs : sizes.dirs ≤ 32768

section Runs

variable {db db' : Database} {sizes : Sizes}

/-- How many entries the tables have. -/
structure Inv (db : Database) (sizes : Sizes) : Prop where
  strings : Counted db.stringTable sizes.strings
  infos : Counted db.fileInfoTable sizes.infos
  files : Counted db.fileTable sizes.files
  dirs : Counted db.dirTable sizes.dirs
  ftable : ∀ d, ∃ n ≤ sizes.files, Counted (db.ftable d) n
  dtable : ∀ d, ∃ n ≤ sizes.dirs, Counted (db.dtable d) n

theorem Inv.initial : Inv .initial ⟨0, 0, 0, 0⟩ where
  strings := .empty
  infos := .empty
  files := .empty
  dirs := .empty
  ftable := fun _ => ⟨0, Nat.le_refl 0, .empty⟩
  dtable := fun _ => ⟨0, Nat.le_refl 0, .empty⟩

theorem Inv.few (inv : Inv db sizes) : sizes.Few :=
  ⟨inv.strings.small, inv.infos.small, inv.files.small, inv.dirs.small⟩

/-- The directory tables when one of them has one entry more. -/
theorem counted_update {tables : Nat → Table} {n m : Nat}
    (counted : ∀ d, ∃ k ≤ n, Counted (tables d) k) (d : Nat) {table : Table}
    (new : Counted table m) (bound : m ≤ n + 1) :
    ∀ e, ∃ k ≤ n + 1, Counted (Function.update tables d table e) k := by
  intro e
  rcases eq_or_ne e d with rfl | differ
  · rw [Function.update_self]
    exact ⟨m, bound, new⟩
  · obtain ⟨k, below, old⟩ := counted e
    rw [Function.update_of_ne differ]
    exact ⟨k, Nat.le_succ_of_le below, old⟩

theorem Inv.later {n : Nat} {tables : Nat → Table} (counted : ∀ d, ∃ k ≤ n, Counted (tables d) k)
    (d : Nat) : ∃ k ≤ n + 1, Counted (tables d) k := by
  obtain ⟨k, below, old⟩ := counted d
  exact ⟨k, Nat.le_succ_of_le below, old⟩

/-- An insertion succeeds if there are not too many records after it. -/
theorem Inv.step (inv : Inv db sizes) (insertion : Insertion) (few : (sizes.after insertion).Few) :
    ∃ db', step db insertion = some db' ∧ Inserted db db' insertion ∧
      Inv db' (sizes.after insertion) := by
  obtain ⟨fewStrings, fewInfos, fewFiles, fewDirs⟩ := few
  cases insertion with
  | createString =>
      obtain ⟨t, eq, added, counted⟩ := @add_grows _ _ 128 7 inv.strings fewStrings rfl (by decide)
      refine ⟨{ db with stringTable := t }, ?_, added,
        ⟨counted, inv.infos, inv.files, inv.dirs, inv.ftable, inv.dtable⟩⟩
      rw [Tables.step, eq]
      rfl
  | insertInfo =>
      obtain ⟨t, eq, added, counted⟩ := @add_grows _ _ 32 5 inv.infos fewInfos rfl (by decide)
      refine ⟨{ db with fileInfoTable := t }, ?_, added,
        ⟨inv.strings, counted, inv.files, inv.dirs, inv.ftable, inv.dtable⟩⟩
      rw [Tables.step, eq]
      rfl
  | createFile =>
      obtain ⟨t, eq, added, counted⟩ := @add_grows _ _ 64 6 inv.files fewFiles rfl (by decide)
      refine ⟨{ db with fileTable := t }, ?_, added,
        ⟨inv.strings, inv.infos, counted, inv.dirs, Inv.later inv.ftable, inv.dtable⟩⟩
      rw [Tables.step, eq]
      rfl
  | createDir =>
      obtain ⟨t, eq, added, counted⟩ := @add_grows _ _ 64 6 inv.dirs fewDirs rfl (by decide)
      refine ⟨{ db with dirTable := t }, ?_, added,
        ⟨inv.strings, inv.infos, inv.files, counted, inv.ftable, Inv.later inv.dtable⟩⟩
      rw [Tables.step, eq]
      rfl
  | insertFile d place =>
      obtain ⟨t, eq, added, counted⟩ := @add_grows _ _ 64 6 inv.files fewFiles rfl (by decide)
      obtain ⟨n, below, old⟩ := inv.ftable d
      obtain ⟨u, eq', grown, counted'⟩ := insert_grows old (Nat.lt_of_le_of_lt below fewFiles)
        (Nat.le_trans (Nat.min_le_right place _) (Nat.le_of_eq old.cur)) db.fileTable.cur.toNat
      refine ⟨{ db with fileTable := t, ftable := Function.update db.ftable d u }, ?_,
        ⟨added, ?_⟩, ⟨inv.strings, inv.infos, counted, inv.dirs,
          counted_update inv.ftable d counted' (Nat.succ_le_succ below), inv.dtable⟩⟩
      · rw [Tables.step, eq, Option.bind_some, eq']
        rfl
      · dsimp only
        rw [Function.update_self]
        exact grown
  | insertDir d place =>
      obtain ⟨t, eq, added, counted⟩ := @add_grows _ _ 64 6 inv.dirs fewDirs rfl (by decide)
      obtain ⟨n, below, old⟩ := inv.dtable d
      obtain ⟨u, eq', grown, counted'⟩ := insert_grows old (Nat.lt_of_le_of_lt below fewDirs)
        (Nat.le_trans (Nat.min_le_right place _) (Nat.le_of_eq old.cur)) db.dirTable.cur.toNat
      refine ⟨{ db with dirTable := t, dtable := Function.update db.dtable d u }, ?_,
        ⟨added, ?_⟩, ⟨inv.strings, inv.infos, inv.files, counted, inv.ftable,
          counted_update inv.dtable d counted' (Nat.succ_le_succ below)⟩⟩
      · rw [Tables.step, eq, Option.bind_some, eq']
        rfl
      · dsimp only
        rw [Function.update_self]
        exact grown

theorem Sizes.Few.of_all {insertions : List Insertion} (few : (sizes.all insertions).Few) :
    sizes.Few := by
  induction insertions generalizing sizes with
  | nil => exact few
  | cons insertion more ih =>
      obtain ⟨strings, infos, files, dirs⟩ : (sizes.after insertion).Few := ih few
      exact ⟨Nat.le_trans (Nat.le_add_right _ _) strings, Nat.le_trans (Nat.le_add_right _ _) infos,
        Nat.le_trans (Nat.le_add_right _ _) files, Nat.le_trans (Nat.le_add_right _ _) dirs⟩

theorem add_some {table : Table} {initialSize : UShort} {n : Nat} (counted : Counted table n)
    {P : Table → Prop} (added : ∃ t, add table initialSize = some t ∧ P t) : n + 1 ≤ 32768 := by
  obtain ⟨t, eq, -⟩ := added
  refine Nat.lt_of_le_of_ne counted.small fun same => ?_
  rw [add_full (same ▸ counted)] at eq
  cases eq

/-- An insertion that succeeds was not one too many. -/
theorem Inv.step_few (inv : Inv db sizes) (insertion : Insertion)
    (eq : Tables.step db insertion = some db') : (sizes.after insertion).Few := by
  obtain ⟨fewStrings, fewInfos, fewFiles, fewDirs⟩ := inv.few
  cases insertion with
  | createString =>
      refine ⟨?_, fewInfos, fewFiles, fewDirs⟩
      rw [Tables.step] at eq
      exact add_some inv.strings (Option.map_eq_some_iff.mp eq)
  | insertInfo =>
      refine ⟨fewStrings, ?_, fewFiles, fewDirs⟩
      rw [Tables.step] at eq
      exact add_some inv.infos (Option.map_eq_some_iff.mp eq)
  | createFile =>
      refine ⟨fewStrings, fewInfos, ?_, fewDirs⟩
      rw [Tables.step] at eq
      exact add_some inv.files (Option.map_eq_some_iff.mp eq)
  | createDir =>
      refine ⟨fewStrings, fewInfos, fewFiles, ?_⟩
      rw [Tables.step] at eq
      exact add_some inv.dirs (Option.map_eq_some_iff.mp eq)
  | insertFile d place =>
      refine ⟨fewStrings, fewInfos, ?_, fewDirs⟩
      rw [Tables.step] at eq
      exact add_some inv.files (Option.bind_eq_some_iff.mp eq)
  | insertDir d place =>
      refine ⟨fewStrings, fewInfos, fewFiles, ?_⟩
      rw [Tables.step] at eq
      exact add_some inv.dirs (Option.bind_eq_some_iff.mp eq)

theorem Inv.sound (inv : Inv db sizes) (insertions : List Insertion) :
    Sound db insertions ↔ (sizes.all insertions).Few := by
  induction insertions generalizing db sizes with
  | nil => exact ⟨fun _ => inv.few, fun _ => trivial⟩
  | cons insertion more ih =>
      constructor
      · rintro ⟨db', eq, -, sound⟩
        obtain ⟨db'', eq', -, inv'⟩ := inv.step insertion (inv.step_few insertion eq)
        obtain rfl := Option.some.inj (eq.symm.trans eq')
        exact (ih inv').mp sound
      · intro few
        obtain ⟨db', eq, inserted, inv'⟩ := inv.step insertion (Sizes.Few.of_all few)
        exact ⟨db', eq, inserted, (ih inv').mpr few⟩

theorem Sizes.all_eq (sizes : Sizes) (insertions : List Insertion) : sizes.all insertions =
    ⟨sizes.strings + insertions.countP Insertion.isString,
      sizes.infos + insertions.countP Insertion.isInfo,
      sizes.files + insertions.countP Insertion.isFile,
      sizes.dirs + insertions.countP Insertion.isDir⟩ := by
  induction insertions generalizing sizes with
  | nil => rfl
  | cons insertion more ih =>
      rw [Sizes.all, List.foldl_cons, ← Sizes.all, ih]
      simp only [Sizes.after, List.countP_cons, Sizes.mk.injEq]
      cases insertion <;> simp [Insertion.isString, Insertion.isInfo, Insertion.isFile,
        Insertion.isDir, Nat.add_comm, Nat.add_left_comm]

/-- **Theorem.** The tables hold what is inserted, and are sized for what is read, exactly if
there are never more than 32768 records of a kind. -/
theorem tables_iff (insertions : List Insertion) (counts : Counts) :
    Sound .initial insertions ∧ counts.Sized ↔ Few insertions ∧ counts.Few := by
  rw [Inv.initial.sound, Counts.sized_iff, Sizes.all_eq]
  simp only [Nat.zero_add]
  refine and_congr_left' ⟨?_, ?_⟩
  · rintro ⟨strings, infos, files, dirs⟩
    exact ⟨strings, infos, files, dirs⟩
  · rintro ⟨strings, infos, files, dirs⟩
    exact ⟨strings, infos, files, dirs⟩

/-- The loops never end for 32769 strings. -/
theorem not_sized : ¬ ∀ insertions counts, Sound .initial insertions ∧ Counts.Sized counts := by
  intro claim
  obtain ⟨fuel, max, eq, -⟩ := (claim [] ⟨32769, 0, 0, 0, []⟩).2.strings
  rw [sizing_goes_on (.inr ⟨7, by decide, rfl⟩) (by decide)] at eq
  cases eq

end Runs

end MachFormal.Sdm.Tables
