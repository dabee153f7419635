import Mathlib.Algebra.GroupWithZero.Nat
import Mathlib.Data.List.TakeWhile
import MachFormal.Library.Wire

/-!
# The messages of the nanny

Strings are sent with a count of one byte, and ints as four bytes.  A list of strings ends
with an empty one, a list of groups with a zero.

What is packed is given as the bytes that are written from the beginning of `data` on.  The
unpackers run over the bytes from their pointer on; where these end, they fail.
-/

namespace MachFormal.Nanny.Packing

open Library Library.Wire

/-! ## The model -/

abbrev Byte := BitVec 8

abbrev CInt := BitVec 32

/-- A string without the byte that ends it. -/
abbrev Name := { s : List Byte // 0 ∉ s }

def MAXDATA : Nat := 512

/-- The bytes of `data`, behind two ints. -/
def dataSize : Nat := MAXDATA - 8

/-- `SHORTSRV`. -/
structure Basis where
  name : Name
  runfile : List Name
  script : List Name
  uid : List Name
  gid : List Name
  attributes : List Name
  nice : CInt

/-- What is sent of a `SERVER`.  `gid` is the memory from the first group on. -/
structure State where
  name : Name
  status : CInt
  pid : CInt
  restarts : CInt
  valid : CInt
  uid : CInt
  resttim : CInt
  gid : List CInt

/-- The count is kept in a byte. -/
def pack_str (src : Option Name) : List Byte :=
  match src with
  | none => [0]
  | some s => BitVec.ofNat 8 s.1.length :: s.1

/-- The bytes of an int, the highest first. -/
def packBytes : Nat → CInt → List Byte
  | 0, _ => []
  | size + 1, num => (num.sshiftRight (size * 8)).setWidth 8 :: packBytes size num

def pack_int (num : CInt) : List Byte := packBytes 4 num

/-- A list of strings and the empty string after it. -/
def packList (list : List Name) : List Byte :=
  (list.flatMap fun tmp => pack_str (some tmp)) ++ pack_str none

def pack_basis (s : Basis) : List Byte :=
  pack_str (some s.name) ++ packList s.runfile ++ packList s.script ++ packList s.uid ++
    packList s.gid ++ packList s.attributes ++ pack_int s.nice

/-- The loop over the groups: it ends with a zero, if there is one. -/
def packGroups : List CInt → Option (List Byte)
  | [] => none
  | g :: rest => if g = 0 then some [] else (packGroups rest).map (pack_int g ++ ·)

def pack_state (s : State) : Option (List Byte) := do
  let groups ← packGroups s.gid
  return pack_str (some s.name) ++ pack_int s.status ++ pack_int s.pid ++ pack_int s.restarts ++
    pack_int s.valid ++ pack_int s.uid ++ pack_int s.resttim ++ groups ++ [0]

/-- Why an unpacker fails: there are no more bytes, or an array is full. -/
inductive Fault where
  | memory
  | ptrs
  | glist
  deriving DecidableEq

abbrev Unpack := StateT (List Byte) (Except Fault)

def next : Unpack Byte
  | [] => .error .memory
  | b :: rest => .ok (b, rest)

def nextBytes : Nat → Unpack (List Byte)
  | 0 => pure []
  | len + 1 => do
      let b ← next
      let rest ← nextBytes len
      return b :: rest

/-- What a buffer holds as a string. -/
def stringOf (buff : List Byte) : Name :=
  ⟨buff.takeWhile (· ≠ 0), fun inside => by simpa using List.mem_takeWhile_imp inside⟩

def unpack_str : Unpack Name := do
  let len ← next
  let buff ← nextBytes len.toNat
  return stringOf buff

def unpackBytes : Nat → CInt → Unpack CInt
  | 0, tmp => pure tmp
  | size + 1, tmp => do
      let b ← next
      unpackBytes size (tmp ||| b.setWidth 32 <<< (size * 8))

def unpack_int : Unpack CInt := unpackBytes 4 0

/-- The loops that fill `ptrs`, with the room that is left in it. -/
def unpackList : Nat → Unpack (List Name)
  | 0 => throw .ptrs
  | room + 1 => do
      let tmp ← unpack_str
      if tmp.1 = [] then return []
      else do
        let rest ← unpackList room
        return tmp :: rest

/-- `**ptr == 0`. -/
def atEmpty : Unpack Bool
  | [] => .error .memory
  | b :: rest => .ok (decide (b = 0), b :: rest)

/-- What `unpack_basis` takes of a profile that is there. -/
def unpackProfile : Unpack (Option Basis) := do
  let name ← unpack_str
  let runfile ← unpackList 500
  let script ← unpackList 500
  let uid ← unpackList 500
  let gid ← unpackList 500
  let attributes ← unpackList 500
  let nice ← unpack_int
  return some ⟨name, runfile, script, uid, gid, attributes, nice⟩

def unpack_basis : Unpack (Option Basis) := do
  let empty ← atEmpty
  if empty then return none else unpackProfile

/-- The loop that fills `glist`, with the room that is left in it. -/
def unpackGroups : Nat → Unpack (List CInt)
  | 0 => throw .glist
  | room + 1 => do
      let g ← unpack_int
      if g = 0 then return []
      else do
        let rest ← unpackGroups room
        return g :: rest

/-- What `unpack_state` takes of an entry that is there. -/
def unpackEntry : Unpack (Option State) := do
  let name ← unpack_str
  let status ← unpack_int
  let pid ← unpack_int
  let restarts ← unpack_int
  let valid ← unpack_int
  let uid ← unpack_int
  let resttim ← unpack_int
  let gid ← unpackGroups 100
  return some ⟨name, status, pid, restarts, valid, uid, resttim, gid⟩

def unpack_state : Unpack (Option State) := do
  let empty ← atEmpty
  if empty then return none else unpackEntry

/-! ## What the unpackers take -/

section Taken

variable {m m' : List Byte}

theorem next_eq_ok {b : Byte} (ran : next m = .ok (b, m')) : m = b :: m' := by
  cases m with
  | nil => cases ran
  | cons c rest =>
      cases ran
      rfl

theorem nextBytes_eq_ok {len : Nat} {bytes : List Byte} (ran : nextBytes len m = .ok (bytes, m')) :
    m = bytes ++ m' ∧ bytes.length = len := by
  induction len generalizing m bytes with
  | zero =>
      cases ran
      exact ⟨rfl, rfl⟩
  | succ len ih =>
      obtain ⟨b, m₁, first, ran⟩ := bind_eq_ok ran
      obtain ⟨rest, m₂, others, ran⟩ := bind_eq_ok ran
      cases ran
      obtain ⟨rfl, length⟩ := ih others
      exact ⟨next_eq_ok first, congrArg (· + 1) length⟩

/-- A string is as long as its count says, or shorter. -/
theorem unpack_str_eq_ok {s : Name} (ran : unpack_str m = .ok (s, m')) :
    ∃ len bytes, m = len :: (bytes ++ m') ∧ bytes.length = len.toNat ∧ s = stringOf bytes := by
  obtain ⟨len, m₁, first, ran⟩ := bind_eq_ok ran
  obtain ⟨bytes, m₂, others, ran⟩ := bind_eq_ok ran
  cases ran
  obtain ⟨rfl, length⟩ := nextBytes_eq_ok others
  exact ⟨len, bytes, next_eq_ok first, length, rfl⟩

theorem unpackBytes_eq_ok {size : Nat} {tmp v : CInt}
    (ran : unpackBytes size tmp m = .ok (v, m')) : m.length = m'.length + size := by
  induction size generalizing m tmp with
  | zero =>
      cases ran
      rfl
  | succ size ih =>
      obtain ⟨b, m₁, first, ran⟩ := bind_eq_ok ran
      rw [next_eq_ok first, List.length_cons, ih ran]
      rfl

theorem unpack_int_eq_ok {v : CInt} (ran : unpack_int m = .ok (v, m')) :
    m.length = m'.length + 4 :=
  unpackBytes_eq_ok ran

/-- The groups are taken four bytes at a time. -/
theorem unpackGroups_eq_ok {room : Nat} {groups : List CInt}
    (ran : unpackGroups room m = .ok (groups, m')) : ∃ count, m.length = m'.length + 4 * count := by
  induction room generalizing m groups with
  | zero => cases ran
  | succ room ih =>
      obtain ⟨g, m₁, first, ran⟩ := bind_eq_ok ran
      have one := unpack_int_eq_ok first
      split at ran
      · cases ran
        exact ⟨1, by omega⟩
      · obtain ⟨rest, m₂, others, ran⟩ := bind_eq_ok ran
        cases ran
        obtain ⟨count, length⟩ := ih others
        exact ⟨count + 1, by omega⟩

theorem atEmpty_eq_ok {empty : Bool} (ran : atEmpty m = .ok (empty, m')) :
    m' = m ∧ ∃ b rest, m = b :: rest ∧ empty = decide (b = 0) := by
  cases m with
  | nil => cases ran
  | cons b rest =>
      cases ran
      exact ⟨rfl, b, rest, rfl, rfl⟩

/-- What is taken of an entry: the count and so many bytes, six ints, and groups. -/
theorem unpack_state_eq_ok {u : State} (whole : unpack_state m = .ok (some u, m')) :
    ∃ len rest count, m = len :: rest ∧
      m.length = m'.length + 1 + len.toNat + 24 + 4 * count := by
  obtain ⟨empty, m₀, peeked, ran⟩ := bind_eq_ok whole
  rw [(atEmpty_eq_ok peeked).1] at ran
  clear whole peeked
  split at ran
  · cases ran
  obtain ⟨name, m₁, named, ran⟩ := bind_eq_ok ran
  obtain ⟨status, m₂, int₁, ran⟩ := bind_eq_ok ran
  obtain ⟨pid, m₃, int₂, ran⟩ := bind_eq_ok ran
  obtain ⟨restarts, m₄, int₃, ran⟩ := bind_eq_ok ran
  obtain ⟨valid, m₅, int₄, ran⟩ := bind_eq_ok ran
  obtain ⟨uid, m₆, int₅, ran⟩ := bind_eq_ok ran
  obtain ⟨resttim, m₇, int₆, ran⟩ := bind_eq_ok ran
  obtain ⟨groups, m₈, grouped, ran⟩ := bind_eq_ok ran
  cases ran
  obtain ⟨len, bytes, rfl, length, -⟩ := unpack_str_eq_ok named
  obtain ⟨count, taken⟩ := unpackGroups_eq_ok grouped
  have ints := unpack_int_eq_ok int₁
  rw [unpack_int_eq_ok int₂, unpack_int_eq_ok int₃, unpack_int_eq_ok int₄, unpack_int_eq_ok int₅,
    unpack_int_eq_ok int₆, taken] at ints
  refine ⟨len, _, count, rfl, ?_⟩
  rw [List.length_cons, List.length_append, ints, length]
  omega

end Taken

/-! ## Entries -/

theorem packBytes_length (size : Nat) (num : CInt) : (packBytes size num).length = size := by
  induction size with
  | zero => rfl
  | succ size ih => exact congrArg (· + 1) ih

/-- A byte of an int, put back in its place. -/
theorem getElem_piece (num : CInt) {k i : Nat} (inside : i < 32) :
    (((num.sshiftRight k).setWidth 8).setWidth 32 <<< k)[i] =
      (decide (k ≤ i ∧ i < k + 8) && num[i]) := by
  rw [BitVec.getElem_shiftLeft, BitVec.getElem_setWidth, BitVec.getLsbD_setWidth,
    BitVec.getLsbD_sshiftRight]
  by_cases low : i < k
  · simp [low, Nat.not_le.mpr low]
  · have back : k + (i - k) = i := by omega
    by_cases high : i < k + 8
    · have width : i - k < 32 ∧ i - k < 8 ∧ ¬32 ≤ i - k := by omega
      simp [low, high, back, width, inside, Nat.not_lt.mp low]
    · have width : ¬i - k < 8 := by omega
      simp [high, width]

/-- The four bytes make the int again. -/
theorem pieces_or (num : CInt) :
    ((0 : CInt) ||| ((num.sshiftRight (3 * 8)).setWidth 8).setWidth 32 <<< (3 * 8) |||
      ((num.sshiftRight (2 * 8)).setWidth 8).setWidth 32 <<< (2 * 8) |||
      ((num.sshiftRight (1 * 8)).setWidth 8).setWidth 32 <<< (1 * 8) |||
      ((num.sshiftRight (0 * 8)).setWidth 8).setWidth 32 <<< (0 * 8)) = num := by
  ext i inside
  have place : 3 * 8 ≤ i ∧ i < 3 * 8 + 8 ∨ 2 * 8 ≤ i ∧ i < 2 * 8 + 8 ∨
      1 * 8 ≤ i ∧ i < 1 * 8 + 8 ∨ 0 * 8 ≤ i ∧ i < 0 * 8 + 8 := by omega
  simp only [BitVec.getElem_or, getElem_piece num inside]
  cases num[i] with
  | false => simp
  | true =>
      simp only [Bool.and_true, Bool.or_eq_true, decide_eq_true_eq, or_assoc]
      exact .inr place

theorem consumes_int (num : CInt) : Consumes id unpack_int (pack_int num) num := by
  intro m rest here
  refine ⟨rest, ?_, rfl⟩
  rw [show m = pack_int num ++ rest from here]
  change Except.ok (_, rest) = _
  rw [pieces_or]

theorem pack_int_length (num : CInt) : (pack_int num).length = 4 := packBytes_length 4 num

/-- The groups up to a zero. -/
def groupCount (gid : List CInt) : Nat := (gid.takeWhile (· ≠ 0)).length

theorem packGroups_length {gid : List CInt} {bytes : List Byte}
    (packed : packGroups gid = some bytes) : bytes.length = 4 * groupCount gid := by
  induction gid generalizing bytes with
  | nil => cases packed
  | cons g rest ih =>
      rw [packGroups] at packed
      split at packed
      next zero =>
        cases packed
        rw [groupCount, List.takeWhile_cons_of_neg (by simpa using zero)]
        rfl
      next more =>
        obtain ⟨others, packed', rfl⟩ := Option.map_eq_some_iff.mp packed
        have length := ih packed'
        rw [groupCount, List.takeWhile_cons_of_pos (by simpa using more), List.length_cons,
          List.length_append, pack_int_length, length, groupCount]
        omega

/-- The loop over the groups ends exactly at a zero. -/
theorem packGroups_isSome {gid : List CInt} : (packGroups gid).isSome ↔ 0 ∈ gid := by
  induction gid with
  | nil => simp [packGroups]
  | cons g rest ih =>
      rw [packGroups, List.mem_cons]
      split
      next zero => exact iff_of_true rfl (.inl zero.symm)
      next more => rw [Option.isSome_map, ih, or_iff_right (Ne.symm more)]

/-- What is written of an entry: the count and the name, six ints, groups, and one byte. -/
theorem pack_state_length {s : State} {bytes : List Byte} (packed : pack_state s = some bytes) :
    ∃ rest, bytes = BitVec.ofNat 8 s.name.1.length :: rest ∧
      bytes.length = s.name.1.length + 4 * groupCount s.gid + 26 := by
  obtain ⟨groups, grouped, packed⟩ := Option.bind_eq_some_iff.mp packed
  cases packed
  refine ⟨_, rfl, ?_⟩
  simp only [List.length_append, pack_int_length, packGroups_length grouped, pack_str,
    List.length_cons, List.length_nil]
  omega

/-- No entry is read back from just what was written of it. -/
theorem unpack_state_pack_state {s u : State} {bytes rest : List Byte}
    (packed : pack_state s = some bytes) : unpack_state (bytes ++ rest) ≠ .ok (some u, rest) := by
  intro ran
  obtain ⟨written, rfl, length⟩ := pack_state_length packed
  obtain ⟨len, others, taken, first, total⟩ := unpack_state_eq_ok ran
  obtain ⟨rfl, -⟩ := List.cons.inj first
  rw [List.length_append, length, BitVec.toNat_ofNat] at total
  omega

/-! ## Profiles -/

/-- What the count of a string and the empty string at the end of a list allow. -/
def Sendable (s : Name) : Prop := s.1 ≠ [] ∧ s.1.length < 256

def SendableList (list : List Name) : Prop := list.length < 500 ∧ ∀ s ∈ list, Sendable s

structure Fits (b : Basis) : Prop where
  name : Sendable b.name
  runfile : SendableList b.runfile
  script : SendableList b.script
  uid : SendableList b.uid
  gid : SendableList b.gid
  attributes : SendableList b.attributes

section Profiles

theorem consumes_bytes (bytes : List Byte) : Consumes id (nextBytes bytes.length) bytes bytes := by
  induction bytes with
  | nil => exact .pure _
  | cons b rest ih =>
      have first : Consumes id next [b] b := fun m rest here => ⟨rest, by rw [show m = _ from here]; rfl, rfl⟩
      exact first.bind (ih.map (b :: ·))

theorem stringOf_name (s : Name) : stringOf s.1 = s := by
  apply Subtype.ext
  refine List.takeWhile_eq_self_iff.mpr fun b inside => ?_
  rw [decide_eq_true_eq]
  rintro rfl
  exact s.2 inside

theorem consumes_str {s : Name} (short : s.1.length < 256) :
    Consumes id unpack_str (pack_str (some s)) s := by
  have count : Consumes id next [BitVec.ofNat 8 s.1.length] (BitVec.ofNat 8 s.1.length) :=
    fun m rest here => ⟨rest, by rw [show m = _ from here]; rfl, rfl⟩
  have length : (BitVec.ofNat 8 s.1.length).toNat = s.1.length := by
    rw [BitVec.toNat_ofNat]
    exact Nat.mod_eq_of_lt short
  have bytes := (consumes_bytes s.1).map stringOf
  rw [stringOf_name] at bytes
  refine count.bind ?_
  rw [length]
  exact bytes

/-- A list is read back if none of its strings is empty and the array has room for it. -/
theorem consumes_list {list : List Name} {room : Nat} (short : list.length < room)
    (sendable : ∀ s ∈ list, Sendable s) : Consumes id (unpackList room) (packList list) list := by
  induction list generalizing room with
  | nil =>
      obtain ⟨room, rfl⟩ := Nat.exists_eq_succ_of_ne_zero (Nat.ne_of_gt short)
      exact fun m rest here => ⟨rest, by rw [show m = _ from here]; rfl, rfl⟩
  | cons s list ih =>
      obtain ⟨room, rfl⟩ := Nat.exists_eq_succ_of_ne_zero (Nat.ne_of_gt (Nat.zero_lt_of_lt short))
      obtain ⟨nonempty, length⟩ := sendable s List.mem_cons_self
      have others := ih (Nat.lt_of_succ_lt_succ short) fun t inside =>
        sendable t (List.mem_cons_of_mem s inside)
      rw [packList, List.flatMap_cons, List.append_assoc, unpackList]
      refine (consumes_str length).bind ?_
      rw [if_neg nonempty]
      exact others.map (s :: ·)

/-- A profile is read back if all its strings and lists fit. -/
theorem unpack_basis_pack_basis {b : Basis} (fits : Fits b) (rest : List Byte) :
    unpack_basis (pack_basis b ++ rest) = .ok (some b, rest) := by
  obtain ⟨⟨nonempty, short⟩, runfile, script, uid, gid, attributes⟩ := fits
  have reads : Consumes id unpackProfile (pack_basis b) (some b) := by
    simp only [pack_basis, List.append_assoc]
    exact (consumes_str short).bind ((consumes_list runfile.1 runfile.2).bind
      ((consumes_list script.1 script.2).bind ((consumes_list uid.1 uid.2).bind
      ((consumes_list gid.1 gid.2).bind ((consumes_list attributes.1 attributes.2).bind
      ((consumes_int b.nice).map _))))))
  obtain ⟨rest', ran, same⟩ := reads (pack_basis b ++ rest) rest rfl
  obtain rfl : rest' = rest := same
  have count : BitVec.ofNat 8 b.name.1.length ≠ 0 := by
    intro zero
    have length := congrArg BitVec.toNat zero
    rw [BitVec.toNat_ofNat, Nat.mod_eq_of_lt short] at length
    exact nonempty (List.length_eq_zero_iff.mp length)
  rw [← ran]
  change (if decide (BitVec.ofNat 8 b.name.1.length = 0) = true then pure none else unpackProfile) _ = _
  rw [if_neg (by simpa using count)]
  rfl

/-! The strings that are read fit. -/

variable {m m' : List Byte}

theorem stringOf_length_le (bytes : List Byte) : (stringOf bytes).1.length ≤ bytes.length :=
  (List.takeWhile_sublist _).length_le

theorem unpack_str_short {s : Name} (ran : unpack_str m = .ok (s, m')) : s.1.length < 256 := by
  obtain ⟨len, bytes, -, length, rfl⟩ := unpack_str_eq_ok ran
  have short := stringOf_length_le bytes
  have byte := len.isLt
  omega

theorem unpackList_fits {room : Nat} {list : List Name} (ran : unpackList room m = .ok (list, m')) :
    list.length < room ∧ ∀ s ∈ list, Sendable s := by
  induction room generalizing m list with
  | zero => cases ran
  | succ room ih =>
      obtain ⟨s, m₁, first, ran⟩ := bind_eq_ok ran
      split at ran
      · cases ran
        exact ⟨Nat.succ_pos room, fun s inside => absurd inside List.not_mem_nil⟩
      next nonempty =>
        obtain ⟨rest, m₂, others, ran⟩ := bind_eq_ok ran
        cases ran
        obtain ⟨length, sendable⟩ := ih others
        refine ⟨Nat.succ_lt_succ length, fun t inside => ?_⟩
        rcases List.mem_cons.mp inside with rfl | inside
        · exact ⟨nonempty, unpack_str_short first⟩
        · exact sendable t inside

/-- The strings of an accepted profile fit, except that its name may be cut to nothing. -/
theorem unpackProfile_fits {b : Basis} (ran : unpackProfile m = .ok (some b, m')) :
    b.name.1.length < 256 ∧ SendableList b.runfile ∧ SendableList b.script ∧ SendableList b.uid ∧
      SendableList b.gid ∧ SendableList b.attributes := by
  obtain ⟨name, m₁, named, ran⟩ := bind_eq_ok ran
  obtain ⟨runfile, m₂, list₁, ran⟩ := bind_eq_ok ran
  obtain ⟨script, m₃, list₂, ran⟩ := bind_eq_ok ran
  obtain ⟨uid, m₄, list₃, ran⟩ := bind_eq_ok ran
  obtain ⟨gid, m₅, list₄, ran⟩ := bind_eq_ok ran
  obtain ⟨attributes, m₆, list₅, ran⟩ := bind_eq_ok ran
  obtain ⟨nice, m₇, -, ran⟩ := bind_eq_ok ran
  cases ran
  exact ⟨unpack_str_short named, unpackList_fits list₁, unpackList_fits list₂, unpackList_fits list₃,
    unpackList_fits list₄, unpackList_fits list₅⟩

/-- Only profiles that fit are read back. -/
theorem fits_of_returns {b : Basis}
    (returns : unpack_basis (pack_basis b) = .ok (some b, [])) : Fits b := by
  obtain ⟨empty, m₀, peeked, ran⟩ := bind_eq_ok returns
  obtain ⟨same, c, others, first, isEmpty⟩ := atEmpty_eq_ok peeked
  rw [same] at ran
  split at ran
  · cases ran
  next count =>
    obtain ⟨short, runfile, script, uid, gid, attributes⟩ := unpackProfile_fits ran
    refine ⟨⟨fun nothing => count ?_, short⟩, runfile, script, uid, gid, attributes⟩
    obtain ⟨rfl, -⟩ := List.cons.inj first
    rw [isEmpty, nothing]
    rfl

end Profiles

/-! ## The room in a message -/

section Room

def listSize (list : List Name) : Nat := (list.map fun s => s.1.length + 1).sum + 1

/-- What a profile takes of the data. -/
def basisSize (b : Basis) : Nat :=
  b.name.1.length + listSize b.runfile + listSize b.script + listSize b.uid + listSize b.gid +
    listSize b.attributes + 5

theorem packList_length (list : List Name) : (packList list).length = listSize list := by
  induction list with
  | nil => rfl
  | cons s list ih =>
      rw [packList, listSize, List.length_append] at ih
      rw [packList, listSize, List.flatMap_cons, List.length_append, List.length_append,
        List.map_cons, List.sum_cons, Nat.add_assoc, ih, Nat.add_assoc]
      rfl

theorem pack_basis_length (b : Basis) : (pack_basis b).length = basisSize b := by
  simp only [pack_basis, List.length_append, packList_length, pack_int_length, basisSize, pack_str,
    List.length_cons]
  omega

/-- What is read of bytes that end too early. -/
theorem nextBytes_memory {len : Nat} {m : List Byte} :
    nextBytes len m = .error .memory ↔ m.length < len := by
  induction len generalizing m with
  | zero => exact iff_of_false (fun ran => by cases ran) (Nat.not_lt_zero _)
  | succ len ih =>
      cases m with
      | nil => exact iff_of_true rfl (Nat.succ_pos len)
      | cons b rest =>
          rw [List.length_cons, Nat.succ_lt_succ_iff, ← ih]
          change (nextBytes len rest >>= fun p => Except.ok (b :: p.1, p.2)) = _ ↔ _
          cases nextBytes len rest with
          | error fault => exact Iff.rfl
          | ok p => exact iff_of_false (fun ran => by cases ran) (fun ran => by cases ran)

/-- A string is read beyond the end of the data if its count says so. -/
theorem unpack_str_memory {data : List Byte} :
    unpack_str data = .error .memory ↔ data.length ≤ (data.headD 0).toNat := by
  cases data with
  | nil => exact iff_of_true rfl (Nat.le_refl 0)
  | cons len rest =>
      rw [List.headD_cons, List.length_cons, Nat.succ_le_iff, ← nextBytes_memory]
      change (nextBytes len.toNat rest >>= fun p => Except.ok (stringOf p.1, p.2)) = _ ↔ _
      cases nextBytes len.toNat rest with
      | error fault =>
          exact ⟨fun ran => by cases ran; rfl, fun ran => by cases ran; rfl⟩
      | ok p => exact iff_of_false (fun ran => by cases ran) (fun ran => by cases ran)

/-- Then a profile and an entry are read beyond the end, too. -/
theorem unpack_memory {data : List Byte} (beyond : data.length ≤ (data.headD 0).toNat) :
    unpack_basis data = .error .memory ∧ unpack_state data = .error .memory := by
  cases data with
  | nil => exact ⟨rfl, rfl⟩
  | cons len rest =>
      have lost := unpack_str_memory.mpr beyond
      have count : ¬decide (len = 0) = true := by
        rw [decide_eq_true_eq]
        rintro rfl
        exact absurd beyond (Nat.not_succ_le_zero _)
      constructor
      · change (if decide (len = 0) = true then pure none else unpackProfile) (len :: rest) = _
        rw [if_neg count]
        change (unpack_str (len :: rest)).bind _ = _
        rw [lost]
        rfl
      · change (if decide (len = 0) = true then pure none else unpackEntry) (len :: rest) = _
        rw [if_neg count]
        change (unpack_str (len :: rest)).bind _ = _
        rw [lost]
        rfl

end Room

/-! ## What holds of the messages -/

/-- An entry is never read back from just the bytes that were written of it.  A profile is,
exactly if it fits.  What is written stays within the data exactly up to a size, and a string is
read beyond the end of the data exactly if its count says so. -/
theorem packing_rules (s u : State) (b : Basis) (rest data : List Byte) :
    (pack_state s).map (fun bytes => unpack_state (bytes ++ rest)) ≠ some (.ok (some u, rest)) ∧
    ((∀ rest, unpack_basis (pack_basis b ++ rest) = .ok (some b, rest)) ↔ Fits b) ∧
    ((pack_basis b).length ≤ dataSize ↔ basisSize b ≤ 504) ∧
    ((∀ bytes ∈ pack_state s, bytes.length ≤ dataSize) ↔
      (0 ∈ s.gid → s.name.1.length + 4 * groupCount s.gid + 26 ≤ 504)) ∧
    (unpack_str data = .error .memory ↔ data.length ≤ (data.headD 0).toNat) ∧
    (data.length ≤ (data.headD 0).toNat →
      unpack_basis data = .error .memory ∧ unpack_state data = .error .memory) := by
  refine ⟨fun returned => ?_, ⟨fun returns => ?_, unpack_basis_pack_basis⟩,
    by rw [pack_basis_length]; rfl, ?_, unpack_str_memory, unpack_memory⟩
  · obtain ⟨bytes, packed, ran⟩ := Option.map_eq_some_iff.mp returned
    exact unpack_state_pack_state packed ran
  · have alone := returns []
    rw [List.append_nil] at alone
    exact fits_of_returns alone
  · have written (bytes : List Byte) (packed : pack_state s = some bytes) :
        bytes.length = s.name.1.length + 4 * groupCount s.gid + 26 :=
      (pack_state_length packed).choose_spec.2
    constructor
    · intro inside zero
      obtain ⟨groups, grouped⟩ := Option.isSome_iff_exists.mp (packGroups_isSome.mpr zero)
      have packed : pack_state s = some _ := Option.bind_eq_some_iff.mpr ⟨groups, grouped, rfl⟩
      exact (written _ packed).ge.trans (inside _ packed)
    · intro room bytes packed
      obtain ⟨groups, grouped, -⟩ := Option.bind_eq_some_iff.mp packed
      rw [written bytes packed]
      exact room (packGroups_isSome.mp (Option.isSome_of_mem grouped))

/-- The entry of a server whose one group is 10. -/
def oneGroup : State := ⟨⟨[97], by decide⟩, 1, 77, 0, 1, 5, 100, [10, -1, 0]⟩

/-- A name of one letter and a datagram that promises more than it holds. -/
theorem packing_rules_short :
    Fits ⟨⟨[97], by decide⟩, [], [], [], [], [], 0⟩ ∧
      unpack_basis [5, 97] = .error .memory ∧ unpack_state [5, 97] = .error .memory :=
  ⟨(packing_rules oneGroup oneGroup _ [] []).2.1.mp fun rest => rfl,
    (packing_rules oneGroup oneGroup ⟨⟨[97], by decide⟩, [], [], [], [], [], 0⟩ [] [5, 97]).2.2.2.2.2
      (by decide)⟩

/-- The zero after the groups is written as one byte and read as four. -/
theorem packing_oneGroup :
    ¬∀ (s : State) (bytes : List Byte), pack_state s = some bytes →
      ∃ u, unpack_state bytes = .ok (some u, []) ∧ u.gid = s.gid.takeWhile (· ≠ 0) := by
  intro all
  obtain ⟨u, ran, -⟩ := all oneGroup _ rfl
  have lost : unpack_state (pack_state oneGroup).get! = .error .memory := rfl
  cases lost.symm.trans ran

end MachFormal.Nanny.Packing
