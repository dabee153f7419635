import Mathlib.Algebra.BigOperators.Group.Finset.Basic
import Mathlib.Data.BitVec
import Mathlib.Data.List.Basic
import Mathlib.Logic.Function.Basic

/-!
# Saved authentication

`authcover` keeps an authentication record in a file, which `code` has encoded with the token
of the user and a checksum behind it.  The checksum is stored behind the block, however, since
the block is only as long as the data; and a record is taken from a file without a look at how
much has been read.

The bytes are those from the beginning of the block on, also behind its end.  What `realloc`
is given stays where it is.
-/

namespace MachFormal.Sdm.Authcover

abbrev Byte := BitVec 8

abbrev Memory := Nat → Byte

def eio : Int := 5
def ERANGE : Int := 34
def ENOTCONN : Int := 57

/-! ## The code -/

/-- The variables of the loop of `code`, and the indexes that it has used. -/
structure Loop where
  clear : Memory
  k : Nat
  cksm : Byte
  used : List Nat

/-- One turn of the loop. -/
def turn (key : List Byte) (dodecode : Bool) (i : Nat) (s : Loop) : Loop :=
  let b := s.clear i ^^^ key.getD s.k 0
  { clear := Function.update s.clear i b
    k := if key.length ≤ s.k + 1 then 0 else s.k + 1
    cksm := s.cksm + if dodecode then b else s.clear i
    used := i :: s.used }

/-- The loop up to an index. -/
def loop (key : List Byte) (dodecode : Bool) (clear : Memory) : Nat → Loop
  | 0 => ⟨clear, 0, 0, []⟩
  | i + 1 => turn key dodecode i (loop key dodecode clear i)

/-- What `code` leaves and returns, with the size it has passed to `memAlloc` and the indexes of
the bytes that it has read or written. -/
structure Coded where
  clear : Memory
  clearlen : BitVec 32
  error : Int
  size : Nat
  used : List Nat

def code (clear : Memory) (clearlen : BitVec 32) (key : List Byte) (dodecode : Bool) : Coded :=
  if dodecode then
    let l := clearlen - 1
    let s := loop key true clear l.toNat
    { clear := s.clear
      clearlen := l
      error := if s.clear l.toNat ^^^ key.getD s.k 0 ≠ s.cksm then ENOTCONN else 0
      size := l.toNat
      used := l.toNat :: s.used }
  else
    let l := clearlen
    let s := loop key false clear l.toNat
    { clear := Function.update s.clear l.toNat (s.cksm ^^^ key.getD s.k 0)
      clearlen := l + 1
      error := 0
      size := l.toNat
      used := l.toNat :: s.used }

/-- The bytes of a block, with what is behind it. -/
def load (bytes : List Byte) (behind : Memory) : Memory := fun i => bytes.getD i (behind i)

/-- The first bytes of a block. -/
def bytes (clear : Memory) (n : Nat) : List Byte := (List.range n).map clear

/-- `SAVEFORMAT`, as it is stored. -/
def SAVEFORMAT : List Byte := [1, 0, 0, 0]

/-- `saveWrite`: what is written for a record, whose version comes before the rest. -/
def saveWrite (key : List Byte) (behind : Memory) (rest : List Byte) : List Byte :=
  let sa := SAVEFORMAT ++ rest
  let coded := code (load sa behind) (BitVec.ofNat 32 sa.length) key false
  bytes coded.clear coded.clearlen.toNat

/-- `saveRead`, with the size of a record: the error, and the record if it has been read. -/
def saveRead (key : List Byte) (behind : Memory) (sizeofSave : Nat) (file : List Byte) :
    Int × List Byte :=
  if file = [] then (eio, [])
  else
    let coded := code (load file behind) (BitVec.ofNat 32 file.length) key true
    if coded.error = 0 then
      let sa := bytes coded.clear sizeofSave
      if sa.take 4 = SAVEFORMAT then (0, sa) else (ERANGE, sa)
    else (coded.error, [])

/-! ## What is asked for -/

/-- The bytes that are used are in the block. -/
def Coded.Inside (coded : Coded) : Prop := ∀ i ∈ coded.used, i < coded.size

/-- Decoding inverts encoding. -/
def Inverse (key clear : List Byte) (behind : Memory) : Prop :=
  let encoded := code (load clear behind) (BitVec.ofNat 32 clear.length) key false
  let decoded := code encoded.clear encoded.clearlen key true
  decoded.error = 0 ∧ decoded.clearlen = BitVec.ofNat 32 clear.length ∧
    bytes decoded.clear clear.length = clear

/-- What is asked of `code` for some bytes, and of `saveRead` for a record that has been written
and for any file. -/
structure Protected (key clear rest file : List Byte) (behind : Memory) : Prop where
  inverse : Inverse key clear behind
  encoding : (code (load clear behind) (BitVec.ofNat 32 clear.length) key false).Inside
  decoding : (code (load clear behind) (BitVec.ofNat 32 clear.length) key true).Inside
  saved : saveRead key behind (SAVEFORMAT ++ rest).length (saveWrite key behind rest) =
    (0, SAVEFORMAT ++ rest)
  whole : (saveRead key behind (SAVEFORMAT ++ rest).length file).1 = 0 →
    (SAVEFORMAT ++ rest).length < file.length

theorem not_inside (clear : Memory) (clearlen : BitVec 32) (key : List Byte) (dodecode : Bool) :
    ¬ (code clear clearlen key dodecode).Inside := by
  intro inside
  cases dodecode with
  | true => exact Nat.lt_irrefl _ (inside (clearlen - 1).toNat List.mem_cons_self)
  | false => exact Nat.lt_irrefl _ (inside clearlen.toNat List.mem_cons_self)

/-- **Theorem.** What is asked of `code` holds for no bytes and no key. -/
theorem not_protected (key clear rest file : List Byte) (behind : Memory) :
    ¬ Protected key clear rest file behind := fun safe =>
  not_inside _ _ key false safe.encoding

theorem saveRead_short : (saveRead [0] (fun _ => 0) 100 [1, 0, 0, 0, 1]).1 = 0 := by decide

/-- Neither do the bytes stay in the block, nor does a record have to be complete. -/
theorem not_always_protected : ¬ ∀ key clear rest file behind, key ≠ [] →
    Protected key clear rest file behind := by
  intro claim
  have safe := claim [0] [] (List.replicate 96 0) [1, 0, 0, 0, 1] (fun _ => 0) (by decide)
  exact absurd (safe.whole saveRead_short) (by decide)

end MachFormal.Sdm.Authcover
