import MachFormal.Library.Text

/-!
# The release database

The strings of the database are shared and found by hashing.  Its records know their index
in their table, so a pointer is modelled by that index.
-/

namespace MachFormal.Sdm

open Library

abbrev Byte := BitVec 8

abbrev UShort := BitVec 16

/-- A string of the program: bytes up to a terminator. -/
structure CString where
  data : List Byte
  noNul : (0 : Byte) ∉ data

instance : DecidableEq CString := fun s t =>
  decidable_of_iff (s.data = t.data) ⟨by cases s; cases t; simp, congrArg CString.data⟩

/-- The string that starts somewhere in memory. -/
def CString.ofMemory (bytes : List Byte) : CString where
  data := bytes.takeWhile (· ≠ 0)
  noNul nul := by simpa using List.mem_takeWhile_imp nul

def CString.empty : CString := ⟨[], List.not_mem_nil⟩

/-! ## Records -/

structure StringRec where
  len : UShort
  ahash : Byte
  xhash : Byte
  data : CString

structure FileInfo where
  owner : Nat
  group : Nat
  mode : UShort
deriving DecidableEq

instance : Inhabited StringRec := ⟨⟨0, 0, 0, .empty⟩⟩
instance : Inhabited FileInfo := ⟨⟨0, 0, 0⟩⟩

/-! ## Strings -/

/-- `hashstring`: the sum and the exclusive or of the characters. -/
def hashstring (s : List Byte) : Byte × Byte := s.foldl (fun h c => (h.1 + c, h.2 ^^^ c)) (0, 0)

/-- `bcmp` says how much is left from the first difference on. -/
def bcmp : List Byte → List Byte → Nat
  | a :: s, b :: t => if a = b then bcmp s t else s.length + 1
  | _, _ => 0

/-- The loop of `prevstring`, with what the strings compare to: the place that is found, and the
string, if it is there. -/
def scanChain (cmp : Nat → Int) : List Nat → Nat → Nat × Option Nat
  | [], place => (place, none)
  | s :: rest, place =>
      if cmp s = 0 then (place, some s)
      else if 0 < cmp s then (place, none)
      else scanChain cmp rest (place + 1)

/-- `prevstring`: the last string of the chain is looked at first. -/
def prevstring (cmp : Nat → Int) (chain : List Nat) : Nat × Option Nat :=
  match chain.getLast? with
  | none => (0, none)
  | some last =>
      if cmp last = 0 then (chain.length - 1, some last)
      else if cmp last < 0 then (chain.length, none)
      else scanChain cmp chain.dropLast 0

end MachFormal.Sdm
