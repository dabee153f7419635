import Mathlib.Data.Nat.Digits.Defs
import Mathlib.Data.List.TakeWhile

/-!
# Numbers and lines of text

Numbers are printed in a base up to ten, and read back as far as digits go.  A file is read
line by line into a buffer, which a line may be too long for.
-/

namespace MachFormal.Library.Text

/-! ## Numbers -/

/-- The digits of a number, the first one first. -/
def numeral (base n : Nat) : List (BitVec 8) :=
  if n = 0 then [48] else (Nat.digits base n).reverse.map fun d => BitVec.ofNat 8 (48 + d)

def isDigit (base : Nat) (b : BitVec 8) : Bool := 48 ≤ b.toNat && b.toNat < 48 + base

/-- The value of some digits, in words of a size. -/
def value (w base : Nat) (digits : List (BitVec 8)) : BitVec w :=
  digits.foldl (fun n b => n * BitVec.ofNat w base + BitVec.ofNat w (b.toNat - 48)) 0

variable {w base n : Nat}

theorem value_append (front back : List (BitVec 8)) : value w base (front ++ back) =
    back.foldl (fun n b => n * BitVec.ofNat w base + BitVec.ofNat w (b.toNat - 48))
      (value w base front) := by
  rw [value, List.foldl_append, value]

theorem toNat_digit {d : Nat} (small : d < 10) : (BitVec.ofNat 8 (48 + d)).toNat = 48 + d := by
  rw [BitVec.toNat_ofNat]
  exact Nat.mod_eq_of_lt (by omega)

theorem isDigit_numeral (low : 2 ≤ base) (high : base ≤ 10) :
    ∀ b ∈ numeral base n, isDigit base b = true := by
  intro b member
  rw [numeral] at member
  split at member
  · rw [List.mem_singleton.mp member, isDigit]
    simp only [BitVec.reduceToNat, Nat.le_refl, decide_true, Bool.true_and, decide_eq_true_eq]
    omega
  · obtain ⟨d, inside, rfl⟩ := List.mem_map.mp member
    have small := Nat.digits_lt_base low (List.mem_reverse.mp inside)
    rw [isDigit, toNat_digit (by omega), Bool.and_eq_true, decide_eq_true_eq, decide_eq_true_eq]
    omega

theorem value_digits (high : base ≤ 10) (digits : List Nat) (small : ∀ d ∈ digits, d < base) :
    value w base (digits.reverse.map fun d => BitVec.ofNat 8 (48 + d)) =
      BitVec.ofNat w (Nat.ofDigits base digits) := by
  induction digits with
  | nil => rfl
  | cons d digits ih =>
      have here : d < base := small d List.mem_cons_self
      rw [List.reverse_cons, List.map_append, value_append,
        ih fun d' member => small d' (List.mem_cons_of_mem d member), List.map_singleton,
        List.foldl_cons, List.foldl_nil, toNat_digit (by omega), Nat.ofDigits_cons,
        Nat.add_sub_cancel_left, BitVec.add_comm, BitVec.mul_comm, ← BitVec.ofNat_mul,
        ← BitVec.ofNat_add]

/-- A number is read back as it was printed. -/
theorem value_numeral (low : 2 ≤ base) (high : base ≤ 10) :
    value w base (numeral base n) = BitVec.ofNat w n := by
  rw [numeral]
  split
  next zero =>
    rw [zero]
    simp [value]
  next =>
    rw [value_digits high _ fun d => Nat.digits_lt_base low, Nat.ofDigits_digits]

theorem numeral_ne_nil : numeral base n ≠ [] := by
  rw [numeral]
  split
  · exact List.cons_ne_nil _ _
  next positive => simpa using Nat.digits_ne_nil_iff_ne_zero.mpr positive

theorem takeWhile_numeral (low : 2 ≤ base) (high : base ≤ 10) :
    (numeral base n).takeWhile (isDigit base) = numeral base n :=
  List.takeWhile_eq_self_iff.mpr (isDigit_numeral low high)

/-! ## Lines -/

def newline : BitVec 8 := 10

/-- `fgets`, with room for this many characters: what is read and what is left. -/
def fgets : Nat → List (BitVec 8) → List (BitVec 8) × List (BitVec 8)
  | 0, text => ([], text)
  | _, [] => ([], [])
  | room + 1, c :: text =>
      if c = newline then ([c], text)
      else
        let line := fgets room text
        (c :: line.1, line.2)

/-- All lines, as a loop over `fgets` reads them; a text of some length has no more lines. -/
def readLines (room : Nat) : Nat → List (BitVec 8) → List (List (BitVec 8))
  | 0, _ => []
  | _, [] => []
  | fuel + 1, c :: text =>
      let line := fgets room (c :: text)
      line.1 :: readLines room fuel line.2

theorem fgets_line {room : Nat} {line : List (BitVec 8)} (rest : List (BitVec 8))
    (single : newline ∉ line) (fits : line.length < room) :
    fgets room (line ++ newline :: rest) = (line ++ [newline], rest) := by
  induction line generalizing room with
  | nil =>
      cases room with
      | zero => exact absurd fits (Nat.not_lt_zero _)
      | succ room => simp [fgets]
  | cons c line ih =>
      cases room with
      | zero => exact absurd fits (Nat.not_lt_zero _)
      | succ room =>
          have other : c ≠ newline := fun same => single (same ▸ List.mem_cons_self)
          rw [List.cons_append, fgets, if_neg other,
            ih (fun member => single (List.mem_cons_of_mem c member)) (by simpa using fits)]
          rfl

/-- Lines that fit are read as they were written. -/
theorem readLines_flatten {room : Nat} (lines : List (List (BitVec 8)))
    (fits : ∀ line ∈ lines, newline ∉ line ∧ line.length < room) (fuel : Nat)
    (enough : (lines.map fun line => line ++ [newline]).flatten.length ≤ fuel) :
    readLines room fuel (lines.map fun line => line ++ [newline]).flatten =
      lines.map fun line => line ++ [newline] := by
  induction lines generalizing fuel with
  | nil => cases fuel <;> rfl
  | cons line lines ih =>
      obtain ⟨single, short⟩ := fits line List.mem_cons_self
      rw [List.map_cons, List.flatten_cons, List.append_assoc, List.singleton_append] at enough ⊢
      have read := fgets_line (lines.map fun line => line ++ [newline]).flatten single short
      cases fuel with
      | zero => simp at enough
      | succ fuel =>
          have start : ∃ c text, line ++ newline ::
              (lines.map fun line => line ++ [newline]).flatten = c :: text := by
            cases line with
            | nil => exact ⟨_, _, rfl⟩
            | cons c line => exact ⟨_, _, rfl⟩
          obtain ⟨c, text, shape⟩ := start
          rw [shape] at read ⊢
          rw [readLines, read]
          refine congrArg (_ :: ·)
            (ih (fun line' member => fits line' (List.mem_cons_of_mem _ member)) fuel ?_)
          simp only [List.length_append, List.length_cons] at enough
          omega

end MachFormal.Library.Text
