import MachFormal.Library.Lists

/-!
# Bitmaps stored in bytes

Bit `n` of a bitmap is bit `n % 8` of byte `n / 8`.  The scan for a clear bit
skips the bytes that are all ones and then counts up inside the first other
byte.
-/

namespace MachFormal.Library.Bitmap

/-- Bit `n`; bits behind the last byte are clear. -/
def isset (bytes : List (BitVec 8)) (n : Nat) : Bool :=
  (bytes.getD (n / 8) 0).getLsbD (n % 8)

def setbit (bytes : List (BitVec 8)) (n : Nat) : List (BitVec 8) :=
  bytes.set (n / 8) (bytes.getD (n / 8) 0 ||| BitVec.twoPow 8 (n % 8))

def clrbit (bytes : List (BitVec 8)) (n : Nat) : List (BitVec 8) :=
  bytes.set (n / 8) (bytes.getD (n / 8) 0 &&& ~~~ BitVec.twoPow 8 (n % 8))

/-- The number of low one bits of a byte. -/
def firstClear (byte : BitVec 8) : Nat :=
  (List.range 8).findIdx (fun i => !byte.getLsbD i)

/-- The first byte that is not all ones, from position `start`, and its first clear bit. -/
def scan : List (BitVec 8) → Nat → Option (Nat × Nat)
  | [], _ => none
  | byte :: rest, start =>
      if byte = BitVec.allOnes 8 then scan rest (start + 1) else some (start, firstClear byte)

variable {bytes : List (BitVec 8)} {n m : Nat}

@[simp] theorem length_setbit : (setbit bytes n).length = bytes.length :=
  List.length_set

@[simp] theorem length_clrbit : (clrbit bytes n).length = bytes.length :=
  List.length_set

theorem getD_set (h : n / 8 < bytes.length) (byte : BitVec 8) (i : Nat) :
    (bytes.set (n / 8) byte).getD i 0 = if i = n / 8 then byte else bytes.getD i 0 := by
  by_cases hi : i = n / 8
  · subst hi
    simp [List.getD_eq_getElem?_getD, h]
  · simp [List.getD_eq_getElem?_getD, List.getElem?_set_ne (Ne.symm hi), hi]

theorem eq_of_div_mod (hdiv : m / 8 = n / 8) (hmod : m % 8 = n % 8) : m = n := by
  omega

/-- Setting a bit changes that bit alone. -/
theorem isset_setbit (h : n / 8 < bytes.length) :
    isset (setbit bytes n) = Function.update (isset bytes) n true := by
  funext m
  have hlt : m % 8 < 8 := Nat.mod_lt m (by decide)
  rw [Function.update_apply]
  unfold isset setbit
  rw [getD_set h]
  by_cases hdiv : m / 8 = n / 8
  · rw [if_pos hdiv, hdiv, BitVec.getLsbD_or, BitVec.getLsbD_twoPow, Bool.or_comm]
    by_cases hmod : m % 8 = n % 8
    · simp [eq_of_div_mod hdiv hmod, Nat.mod_lt]
    · have hne : m ≠ n := fun heq => hmod (by rw [heq])
      simp [hne, Ne.symm hmod]
  · have hne : m ≠ n := fun heq => hdiv (by rw [heq])
    simp [hdiv, hne]

/-- Clearing a bit changes that bit alone. -/
theorem isset_clrbit (h : n / 8 < bytes.length) :
    isset (clrbit bytes n) = Function.update (isset bytes) n false := by
  funext m
  have hlt : m % 8 < 8 := Nat.mod_lt m (by decide)
  rw [Function.update_apply]
  unfold isset clrbit
  rw [getD_set h]
  by_cases hdiv : m / 8 = n / 8
  · rw [if_pos hdiv, hdiv, BitVec.getLsbD_and, BitVec.getLsbD_not, BitVec.getLsbD_twoPow,
      Bool.and_comm]
    by_cases hmod : m % 8 = n % 8
    · simp [eq_of_div_mod hdiv hmod, Nat.mod_lt]
    · have hne : m ≠ n := fun heq => hmod (by rw [heq])
      simp [hne, Ne.symm hmod, hlt]
  · have hne : m ≠ n := fun heq => hdiv (by rw [heq])
    simp [hdiv, hne]

/-- A byte that is not all ones has a clear bit, and `firstClear` finds the lowest. -/
theorem firstClear_spec {byte : BitVec 8} (hbyte : byte ≠ BitVec.allOnes 8) :
    firstClear byte < 8 ∧ byte.getLsbD (firstClear byte) = false ∧
      ∀ i < firstClear byte, byte.getLsbD i = true := by
  have hexists : ∃ i ∈ List.range 8, (!byte.getLsbD i) = true := by
    by_contra hnone
    refine hbyte (BitVec.eq_of_getLsbD_eq (fun i hi => ?_))
    have hset : byte.getLsbD i = true := by
      by_contra hclear
      exact hnone ⟨i, List.mem_range.mpr hi, by simpa using hclear⟩
    rw [hset, BitVec.getLsbD_allOnes]
    simp [hi]
  have hlt : firstClear byte < (List.range 8).length := List.findIdx_lt_length.mpr hexists
  refine ⟨by simpa using hlt, ?_, fun i hi => ?_⟩
  · have hfound : (!byte.getLsbD ((List.range 8)[firstClear byte])) = true :=
      List.findIdx_getElem (w := hlt)
    rw [List.getElem_range] at hfound
    simpa using hfound
  · have hbefore := List.not_of_lt_findIdx hi
    simpa using hbefore

/-- When some bit inside the bytes is clear, the scan finds the lowest clear bit. -/
theorem scan_spec (start : Nat) (hm : m / 8 < bytes.length) (hclear : isset bytes m = false) :
    ∃ bp i, scan bytes start = some (start + bp, i) ∧ i < 8 ∧ bp < bytes.length ∧
      isset bytes (bp * 8 + i) = false ∧ ∀ k < bp * 8 + i, isset bytes k = true := by
  induction bytes generalizing start m with
  | nil => exact absurd hm (Nat.not_lt_zero _)
  | cons byte rest ih =>
      by_cases hbyte : byte = BitVec.allOnes 8
      · have hones : ∀ i < 8, byte.getLsbD i = true := by
          rw [hbyte]
          decide
        have hlate : 8 ≤ m := by
          by_contra hlt
          have hbit := hones m (by omega)
          have hdiv : m / 8 = 0 := by omega
          have hmod : m % 8 = m := by omega
          simp only [isset, hdiv, hmod, List.getD_cons_zero] at hclear
          simp [hbit] at hclear
        have hshift : ∀ k, isset (byte :: rest) (k + 8) = isset rest k := by
          intro k
          have hdiv : (k + 8) / 8 = k / 8 + 1 := by omega
          have hmod : (k + 8) % 8 = k % 8 := by omega
          simp only [isset, hdiv, hmod, List.getD_cons_succ]
        obtain ⟨bp, i, hscan, hi, hbp, hfound, hbefore⟩ := ih (m := m - 8) (start + 1)
          (by simp only [List.length_cons] at hm; omega)
          (by rw [← hshift, Nat.sub_add_cancel hlate]; exact hclear)
        refine ⟨bp + 1, i, ?_, hi, by simpa using hbp, ?_, fun k hk => ?_⟩
        · simp only [scan, hbyte, if_true, hscan]
          rw [Nat.add_assoc, Nat.add_comm 1 bp]
        · have hindex : (bp + 1) * 8 + i = bp * 8 + i + 8 := by omega
          rw [hindex, hshift]
          exact hfound
        · by_cases hlow : k < 8
          · have hdiv : k / 8 = 0 := by omega
            have hmod : k % 8 = k := by omega
            simp only [isset, hdiv, hmod, List.getD_cons_zero]
            exact hones k hlow
          · have hk' : k = k - 8 + 8 := by omega
            rw [hk', hshift]
            exact hbefore (k - 8) (by omega)
      · obtain ⟨hlt, hfound, hbefore⟩ := firstClear_spec hbyte
        refine ⟨0, firstClear byte, ?_, hlt, by simp, ?_, fun k hk => ?_⟩
        · rw [scan, if_neg hbyte, Nat.add_zero]
        · have hdiv : (0 * 8 + firstClear byte) / 8 = 0 := by omega
          have hmod : (0 * 8 + firstClear byte) % 8 = firstClear byte := by omega
          simp only [isset, hdiv, hmod, List.getD_cons_zero]
          exact hfound
        · have hdiv : k / 8 = 0 := by omega
          have hmod : k % 8 = k := by omega
          simp only [isset, hdiv, hmod, List.getD_cons_zero]
          exact hbefore k (by omega)

end MachFormal.Library.Bitmap
