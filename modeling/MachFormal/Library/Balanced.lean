import MachFormal.Library.SearchTree

/-!
# Insertion keeps a search tree balanced

The balance factor of a node is the height of its low side less that of its high side.
An insertion makes a tree higher by at most one, tells by how much, and leaves a root
that leans to one side when a tree that was not empty has grown: that is what rules out
the rotation of a side that does not lean.
-/

namespace MachFormal.Library.Avl

variable {κ α : Type}

def height : Avl κ α → Nat
  | nil => 0
  | node lo _ _ _ hi => max lo.height hi.height + 1

/-- Every factor tells the heights, and they differ by at most one. -/
def Balanced : Avl κ α → Prop
  | nil => True
  | node lo _ _ bf hi =>
      bf = (lo.height : Int) - hi.height ∧ -1 ≤ bf ∧ bf ≤ 1 ∧ lo.Balanced ∧ hi.Balanced

/-- What an insertion makes of a tree: `dh` is how much it has grown. -/
structure Grown (t t' : Avl κ α) (dh : Int) : Prop where
  balanced : t'.Balanced
  height_eq : (t'.height : Int) = t.height + dh
  grew : dh = 0 ∨ dh = 1
  leans : dh = 1 → 0 < t.height → t'.factor ≠ 0

theorem Grown.refl {t : Avl κ α} (balanced : t.Balanced) : Grown t t 0 :=
  ⟨balanced, by rw [Int.add_zero], .inl rfl, nofun⟩

theorem Balanced.factor_le {t : Avl κ α} (balanced : t.Balanced) :
    -1 ≤ t.factor ∧ t.factor ≤ 1 := by
  cases t with
  | nil => simp [factor]
  | node lo k a bf hi => exact ⟨balanced.2.1, balanced.2.2.1⟩

/-! ## The rotations -/

section Rotations

variable {lo hi : Avl κ α} (k : κ) (a : α)

theorem rotateLowLow_spec (low : lo.Balanced) (high : hi.Balanced) (leans : lo.factor = 1)
    (heavy : lo.height = hi.height + 2) :
    (rotateLowLow (node lo k a 2 hi)).Balanced ∧
      (rotateLowLow (node lo k a 2 hi)).height = hi.height + 2 ∧
      (rotateLowLow (node lo k a 2 hi)).factor = 0 := by
  cases lo with
  | nil => simp [height] at heavy
  | node ll lk la lb lh =>
      simp only [factor] at leans
      simp only [Balanced] at low
      simp only [height] at heavy
      simp only [rotateLowLow, Balanced, height, factor]
      refine ⟨⟨by omega, by omega, by omega, low.2.2.2.1, by omega, by omega, by omega,
        low.2.2.2.2, high⟩, by omega, trivial⟩

theorem rotateHighHigh_spec (low : lo.Balanced) (high : hi.Balanced) (leans : hi.factor = -1)
    (heavy : hi.height = lo.height + 2) :
    (rotateHighHigh (node lo k a (-2) hi)).Balanced ∧
      (rotateHighHigh (node lo k a (-2) hi)).height = lo.height + 2 ∧
      (rotateHighHigh (node lo k a (-2) hi)).factor = 0 := by
  cases hi with
  | nil => simp [height] at heavy
  | node hl hk ha hb hh =>
      simp only [factor] at leans
      simp only [Balanced] at high
      simp only [height] at heavy
      simp only [rotateHighHigh, Balanced, height, factor]
      refine ⟨⟨by omega, by omega, by omega, ⟨by omega, by omega, by omega, low,
        high.2.2.2.1⟩, high.2.2.2.2⟩, by omega, trivial⟩

theorem rotateLowHigh_spec (low : lo.Balanced) (high : hi.Balanced) (leans : lo.factor = -1)
    (heavy : lo.height = hi.height + 2) :
    (rotateLowHigh (node lo k a 2 hi)).Balanced ∧
      (rotateLowHigh (node lo k a 2 hi)).height = hi.height + 2 ∧
      (rotateLowHigh (node lo k a 2 hi)).factor = 0 := by
  cases lo with
  | nil => simp [height] at heavy
  | node ll lk la lb lh =>
      cases lh with
      | nil =>
          simp only [factor] at leans
          simp only [Balanced, height] at low
          omega
      | node ml mk ma mb mh =>
          simp only [factor] at leans
          simp only [Balanced, height] at low
          simp only [height] at heavy
          obtain ⟨lowFactor, -, -, lowLow, midFactor, midLow, midHigh, lowMid, highMid⟩ := low
          simp only [rotateLowHigh, Balanced, height, factor]
          refine ⟨⟨by omega, by omega, by omega,
            ⟨by split <;> omega, by split <;> omega, by split <;> omega, lowLow, lowMid⟩,
            by split <;> omega, by split <;> omega, by split <;> omega, highMid, high⟩,
            by omega, trivial⟩

theorem rotateHighLow_spec (low : lo.Balanced) (high : hi.Balanced) (leans : hi.factor = 1)
    (heavy : hi.height = lo.height + 2) :
    (rotateHighLow (node lo k a (-2) hi)).Balanced ∧
      (rotateHighLow (node lo k a (-2) hi)).height = lo.height + 2 ∧
      (rotateHighLow (node lo k a (-2) hi)).factor = 0 := by
  cases hi with
  | nil => simp [height] at heavy
  | node hl hk ha hb hh =>
      cases hl with
      | nil =>
          simp only [factor] at leans
          simp only [Balanced, height] at high
          omega
      | node ml mk ma mb mh =>
          simp only [factor] at leans
          simp only [Balanced, height] at high
          simp only [height] at heavy
          obtain ⟨highFactor, -, -, ⟨midFactor, midLow, midHigh, lowMid, highMid⟩, highHigh⟩ := high
          simp only [rotateHighLow, Balanced, height, factor]
          refine ⟨⟨by omega, by omega, by omega,
            ⟨by split <;> omega, by split <;> omega, by split <;> omega, low, lowMid⟩,
            by split <;> omega, by split <;> omega, by split <;> omega, highMid, highHigh⟩,
            by omega, trivial⟩

end Rotations

/-! ## A side that has grown -/

section Sides

variable {lo lo' hi hi' : Avl κ α} {bf d : Int} (k : κ) (a : α)

theorem balance_low (factor_eq : bf = (lo.height : Int) - hi.height) (lower : -1 ≤ bf)
    (upper : bf ≤ 1) (high : hi.Balanced) (low : Grown lo lo' d) :
    Grown (node lo k a bf hi) (balance (node lo' k a (bf + d) hi))
      (if (balance (node lo' k a (bf + d) hi)).factor = 0 then 0 else d) := by
  obtain ⟨balanced, height_eq, grew, leans⟩ := low
  by_cases small : bf + d < 2
  · -- no rotation: the node itself, with its new factor
    have same : balance (node lo' k a (bf + d) hi) = node lo' k a (bf + d) hi :=
      if_pos ⟨small, by omega⟩
    have growth : (if (balance (node lo' k a (bf + d) hi)).factor = 0 then 0 else d) =
        if bf + d = 0 then 0 else d := by
      rw [same]
      rfl
    rw [growth, same]
    refine ⟨⟨by omega, by omega, by omega, balanced, high⟩, ?_, ?_, ?_⟩
    · simp only [height]
      split <;> omega
    · split
      · exact .inl rfl
      · exact grew
    · intro grown _
      simp only [factor]
      intro zero
      rw [if_pos zero] at grown
      omega
  · have both : bf = 1 ∧ d = 1 := by omega
    obtain ⟨rfl, rfl⟩ := both
    have tall : lo'.height = hi.height + 2 := by omega
    have sided := leans rfl (by omega)
    have bounds := balanced.factor_le
    have due : balance (node lo' k a (1 + 1) hi) =
        if 0 < lo'.factor then rotateLowLow (node lo' k a 2 hi)
        else rotateLowHigh (node lo' k a 2 hi) := by
      rw [balance, if_neg (by omega), if_pos (by omega)]
      rfl
    have result : (balance (node lo' k a (1 + 1) hi)).Balanced ∧
        (balance (node lo' k a (1 + 1) hi)).height = hi.height + 2 ∧
        (balance (node lo' k a (1 + 1) hi)).factor = 0 := by
      rw [due]
      by_cases positive : 0 < lo'.factor
      · rw [if_pos positive]
        exact rotateLowLow_spec k a balanced high (by omega) tall
      · rw [if_neg positive]
        exact rotateLowHigh_spec k a balanced high (by omega) tall
    rw [if_pos result.2.2]
    refine ⟨result.1, ?_, .inl rfl, fun same => by cases same⟩
    rw [result.2.1]
    simp only [height]
    omega

theorem balance_high (factor_eq : bf = (lo.height : Int) - hi.height) (lower : -1 ≤ bf)
    (upper : bf ≤ 1) (low : lo.Balanced) (high : Grown hi hi' d) :
    Grown (node lo k a bf hi) (balance (node lo k a (bf - d) hi'))
      (if (balance (node lo k a (bf - d) hi')).factor = 0 then 0 else d) := by
  obtain ⟨balanced, height_eq, grew, leans⟩ := high
  by_cases small : -2 < bf - d
  · have same : balance (node lo k a (bf - d) hi') = node lo k a (bf - d) hi' :=
      if_pos ⟨by omega, small⟩
    have growth : (if (balance (node lo k a (bf - d) hi')).factor = 0 then 0 else d) =
        if bf - d = 0 then 0 else d := by
      rw [same]
      rfl
    rw [growth, same]
    refine ⟨⟨by omega, by omega, by omega, low, balanced⟩, ?_, ?_, ?_⟩
    · simp only [height]
      split <;> omega
    · split
      · exact .inl rfl
      · exact grew
    · intro grown _
      simp only [factor]
      intro zero
      rw [if_pos zero] at grown
      omega
  · have both : bf = -1 ∧ d = 1 := by omega
    obtain ⟨rfl, rfl⟩ := both
    have tall : hi'.height = lo.height + 2 := by omega
    have sided := leans rfl (by omega)
    have bounds := balanced.factor_le
    have due : balance (node lo k a (-1 - 1) hi') =
        if 0 < hi'.factor then rotateHighLow (node lo k a (-2) hi')
        else rotateHighHigh (node lo k a (-2) hi') := by
      rw [balance, if_neg (by omega), if_neg (by omega)]
      rfl
    have result : (balance (node lo k a (-1 - 1) hi')).Balanced ∧
        (balance (node lo k a (-1 - 1) hi')).height = lo.height + 2 ∧
        (balance (node lo k a (-1 - 1) hi')).factor = 0 := by
      rw [due]
      by_cases positive : 0 < hi'.factor
      · rw [if_pos positive]
        exact rotateHighLow_spec k a low balanced (by omega) tall
      · rw [if_neg positive]
        exact rotateHighHigh_spec k a low balanced (by omega) tall
    rw [if_pos result.2.2]
    refine ⟨result.1, ?_, .inl rfl, fun same => by cases same⟩
    rw [result.2.1]
    simp only [height]
    omega

end Sides

theorem Balanced.insert [LinearOrder κ] {t : Avl κ α} (balanced : t.Balanced) (p : κ) (a : α) :
    Grown t (t.insert p a).1 (t.insert p a).2 := by
  induction t with
  | nil =>
      refine ⟨⟨by simp [height], by decide, by decide, trivial, trivial⟩, ?_, .inr rfl, ?_⟩
      · simp [Avl.insert, height]
      · intro _ some
        exact absurd some (Nat.lt_irrefl 0)
  | node lo k b bf hi lowIh highIh =>
      obtain ⟨factor_eq, lower, upper, low, high⟩ := balanced
      rw [Avl.insert]
      split
      · exact Grown.refl ⟨factor_eq, lower, upper, low, high⟩
      · split
        · exact balance_low k b factor_eq lower upper high (lowIh low)
        · exact balance_high k b factor_eq lower upper low (highIh high)

end MachFormal.Library.Avl
