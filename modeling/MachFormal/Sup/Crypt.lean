import Mathlib.Data.BitVec
import Mathlib.Logic.Equiv.Basic
import Mathlib.Algebra.Group.Even
import Mathlib.Algebra.Group.Nat.Even

/-!
# The rotor cipher of the network routines

`netcrypt` turns a password into three rotors of 256 positions: a permutation `t1`
obtained by exchanging entries, its inverse `t2`, and a reflector `t3` that pairs the
positions off. `encode` is `decode`, so a block is recovered by ciphering it a second
time; that needs `t2` to invert `t1` and `t3` to be its own inverse, and both are
facts about the loops that fill the tables, for every password.
-/

namespace MachFormal.Sup

/-- A `char` of the machine: eight bits, kept modulo 256. -/
abbrev Byte := BitVec 8

/-- The number of positions of a rotor. -/
def ROTORSZ : Nat := 256

/-- Three rotors that can undo each other: the tables `t1`, `t2`, `t3` once filled. -/
structure Rotors where
  t1 : Byte → Byte
  t2 : Byte → Byte
  t3 : Byte → Byte
  t2_t1 : ∀ b, t2 (t1 b) = b
  t1_t2 : ∀ b, t1 (t2 b) = b
  t3_t3 : ∀ b, t3 (t3 b) = b

/-! ## Filling the tables -/

/-- The tables and the generator while the loop of `netcrypt` runs. -/
structure Wheels where
  seed : Int
  t1 : Byte → Byte
  t3 : Byte → Byte

/-- A `long` keeps 32 bits. -/
def long (value : Int) : Int := value.bmod (2 ^ 32)

/-- `strncpy (buf, source, size)` from a NUL-terminated string: byte `i` of the copy. -/
def strncpy (size : Nat) (source : List Byte) (i : Nat) : Byte :=
  ((source.takeWhile (· ≠ 0)).take size).getD i 0

/-- The first loop: `seed = seed*buf[i] + i`. -/
def keySeed (buf : Nat → Byte) : Int :=
  (List.range 13).foldl (fun seed i => long (seed * (buf i).toInt + i)) 123

/-- `while (t3[ic]!=0) ic = (ic+1) % k;` for at most `fuel` rounds. -/
def findFree (t3 : Byte → Byte) (k : Nat) : Nat → Nat → Nat
  | 0, ic => ic
  | fuel + 1, ic =>
      if t3 (BitVec.ofNat 8 ic) ≠ 0 then findFree t3 k fuel ((ic + 1) % k) else ic

/-- One round of the loop that fills `t1` and `t3`. -/
def wheelStep (buf : Nat → Byte) (w : Wheels) (i : Nat) : Wheels :=
  let seed := long (5 * w.seed + (buf (i % 13)).toInt)
  -- `random` is unsigned, so a negative remainder wraps
  let random := ((seed.tmod 65521) % 2 ^ 32).toNat
  let k := ROTORSZ - 1 - i
  let here := BitVec.ofNat 8 k
  let there := BitVec.ofNat 8 (random % 256 % (k + 1))
  let t1 := Function.update (Function.update w.t1 here (w.t1 there)) there (w.t1 here)
  if w.t3 here ≠ 0 then
    ⟨seed, t1, w.t3⟩
  else
    let ic := findFree w.t3 k k (random / 256 % 256 % k)
    ⟨seed, t1, Function.update (Function.update w.t3 here (BitVec.ofNat 8 ic))
      (BitVec.ofNat 8 ic) here⟩

/-- The tables before the first round. -/
def wheelStart (buf : Nat → Byte) : Wheels := ⟨keySeed buf, id, fun _ => 0⟩

/-- The first `rounds` rounds. -/
def wheels (buf : Nat → Byte) (rounds : Nat) : Wheels :=
  (List.range rounds).foldl (wheelStep buf) (wheelStart buf)

/-- `for(i=0;i<ROTORSZ;i++) t2[t1[i]&MASK] = i;` for the first `rounds` values of `i`. -/
def invert (t1 : Byte → Byte) (rounds : Nat) : Byte → Byte :=
  (List.range rounds).foldl
    (fun t2 i => Function.update t2 (t1 (BitVec.ofNat 8 i)) (BitVec.ofNat 8 i)) (fun _ => 0)

theorem wheels_succ (buf : Nat → Byte) (rounds : Nat) :
    wheels buf (rounds + 1) = wheelStep buf (wheels buf rounds) rounds := by
  simp only [wheels, List.range_succ, List.foldl_append, List.foldl_cons, List.foldl_nil]

theorem invert_succ (t1 : Byte → Byte) (rounds : Nat) :
    invert t1 (rounds + 1) =
      Function.update (invert t1 rounds) (t1 (BitVec.ofNat 8 rounds)) (BitVec.ofNat 8 rounds) := by
  simp only [invert, List.range_succ, List.foldl_append, List.foldl_cons, List.foldl_nil]

/-! ## The permutation -/

theorem exchange_eq (t : Byte → Byte) (a b : Byte) :
    Function.update (Function.update t a (t b)) b (t a) = t ∘ Equiv.swap a b := by
  funext c
  by_cases hb : c = b
  · subst hb
    simp
  · by_cases ha : c = a
    · subst ha
      simp [Function.update_of_ne hb]
    · simp [Function.update_of_ne hb, Function.update_of_ne ha, Equiv.swap_apply_of_ne_of_ne ha hb]

theorem wheelStep_t1 (buf : Nat → Byte) (w : Wheels) (i : Nat) :
    ∃ a b, (wheelStep buf w i).t1 = w.t1 ∘ Equiv.swap a b := by
  simp only [wheelStep]
  split
  · exact ⟨_, _, exchange_eq _ _ _⟩
  · exact ⟨_, _, exchange_eq _ _ _⟩

theorem wheels_t1_bijective (buf : Nat → Byte) (rounds : Nat) :
    Function.Bijective (wheels buf rounds).t1 := by
  induction rounds with
  | zero => exact Function.bijective_id
  | succ rounds ih =>
      obtain ⟨a, b, same⟩ := wheelStep_t1 buf (wheels buf rounds) rounds
      rw [wheels_succ, same]
      exact ih.comp (Equiv.swap a b).bijective

theorem invert_apply {t1 : Byte → Byte} (injective : Function.Injective t1) (rounds : Nat)
    (b : Byte) (passed : b.toNat < rounds) : invert t1 rounds (t1 b) = b := by
  induction rounds with
  | zero => exact absurd passed (Nat.not_lt_zero _)
  | succ rounds ih =>
      rw [invert_succ]
      by_cases last : b = BitVec.ofNat 8 rounds
      · rw [last, Function.update_self]
      · rw [Function.update_of_ne (fun same => last (injective same))]
        refine ih (Nat.lt_of_le_of_ne (Nat.le_of_lt_succ passed) ?_)
        intro same
        exact last (by rw [← same, BitVec.ofNat_toNat, BitVec.setWidth_eq])

/-! ## The reflector -/

/-- The positions below `k` that `t3` leaves open. -/
def openBelow (t3 : Byte → Byte) (k : Nat) : Nat :=
  (List.range k).countP (fun j => t3 (BitVec.ofNat 8 j) = 0)

theorem openBelow_succ (t3 : Byte → Byte) (k : Nat) :
    openBelow t3 (k + 1) = openBelow t3 k + if t3 (BitVec.ofNat 8 k) = 0 then 1 else 0 := by
  simp [openBelow, List.range_succ, List.countP_append, List.countP_cons]

/-- Before the round for `k = n - 1`: what lies at or above `n` is paired off, a paired
position below `n` has its partner above, and the open positions come in pairs. -/
structure Paired (t3 : Byte → Byte) (n : Nat) : Prop where
  above : ∀ b : Byte, n ≤ b.toNat → t3 (t3 b) = b
  below : ∀ b : Byte, b.toNat < n → t3 b ≠ 0 → n ≤ (t3 b).toNat ∧ t3 (t3 b) = b
  even : Even (openBelow t3 n)

/-- A search below `k`, where a position is open, goes on until it meets one. -/
theorem search_rule {t3 : Byte → Byte} {k j turns start : Nat} {motive : Nat → Nat → Prop}
    (small : start < k) (bound : j < k) (free : t3 (BitVec.ofNat 8 j) = 0) (enough : k ≤ turns)
    (stop : ∀ n ic, ic < k → t3 (BitVec.ofNat 8 ic) = 0 → motive (n + 1) ic)
    (turn : ∀ n ic, 0 < k → t3 (BitVec.ofNat 8 ic) ≠ 0 → motive n ((ic + 1) % k) →
      motive (n + 1) ic) : motive turns start := by
  -- the induction is on the turns, and the open position comes nearer
  have within : ∀ n ahead ic, ic < k → ahead < n →
      t3 (BitVec.ofNat 8 ((ic + ahead) % k)) = 0 → motive n ic := by
    intro n
    induction n with
    | zero => exact fun ahead ic _ reach => absurd reach (Nat.not_lt_zero _)
    | succ n ih =>
        intro ahead ic small reach free
        by_cases taken : t3 (BitVec.ofNat 8 ic) ≠ 0
        · cases ahead with
          | zero =>
              rw [Nat.add_zero, Nat.mod_eq_of_lt small] at free
              exact absurd free taken
          | succ ahead =>
              have positive : 0 < k := Nat.zero_lt_of_lt small
              refine turn n ic positive taken (ih ahead _ (Nat.mod_lt _ positive) (by omega) ?_)
              rwa [Nat.mod_add_mod, Nat.add_assoc, Nat.add_comm 1 ahead]
        · exact stop n ic small (not_not.mp taken)
  refine within turns ((j + (k - start)) % k) start small
    (Nat.lt_of_lt_of_le (Nat.mod_lt _ (Nat.zero_lt_of_lt small)) enough) ?_
  rwa [Nat.add_mod_mod, show start + (j + (k - start)) = j + k by omega, Nat.add_mod_right,
    Nat.mod_eq_of_lt bound]

/-- Started anywhere below `k`, the search ends on an open position if there is one. -/
theorem findFree_spec {t3 : Byte → Byte} {k j : Nat} (start : Nat) (small : start < k)
    (bound : j < k) (free : t3 (BitVec.ofNat 8 j) = 0) :
    findFree t3 k k start < k ∧ t3 (BitVec.ofNat 8 (findFree t3 k k start)) = 0 := by
  refine search_rule (motive := fun n ic =>
    findFree t3 k n ic < k ∧ t3 (BitVec.ofNat 8 (findFree t3 k n ic)) = 0)
    small bound free (Nat.le_refl k) ?_ ?_
  · intro n ic small here
    rw [findFree, if_neg (not_not.mpr here)]
    exact ⟨small, here⟩
  · intro n ic _ taken found
    rwa [findFree, if_pos taken]

theorem toNat_ofNat {k : Nat} (small : k < ROTORSZ) : (BitVec.ofNat 8 k).toNat = k := by
  rw [BitVec.toNat_ofNat]
  exact Nat.mod_eq_of_lt small

theorem exists_open {t3 : Byte → Byte} {k : Nat} (some_open : 0 < openBelow t3 k) :
    ∃ j < k, t3 (BitVec.ofNat 8 j) = 0 := by
  obtain ⟨j, member, free⟩ := List.countP_pos_iff.mp some_open
  exact ⟨j, List.mem_range.mp member, of_decide_eq_true free⟩

/-- Closing one open position below `k` leaves one open position less there. -/
theorem openBelow_update {t3 : Byte → Byte} {b value : Byte} (closed : value ≠ 0)
    (free : t3 b = 0) (k : Nat) (bound : k ≤ ROTORSZ) :
    openBelow (Function.update t3 b value) k + (if b.toNat < k then 1 else 0) =
      openBelow t3 k := by
  induction k with
  | zero => simp [openBelow]
  | succ k ih =>
      have small : k < ROTORSZ := bound
      have before := ih (Nat.le_of_lt small)
      rw [openBelow_succ, openBelow_succ, ← before]
      by_cases last : BitVec.ofNat 8 k = b
      · have number : b.toNat = k := by rw [← last, toNat_ofNat small]
        rw [last, Function.update_self, if_neg closed, if_pos free, number]
        simp
      · have other : b.toNat ≠ k := fun same =>
          last (by rw [← same, BitVec.ofNat_toNat, BitVec.setWidth_eq])
        rw [Function.update_of_ne last]
        by_cases lower : b.toNat < k
        · rw [if_pos lower, if_pos (Nat.lt_succ_of_lt lower)]
          omega
        · rw [if_neg lower, if_neg (show ¬b.toNat < k + 1 by omega)]
          omega

theorem openBelow_update_of_le {t3 : Byte → Byte} {b : Byte} (value : Byte) (k : Nat)
    (bound : k ≤ ROTORSZ) (high : k ≤ b.toNat) :
    openBelow (Function.update t3 b value) k = openBelow t3 k := by
  refine List.countP_congr (fun j member => ?_)
  have low := List.mem_range.mp member
  have other : BitVec.ofNat 8 j ≠ b := by
    intro same
    rw [← same, toNat_ofNat (Nat.lt_of_lt_of_le low bound)] at high
    exact Nat.not_le_of_lt low high
  rw [Function.update_of_ne other]

theorem Paired.skip {t3 : Byte → Byte} {k : Nat} (small : k < ROTORSZ)
    (paired : Paired t3 (k + 1)) (taken : t3 (BitVec.ofNat 8 k) ≠ 0) : Paired t3 k where
  above b high := by
    by_cases here : b = BitVec.ofNat 8 k
    · rw [here]
      exact (paired.below _ (by rw [toNat_ofNat small]; exact Nat.lt_succ_self k) taken).2
    · refine paired.above b (Nat.lt_of_le_of_ne high ?_)
      intro same
      exact here (by rw [same, BitVec.ofNat_toNat, BitVec.setWidth_eq])
  below b low mated := by
    obtain ⟨high, back⟩ := paired.below b (Nat.lt_succ_of_lt low) mated
    exact ⟨Nat.le_of_succ_le high, back⟩
  even := by
    have count := paired.even
    rw [openBelow_succ, if_neg taken, Nat.add_zero] at count
    exact count

theorem Paired.join {t3 : Byte → Byte} {k ic : Nat} (small : k < ROTORSZ)
    (paired : Paired t3 (k + 1)) (free : t3 (BitVec.ofNat 8 k) = 0) (lower : ic < k)
    (openIc : t3 (BitVec.ofNat 8 ic) = 0) :
    Paired (Function.update (Function.update t3 (BitVec.ofNat 8 k) (BitVec.ofNat 8 ic))
      (BitVec.ofNat 8 ic) (BitVec.ofNat 8 k)) k := by
  have kNat := toNat_ofNat small
  have icNat := toNat_ofNat (Nat.lt_trans lower small)
  have count : Even (openBelow t3 k + 1) := by
    have whole := paired.even
    rwa [openBelow_succ, if_pos free] at whole
  have distinct : BitVec.ofNat 8 k ≠ BitVec.ofNat 8 ic := by
    intro same
    rw [← kNat, ← icNat, same] at lower
    exact Nat.lt_irrefl _ lower
  generalize BitVec.ofNat 8 k = here at *
  generalize BitVec.ofNat 8 ic = there at *
  have hereNonzero : here ≠ 0 := by
    intro zero
    rw [zero] at kNat
    exact absurd (kNat.symm.le.trans' lower) (by simp)
  -- no position that is already paired has `here` or `there` as its partner
  have partner : ∀ b, t3 (t3 b) = b → b ≠ 0 → t3 b ≠ here ∧ t3 b ≠ there := by
    intro b back nonzero
    refine ⟨fun same => nonzero ?_, fun same => nonzero ?_⟩
    · rw [← back, same, free]
    · rw [← back, same, openIc]
  have keep : ∀ b, t3 (t3 b) = b → b ≠ 0 → b ≠ here → b ≠ there →
      Function.update (Function.update t3 here there) there here
        (Function.update (Function.update t3 here there) there here b) = b := by
    intro b back nonzero notHere notThere
    obtain ⟨awayHere, awayThere⟩ := partner b back nonzero
    rw [Function.update_of_ne notThere, Function.update_of_ne notHere,
      Function.update_of_ne awayThere, Function.update_of_ne awayHere, back]
  have atHere : Function.update (Function.update t3 here there) there here here = there := by
    rw [Function.update_of_ne distinct, Function.update_self]
  have atThere : Function.update (Function.update t3 here there) there here there = here :=
    Function.update_self ..
  refine ⟨?_, ?_, ?_⟩
  · intro b high
    by_cases isHere : b = here
    · rw [isHere, atHere, atThere]
    · have notThere : b ≠ there := by
        intro same
        rw [same, icNat] at high
        omega
      have higher : k + 1 ≤ b.toNat := by
        refine Nat.lt_of_le_of_ne high (fun same => isHere ?_)
        exact BitVec.eq_of_toNat_eq (by rw [kNat, same])
      refine keep b (paired.above b higher) ?_ isHere notThere
      intro zero
      rw [zero] at higher
      simp at higher
  · intro b low mated
    by_cases isThere : b = there
    · rw [isThere, atThere, atHere]
      exact ⟨kNat.ge, rfl⟩
    · have notHere : b ≠ here := by
        intro same
        rw [same, kNat] at low
        exact Nat.lt_irrefl _ low
      rw [Function.update_of_ne isThere, Function.update_of_ne notHere] at mated
      obtain ⟨high, back⟩ := paired.below b (Nat.lt_succ_of_lt low) mated
      have awayHere : t3 b ≠ here := by
        intro same
        rw [same, kNat] at high
        omega
      have awayThere : t3 b ≠ there := by
        intro same
        rw [same, icNat] at high
        omega
      rw [Function.update_of_ne isThere, Function.update_of_ne notHere,
        Function.update_of_ne awayThere, Function.update_of_ne awayHere]
      exact ⟨Nat.le_of_succ_le high, back⟩
  · have first := @openBelow_update_of_le t3 here there k (Nat.le_of_lt small) kNat.ge
    have second := @openBelow_update (Function.update t3 here there) there here hereNonzero
      (by rw [Function.update_of_ne distinct.symm, openIc]) k (Nat.le_of_lt small)
    rw [if_pos (by rw [icNat]; exact lower), first] at second
    rw [← second] at count
    exact (Nat.even_add.mp (show Even (_ + 2) from count)).mpr even_two

/-- Before the first round nothing is paired and all 256 positions are open. -/
theorem paired_start : Paired (fun _ => 0) ROTORSZ where
  above b high := absurd b.isLt (Nat.not_lt.mpr high)
  below _ _ mated := absurd rfl mated
  even := by
    have all : openBelow (fun _ => 0) ROTORSZ = ROTORSZ := by
      simp [openBelow]
    rw [all]
    exact ⟨128, rfl⟩

theorem Paired.exists_partner {t3 : Byte → Byte} {k : Nat} (paired : Paired t3 (k + 1))
    (free : t3 (BitVec.ofNat 8 k) = 0) : ∃ j < k, t3 (BitVec.ofNat 8 j) = 0 := by
  have count := paired.even
  rw [openBelow_succ, if_pos free] at count
  refine exists_open (Nat.pos_of_ne_zero fun none => ?_)
  rw [none] at count
  exact absurd count (by decide)

/-- One round keeps the pairing; in particular `k` is positive whenever `% k` is taken. -/
theorem paired_wheelStep (buf : Nat → Byte) (w : Wheels) {k : Nat} (small : k < ROTORSZ)
    (paired : Paired w.t3 (k + 1)) : Paired (wheelStep buf w (ROTORSZ - 1 - k)).t3 k := by
  have index : ROTORSZ - 1 - (ROTORSZ - 1 - k) = k := by
    have := small
    simp only [ROTORSZ] at *
    omega
  simp only [wheelStep, index]
  split
  · next taken => exact paired.skip small taken
  · next free =>
      obtain ⟨j, bound, openJ⟩ := paired.exists_partner (not_not.mp free)
      obtain ⟨lower, openIc⟩ := findFree_spec _ (Nat.mod_lt _ (Nat.zero_lt_of_lt bound)) bound openJ
      exact paired.join small (not_not.mp free) lower openIc

theorem paired_wheels (buf : Nat → Byte) (rounds : Nat) (bound : rounds ≤ ROTORSZ) :
    Paired (wheels buf rounds).t3 (ROTORSZ - rounds) := by
  induction rounds with
  | zero => exact paired_start
  | succ rounds ih =>
      have before := ih (Nat.le_of_succ_le bound)
      have left : ROTORSZ - rounds = ROTORSZ - (rounds + 1) + 1 := by omega
      rw [left] at before
      have after := paired_wheelStep buf _ (by omega) before
      rwa [show ROTORSZ - 1 - (ROTORSZ - (rounds + 1)) = rounds by omega, ← wheels_succ] at after

/-! ## The cipher -/

/-- The tables `netcrypt` builds from the thirteen bytes of `crypt`'s answer. -/
def rotors (buf : Nat → Byte) : Rotors where
  t1 := (wheels buf ROTORSZ).t1
  t2 := invert (wheels buf ROTORSZ).t1 ROTORSZ
  t3 := (wheels buf ROTORSZ).t3
  t2_t1 b := invert_apply (wheels_t1_bijective buf ROTORSZ).injective ROTORSZ b b.isLt
  t1_t2 b := by
    obtain ⟨c, rfl⟩ := (wheels_t1_bijective buf ROTORSZ).surjective b
    rw [invert_apply (wheels_t1_bijective buf ROTORSZ).injective ROTORSZ c c.isLt]
  t3_t3 b := (paired_wheels buf ROTORSZ (Nat.le_refl _)).above b (by simp)

/-- `netcrypt`: no password turns encryption off; a password of which eight bytes count
is first put through the library's `crypt`. -/
def netcrypt (crypt : List Byte → List Byte) : Option (List Byte) → Option Rotors
  | none => none
  | some pword =>
      let key := (List.range 8).map (strncpy 8 pword)
      some (rotors (strncpy 13 (crypt (key.takeWhile (· ≠ 0)))))

namespace Rotors

/-- One byte at rotor offsets `n1` and `n2`. -/
def turn (t : Rotors) (n1 n2 b : Byte) : Byte :=
  t.t2 (t.t3 (t.t1 (b + n1) + n2) - n2) - n1

/-- The loop of `decode`: `n1` advances with every byte, `n2` whenever `n1` wraps. -/
def decodeFrom (t : Rotors) : Byte → Byte → List Byte → List Byte
  | _, _, [] => []
  | n1, n2, b :: rest =>
      t.turn n1 n2 b :: t.decodeFrom (n1 + 1) (if n1 + 1 = 0 then n2 + 1 else n2) rest

/-- `decode`, which `encode` calls as it is; the rotors restart with every block. -/
def decode (t : Rotors) (block : List Byte) : List Byte := t.decodeFrom 0 0 block

theorem turn_turn (t : Rotors) (n1 n2 b : Byte) : t.turn n1 n2 (t.turn n1 n2 b) = b := by
  simp only [turn, BitVec.sub_add_cancel, t.t1_t2, t.t3_t3, BitVec.add_sub_cancel, t.t2_t1]

theorem decodeFrom_decodeFrom (t : Rotors) (block : List Byte) (n1 n2 : Byte) :
    t.decodeFrom n1 n2 (t.decodeFrom n1 n2 block) = block := by
  induction block generalizing n1 n2 with
  | nil => rfl
  | cons b rest ih =>
      simp only [decodeFrom, turn_turn, ih]

theorem decode_decode (t : Rotors) (block : List Byte) : t.decode (t.decode block) = block :=
  t.decodeFrom_decodeFrom block 0 0

theorem length_decodeFrom (t : Rotors) (block : List Byte) (n1 n2 : Byte) :
    (t.decodeFrom n1 n2 block).length = block.length := by
  induction block generalizing n1 n2 with
  | nil => rfl
  | cons b rest ih => simp only [decodeFrom, List.length_cons, ih]

@[simp]
theorem length_decode (t : Rotors) (block : List Byte) : (t.decode block).length = block.length :=
  t.length_decodeFrom block 0 0

end Rotors

end MachFormal.Sup
