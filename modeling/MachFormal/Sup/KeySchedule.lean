import MachFormal.Sup.Crypt

/-!
# The key schedule runs to its end

`netcrypt` divides by `k`, which falls to 0, and probes `t3` until it meets an entry
that is 0, where 0 is also a legal partner.  Here both may go wrong: a remainder by zero
is an error, and so is a search that is still going after a number of turns.  The even
number of open positions excludes the first and bounds the second.
-/

namespace MachFormal.Sup

/-- What can keep `netcrypt` from its end. -/
inductive Fault where
  | divisionByZero
  | stillProbing
  deriving DecidableEq, Repr

/-- `t1`, `t2` and `t3`, with whatever they hold. -/
structure Tables where
  t1 : Byte → Byte
  t2 : Byte → Byte
  t3 : Byte → Byte

/-- `x % k`. -/
def remainder (x k : Nat) : Except Fault Nat :=
  if k = 0 then .error .divisionByZero else .ok (x % k)

/-- `while (t3[ic]!=0) ic = (ic+1) % k;` for at most `turns` tests. -/
def probeOpen (t3 : Byte → Byte) (k : Nat) : Nat → Nat → Except Fault Nat
  | 0, _ => .error .stillProbing
  | turns + 1, ic =>
      if t3 (BitVec.ofNat 8 ic) ≠ 0 then do
        probeOpen t3 k turns (← remainder (ic + 1) k)
      else pure ic

/-- The body of the loop that fills `t1` and `t3`. -/
def scheduleStep (turns : Nat) (buf : Nat → Byte) (w : Wheels) (i : Nat) :
    Except Fault Wheels := do
  let seed := long (5 * w.seed + (buf (i % 13)).toInt)
  let random := ((seed.tmod 65521) % 2 ^ 32).toNat
  let k := ROTORSZ - 1 - i
  let here := BitVec.ofNat 8 k
  let there := BitVec.ofNat 8 (← remainder (random % 256) (k + 1))
  let t1 := Function.update (Function.update w.t1 here (w.t1 there)) there (w.t1 here)
  if w.t3 here ≠ 0 then
    pure ⟨seed, t1, w.t3⟩
  else do
    let ic ← probeOpen w.t3 k turns (← remainder (random / 256 % 256) k)
    pure ⟨seed, t1, Function.update (Function.update w.t3 here (BitVec.ofNat 8 ic))
      (BitVec.ofNat 8 ic) here⟩

/-- The tables from the thirteen characters in `buf`. -/
def schedule (turns : Nat) (buf : Nat → Byte) : Except Fault Tables := do
  let w ← (List.range ROTORSZ).foldlM (scheduleStep turns buf) (wheelStart buf)
  pure ⟨w.t1, invert w.t1 ROTORSZ, w.t3⟩

/-- `netcrypt` of a password. -/
def netcryptTables (turns : Nat) (crypt : List Byte → List Byte) (pword : List Byte) :
    Except Fault Tables :=
  let key := (List.range 8).map (strncpy 8 pword)
  schedule turns (strncpy 13 (crypt (key.takeWhile (· ≠ 0))))

namespace Tables

/-- The byte that `decode` puts out for `b`. -/
def turn (t : Tables) (n1 n2 b : Byte) : Byte :=
  t.t2 (t.t3 (t.t1 (b + n1) + n2) - n2) - n1

/-- The loop of `decode`, `count` bytes from the end; the input may be longer. -/
def decodeLoop (t : Tables) : Nat → Byte → Byte → List Byte → List Byte
  | 0, _, _, _ => []
  | _ + 1, _, _, [] => []
  | count + 1, n1, n2, b :: rest =>
      t.turn n1 n2 b :: t.decodeLoop count (n1 + 1) (if n1 + 1 = 0 then n2 + 1 else n2) rest

/-- `decode`: the bytes it puts out for the first `count` bytes of its input. -/
def decode (t : Tables) (count : Nat) (input : List Byte) : List Byte :=
  t.decodeLoop count 0 0 input

/-- `encode` calls `decode`. -/
def encode (t : Tables) (count : Nat) (input : List Byte) : List Byte := t.decode count input

end Tables

def Rotors.tables (r : Rotors) : Tables := ⟨r.t1, r.t2, r.t3⟩

/-! ## The search -/

theorem remainder_of_pos {x k : Nat} (positive : 0 < k) : remainder x k = .ok (x % k) :=
  if_neg (Nat.ne_of_gt positive)

/-- Where a position is open, the search ends where `findFree` does. -/
theorem probeOpen_spec {t3 : Byte → Byte} {k j turns : Nat} (start : Nat) (small : start < k)
    (bound : j < k) (free : t3 (BitVec.ofNat 8 j) = 0) (enough : k ≤ turns) :
    probeOpen t3 k turns start = .ok (findFree t3 k k start) := by
  have same : ∀ more, k ≤ more → findFree t3 k more start = findFree t3 k k start := by
    refine search_rule (motive := fun n ic =>
      ∀ more, n ≤ more → findFree t3 k more ic = findFree t3 k n ic)
      small bound free (Nat.le_refl k) ?_ ?_
    · intro n ic _ here more late
      obtain ⟨more, rfl⟩ := Nat.exists_eq_add_of_le' (Nat.le_of_add_left_le late)
      rw [findFree, findFree, if_neg (not_not.mpr here), if_neg (not_not.mpr here)]
    · intro n ic _ taken found more late
      obtain ⟨more, rfl⟩ := Nat.exists_eq_add_of_le' (Nat.le_of_add_left_le late)
      rw [findFree, findFree, if_pos taken, if_pos taken]
      exact found more (Nat.le_of_succ_le_succ late)
  rw [← same turns enough]
  refine search_rule (motive := fun n ic => probeOpen t3 k n ic = .ok (findFree t3 k n ic))
    small bound free enough ?_ ?_
  · intro n ic _ here
    rw [probeOpen, findFree, if_neg (not_not.mpr here), if_neg (not_not.mpr here)]
    rfl
  · intro n ic positive taken found
    rw [probeOpen, findFree, if_pos taken, if_pos taken, remainder_of_pos positive]
    exact found

/-! ## The rounds -/

theorem scheduleStep_eq {turns : Nat} (enough : ROTORSZ ≤ turns) (buf : Nat → Byte) (w : Wheels)
    {i : Nat} (early : i < ROTORSZ) (paired : Paired w.t3 (ROTORSZ - i)) :
    scheduleStep turns buf w i = .ok (wheelStep buf w i) := by
  have left : ROTORSZ - i = (ROTORSZ - 1 - i) + 1 := by omega
  rw [left] at paired
  simp only [scheduleStep, wheelStep, remainder_of_pos (Nat.succ_pos _)]
  by_cases taken : w.t3 (BitVec.ofNat 8 (ROTORSZ - 1 - i)) ≠ 0
  · rw [if_pos taken]
    simp only [bind, Except.bind, pure, Except.pure, if_pos taken]
  · obtain ⟨j, bound, openJ⟩ := paired.exists_partner (not_not.mp taken)
    have positive : 0 < ROTORSZ - 1 - i := Nat.zero_lt_of_lt bound
    simp only [bind, Except.bind, pure, Except.pure, if_neg taken, remainder_of_pos positive,
      probeOpen_spec _ (Nat.mod_lt _ positive) bound openJ
        (show ROTORSZ - 1 - i ≤ turns by omega)]

theorem schedule_rounds {turns : Nat} (enough : ROTORSZ ≤ turns) (buf : Nat → Byte)
    (rounds : Nat) (bound : rounds ≤ ROTORSZ) :
    (List.range rounds).foldlM (scheduleStep turns buf) (wheelStart buf) =
      .ok (wheels buf rounds) := by
  induction rounds with
  | zero => rfl
  | succ rounds ih =>
      rw [List.range_succ, List.foldlM_append, ih (Nat.le_of_succ_le bound)]
      have step := scheduleStep_eq enough buf (wheels buf rounds) bound
        (paired_wheels buf rounds (Nat.le_of_succ_le bound))
      simp only [bind, Except.bind, List.foldlM_cons, List.foldlM_nil, step, pure, Except.pure,
        wheels_succ]

theorem schedule_eq {turns : Nat} (enough : ROTORSZ ≤ turns) (buf : Nat → Byte) :
    schedule turns buf = .ok (rotors buf).tables := by
  rw [schedule, schedule_rounds enough buf ROTORSZ (Nat.le_refl _)]
  simp only [bind, Except.bind, pure, Except.pure, rotors, Rotors.tables]

/-! ## No position is its own partner -/

theorem unpaired_wheelStep (buf : Nat → Byte) (w : Wheels) {k : Nat} (small : k < ROTORSZ)
    (paired : Paired w.t3 (k + 1)) (apart : ∀ b : Byte, k + 1 ≤ b.toNat → w.t3 b ≠ b) :
    ∀ b : Byte, k ≤ b.toNat → (wheelStep buf w (ROTORSZ - 1 - k)).t3 b ≠ b := by
  intro b high
  have index : ROTORSZ - 1 - (ROTORSZ - 1 - k) = k := by
    have := small
    simp only [ROTORSZ] at *
    omega
  have kNat := toNat_ofNat small
  simp only [wheelStep, index]
  split
  · next taken =>
      by_cases here : b = BitVec.ofNat 8 k
      · subst here
        obtain ⟨higher, -⟩ := paired.below _ (by rw [kNat]; exact Nat.lt_succ_self k) taken
        intro same
        rw [same, kNat] at higher
        exact Nat.not_succ_le_self k higher
      · refine apart b (Nat.lt_of_le_of_ne high fun same => here ?_)
        exact BitVec.eq_of_toNat_eq (by rw [kNat, same])
  · next free =>
      obtain ⟨j, bound, openJ⟩ := paired.exists_partner (not_not.mp free)
      obtain ⟨lower, -⟩ := findFree_spec _ (Nat.mod_lt _ (Nat.zero_lt_of_lt bound)) bound openJ
      generalize findFree w.t3 k k _ = ic at lower
      have icNat := toNat_ofNat (Nat.lt_trans lower small)
      have notIc : b ≠ BitVec.ofNat 8 ic := by
        intro same
        rw [same, icNat] at high
        exact Nat.not_le_of_lt lower high
      dsimp only
      rw [Function.update_of_ne notIc]
      by_cases here : b = BitVec.ofNat 8 k
      · rw [here, Function.update_self, ← here]
        exact fun same => notIc same.symm
      · rw [Function.update_of_ne here]
        refine apart b (Nat.lt_of_le_of_ne high fun same => here ?_)
        exact BitVec.eq_of_toNat_eq (by rw [kNat, same])

theorem unpaired_wheels (buf : Nat → Byte) (rounds : Nat) (bound : rounds ≤ ROTORSZ) :
    ∀ b : Byte, ROTORSZ - rounds ≤ b.toNat → (wheels buf rounds).t3 b ≠ b := by
  induction rounds with
  | zero => exact fun b high => absurd b.isLt (Nat.not_lt.mpr high)
  | succ rounds ih =>
      have paired := paired_wheels buf rounds (Nat.le_of_succ_le bound)
      have before := ih (Nat.le_of_succ_le bound)
      rw [show ROTORSZ - rounds = ROTORSZ - (rounds + 1) + 1 by omega] at paired before
      have after := unpaired_wheelStep buf _ (by omega) paired before
      rwa [show ROTORSZ - 1 - (ROTORSZ - (rounds + 1)) = rounds by omega, ← wheels_succ] at after

theorem rotors_apart (buf : Nat → Byte) (b : Byte) : (rotors buf).t3 b ≠ b := by
  have apart := unpaired_wheels buf ROTORSZ (Nat.le_refl _) b (by simp)
  simpa only [rotors] using apart

/-! ## The cipher undoes itself -/

theorem decodeLoop_eq (r : Rotors) (block : List Byte) (n1 n2 : Byte) :
    r.tables.decodeLoop block.length n1 n2 block = r.decodeFrom n1 n2 block := by
  induction block generalizing n1 n2 with
  | nil => rfl
  | cons b rest ih =>
      rw [List.length_cons, Tables.decodeLoop, Rotors.decodeFrom, ih]
      rfl

/-- What `netcrypt` promises of the tables it has filled. -/
structure Tables.Cipher (t : Tables) : Prop where
  permutes : Function.Bijective t.t1
  inverts : ∀ b, t.t2 (t.t1 b) = b ∧ t.t1 (t.t2 b) = b
  reflects : Function.Bijective t.t3
  apart : ∀ b, t.t3 b ≠ b
  back : ∀ b, t.t3 (t.t3 b) = b
  decodes : ∀ s : List Byte, t.decode s.length (t.encode s.length s) = s

theorem Rotors.cipher (r : Rotors) (apart : ∀ b, r.t3 b ≠ b) : r.tables.Cipher where
  permutes := ⟨fun a b same => by rw [← r.t2_t1 a, ← r.t2_t1 b]; exact congrArg r.t2 same,
    fun b => ⟨r.t2 b, r.t1_t2 b⟩⟩
  inverts b := ⟨r.t2_t1 b, r.t1_t2 b⟩
  reflects := Function.Involutive.bijective r.t3_t3
  apart := apart
  back := r.t3_t3
  decodes s := by
    have coded : r.tables.encode s.length s = r.decodeFrom 0 0 s := decodeLoop_eq r s 0 0
    have again := decodeLoop_eq r (r.decodeFrom 0 0 s) 0 0
    rw [Rotors.length_decodeFrom, r.decodeFrom_decodeFrom] at again
    rw [coded]
    exact again

/-- For every password and every answer of `crypt`, the schedule ends, divides by no
zero, and leaves tables under which deciphering undoes enciphering. -/
theorem netcrypt_ciphers (crypt : List Byte → List Byte) (pword : List Byte) {turns : Nat}
    (enough : ROTORSZ ≤ turns) :
    ∃ t, netcryptTables turns crypt pword = .ok t ∧ t.Cipher :=
  ⟨_, schedule_eq enough _, (rotors _).cipher (rotors_apart _)⟩

theorem netcrypt_ciphers_emptyPassword :
    ∃ t, netcryptTables ROTORSZ (fun _ => [46, 46]) [] = .ok t ∧ t.Cipher :=
  netcrypt_ciphers (fun _ => [46, 46]) [] (Nat.le_refl _)

end MachFormal.Sup
