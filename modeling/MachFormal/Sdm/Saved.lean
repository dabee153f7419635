import MachFormal.Sdm.Authcover

/-!
# What is saved is read again

The block of a file is a byte longer than its record, and `code` gives the byte back.  The
`realloc` of the library then leaves the block where it is, unless a smaller one would do; but
the caller of `code` is not told where a block has gone.
-/

namespace MachFormal.Sdm.Authcover

/-! ## The blocks of the library -/

/-- What a block holds besides its `overhead`, as `realloc` has it. -/
def onb (pagesz i : Nat) : Nat :=
  if 2 ^ (i + 3) < pagesz then 2 ^ (i + 3) - 4 else 2 ^ (i + 3) + pagesz - 4

/-- The loops of `malloc`, where `amt` is `2 ^ (bucket + 3)`. -/
def seek (room : Nat → Nat) (nbytes : Nat) : Nat → Nat → Nat
  | 0, bucket => bucket
  | fuel + 1, bucket => if room bucket < nbytes then seek room nbytes fuel (bucket + 1) else bucket

def pagebucket (pagesz : Nat) : Nat := seek (fun i => 2 ^ (i + 3)) pagesz 30 0

/-- The bucket that `malloc` takes a block from. -/
def bucketOf (pagesz nbytes : Nat) : Nat :=
  if nbytes ≤ pagesz - 4 then seek (fun i => 2 ^ (i + 3) - 4) nbytes 30 0
  else seek (fun i => 2 ^ (i + 3) + pagesz - 4) nbytes 30 (pagebucket pagesz)

/-- A block for `held` bytes is what `realloc` returns for `nbytes`. -/
def stays (pagesz held nbytes : Nat) : Bool :=
  let i := bucketOf pagesz held
  nbytes ≤ onb pagesz i && (if i = 0 then 0 else onb pagesz (i - 1)) < nbytes

/-- `saveWrite`; if the block has moved, what is written has not been encoded. -/
def saveWriteIn (pagesz : Nat) (key : List Byte) (behind : Memory) (rest : List Byte) : List Byte :=
  let sa := SAVEFORMAT ++ rest
  if stays pagesz sa.length sa.length then saveWrite key behind rest
  else bytes (load sa behind) (sa.length + 1)

/-- `saveRead`; if the block has moved, what is decoded is a copy, with other bytes behind. -/
def saveReadIn (pagesz : Nat) (key : List Byte) (behind moved : Memory) (sizeofSave : Nat)
    (file : List Byte) : Int × List Byte :=
  if file = [] ∨ stays pagesz file.length (file.length - 1) then saveRead key behind sizeofSave file
  else
    let coded := code (load file.dropLast moved) (BitVec.ofNat 32 file.length) key true
    if coded.error = 0 then
      let sa := bytes (load file behind) sizeofSave
      if sa.take 4 = SAVEFORMAT then (0, sa) else (ERANGE, sa)
    else (coded.error, [])

section Blocks

variable {room : Nat → Nat} {pagesz nbytes fuel start : Nat}

/-- The first bucket with room. -/
theorem seek_spec (enough : nbytes ≤ room (start + fuel)) :
    start ≤ seek room nbytes fuel start ∧ nbytes ≤ room (seek room nbytes fuel start) ∧
      (seek room nbytes fuel start = start ∨
        room (seek room nbytes fuel start - 1) < nbytes) := by
  induction fuel generalizing start with
  | zero => exact ⟨Nat.le_refl _, enough, Or.inl rfl⟩
  | succ fuel ih =>
      rw [seek]
      split
      · next small =>
          obtain ⟨late, fits, least⟩ := @ih (start + 1) (by rwa [Nat.add_right_comm])
          refine ⟨by omega, fits, Or.inr ?_⟩
          rcases least with same | least
          · rw [same]
            exact small
          · exact least
      · next large => exact ⟨Nat.le_refl _, Nat.le_of_not_lt large, Or.inl rfl⟩

/-- The bucket of a block is the first that has room for it. -/
theorem bucketOf_spec (page : 4 ≤ pagesz ∧ pagesz ≤ 2 ^ 30) (small : nbytes ≤ 2 ^ 30) :
    nbytes ≤ onb pagesz (bucketOf pagesz nbytes) ∧ (bucketOf pagesz nbytes = 0 ∨
      onb pagesz (bucketOf pagesz nbytes - 1) < nbytes) := by
  unfold bucketOf
  split
  · next below =>
      obtain ⟨-, fits, least⟩ := @seek_spec (fun i => 2 ^ (i + 3) - 4) nbytes 30 0 (by omega)
      generalize seek _ nbytes 30 0 = b at fits least
      refine ⟨?_, least.imp_right fun least => ?_⟩
      · rw [onb]
        split <;> omega
      · rwa [onb, if_pos (by omega)]
  · next beyond =>
      obtain ⟨-, page', least'⟩ : _ ∧ pagesz ≤ 2 ^ (pagebucket pagesz + 3) ∧
          (pagebucket pagesz = 0 ∨ 2 ^ (pagebucket pagesz - 1 + 3) < pagesz) :=
        @seek_spec (fun i => 2 ^ (i + 3)) pagesz 30 0 (by omega)
      have large : 2 ^ 30 ≤ 2 ^ (pagebucket pagesz + 30 + 3) :=
        Nat.pow_le_pow_right (by decide) (by omega)
      obtain ⟨late, fits, least⟩ :=
        @seek_spec (fun i => 2 ^ (i + 3) + pagesz - 4) nbytes 30 (pagebucket pagesz) (by omega)
      generalize seek _ nbytes 30 _ = b at late fits least
      have more : 2 ^ (pagebucket pagesz + 3) ≤ 2 ^ (b + 3) :=
        Nat.pow_le_pow_right (by decide) (by omega)
      refine ⟨?_, ?_⟩
      · rw [onb, if_neg (by omega)]
        exact fits
      · rcases least with rfl | least
        · rcases least' with none | least'
          · exact Or.inl none
          · right
            rw [onb, if_pos least']
            omega
        · right
          rw [onb]
          split <;> omega

theorem stays_self (page : 4 ≤ pagesz ∧ pagesz ≤ 2 ^ 30) (small : nbytes ≤ 2 ^ 30)
    (some : 0 < nbytes) : stays pagesz nbytes nbytes = true := by
  obtain ⟨fits, least⟩ := bucketOf_spec page small
  rw [stays, Bool.and_eq_true, decide_eq_true_iff, decide_eq_true_iff]
  refine ⟨fits, ?_⟩
  split
  · exact some
  · next other => exact least.resolve_left other

/-- A record that fills a block moves. -/
example : stays 4096 13 12 = false ∧ stays 4096 12 11 = true := by decide

end Blocks

section Coding

variable {key : List Byte} {clear : Memory} {dodecode : Bool} {n : Nat}

theorem loop_k (filled : key ≠ []) : (loop key dodecode clear n).k = n % key.length := by
  have positive := List.length_pos_iff.mpr filled
  induction n with
  | zero => exact (Nat.zero_mod _).symm
  | succ n ih =>
      have below := Nat.mod_lt n positive
      rw [loop, turn, ih]
      dsimp only
      split
      · next last =>
          rw [← Nat.mod_add_mod, show n % key.length + 1 = key.length by omega, Nat.mod_self]
      · next more =>
          rw [← Nat.mod_add_mod, Nat.mod_eq_of_lt (by omega : n % key.length + 1 < key.length)]

theorem loop_clear (filled : key ≠ []) (j : Nat) : (loop key dodecode clear n).clear j =
    if j < n then clear j ^^^ key.getD (j % key.length) 0 else clear j := by
  induction n with
  | zero => rfl
  | succ n ih =>
      rw [loop, turn]
      dsimp only
      rcases Nat.lt_trichotomy j n with below | rfl | beyond
      · rw [Function.update_of_ne (Nat.ne_of_lt below), ih, if_pos below, if_pos (by omega)]
      · rw [Function.update_self, if_pos (Nat.lt_succ_self j), loop_k filled, ih,
          if_neg (Nat.lt_irrefl j)]
      · rw [Function.update_of_ne (Nat.ne_of_gt beyond), ih, if_neg (by omega), if_neg (by omega)]

theorem loop_cksm (filled : key ≠ []) : (loop key dodecode clear n).cksm =
    ((List.range n).map fun j =>
      if dodecode then clear j ^^^ key.getD (j % key.length) 0 else clear j).sum := by
  induction n with
  | zero => rfl
  | succ n ih =>
      have here : (loop key dodecode clear n).clear n = clear n := by
        rw [loop_clear filled, if_neg (Nat.lt_irrefl n)]
      rw [loop, turn]
      dsimp only
      rw [ih, here, loop_k filled, List.range_succ, List.map_append, List.sum_append]
      simp

theorem xor_cancel (a b : Byte) : a ^^^ b ^^^ b = a := by
  rw [BitVec.xor_assoc, BitVec.xor_self, BitVec.xor_zero]

/-- The sum of the bytes of a clear text. -/
def checksum (clear : Memory) (n : Nat) : Byte := ((List.range n).map clear).sum

theorem checksum_succ (clear : Memory) (n : Nat) :
    checksum clear (n + 1) = checksum clear n + clear n := by
  rw [checksum, List.range_succ, List.map_append, List.sum_append]
  simp [checksum]

theorem checksum_congr {clear' : Memory} (same : ∀ i < n, clear' i = clear i) :
    checksum clear' n = checksum clear n :=
  congrArg List.sum (List.map_congr_left fun i member => same i (List.mem_range.mp member))

theorem checksum_ne {clear' : Memory} {j : Nat} (below : j < n) (changed : clear' j ≠ clear j)
    (others : ∀ i, i ≠ j → clear' i = clear i) : checksum clear' n ≠ checksum clear n := by
  induction n with
  | zero => exact absurd below (Nat.not_lt_zero j)
  | succ n ih =>
      rw [checksum_succ, checksum_succ]
      rcases Nat.lt_succ_iff_lt_or_eq.mp below with earlier | rfl
      · rw [others n (Nat.ne_of_gt earlier)]
        exact fun same => ih earlier ((BitVec.add_left_inj _).mp same)
      · rw [checksum_congr fun i earlier => others i (Nat.ne_of_lt earlier)]
        exact fun same => changed ((BitVec.add_right_inj _).mp same)

theorem toNat_length (small : n < 2 ^ 32) : (BitVec.ofNat 32 n).toNat = n := by
  rw [BitVec.toNat_ofNat, Nat.mod_eq_of_lt small]

theorem encode_clear (filled : key ≠ []) (small : n < 2 ^ 32) (j : Nat) :
    (code clear (BitVec.ofNat 32 n) key false).clear j =
      if j < n then clear j ^^^ key.getD (j % key.length) 0
      else if j = n then checksum clear n ^^^ key.getD (n % key.length) 0 else clear j := by
  rw [code, if_neg Bool.false_ne_true]
  dsimp only
  rw [toNat_length small, loop_k filled, loop_cksm filled, Function.update_apply, loop_clear filled]
  rcases Nat.lt_trichotomy j n with below | rfl | beyond
  · rw [if_neg (Nat.ne_of_lt below), if_pos below, if_pos below]
  · rw [if_pos rfl, if_neg (Nat.lt_irrefl j), if_pos rfl]
    rfl
  · rw [if_neg (Nat.ne_of_gt beyond), if_neg (by omega), if_neg (by omega),
      if_neg (Nat.ne_of_gt beyond)]

/-- The byte behind a text is compared with the sum of what the text is decoded to. -/
theorem decode_error (filled : key ≠ []) (small : n < 2 ^ 32) (memory : Memory) :
    (code memory (BitVec.ofNat 32 n + 1) key true).error =
      if memory n ^^^ key.getD (n % key.length) 0 ≠
        checksum (fun j => memory j ^^^ key.getD (j % key.length) 0) n then ENOTCONN else 0 := by
  have length : BitVec.ofNat 32 n + 1 - 1 = BitVec.ofNat 32 n := BitVec.add_sub_cancel _ _
  rw [code, if_pos rfl]
  dsimp only
  rw [length, toNat_length small, loop_k filled, loop_cksm filled, loop_clear filled,
    if_neg (Nat.lt_irrefl n)]
  rfl

theorem decode_spec (filled : key ≠ []) (small : n < 2 ^ 32) {memory : Memory}
    (text : ∀ j < n, memory j = clear j ^^^ key.getD (j % key.length) 0)
    (last : memory n = checksum clear n ^^^ key.getD (n % key.length) 0) :
    (code memory (BitVec.ofNat 32 n + 1) key true).error = 0 ∧
      ∀ j < n, (code memory (BitVec.ofNat 32 n + 1) key true).clear j = clear j := by
  have decoded : ∀ j < n, memory j ^^^ key.getD (j % key.length) 0 = clear j := fun j below => by
    rw [text j below, xor_cancel]
  have length : BitVec.ofNat 32 n + 1 - 1 = BitVec.ofNat 32 n := BitVec.add_sub_cancel _ _
  rw [decode_error filled small, last, xor_cancel, checksum_congr decoded]
  refine ⟨if_neg (not_not.mpr rfl), fun j below => ?_⟩
  rw [code, if_pos rfl]
  dsimp only
  rw [length, toNat_length small, loop_clear filled, if_pos below, decoded j below]

theorem decode_changed (filled : key ≠ []) (small : n < 2 ^ 32) {memory memory' : Memory}
    (whole : (code memory (BitVec.ofNat 32 n + 1) key true).error = 0) {j : Nat} (inside : j ≤ n)
    (changed : memory' j ≠ memory j) (others : ∀ i, i ≠ j → memory' i = memory i) :
    (code memory' (BitVec.ofNat 32 n + 1) key true).error = ENOTCONN := by
  have differs : memory' j ^^^ key.getD (j % key.length) 0 ≠
      memory j ^^^ key.getD (j % key.length) 0 := fun same =>
    changed (by rw [← xor_cancel (memory' j), same, xor_cancel])
  rw [decode_error filled small] at whole ⊢
  have sum := of_not_not fun other => absurd ((if_pos other).symm.trans whole) (by decide)
  refine if_pos ?_
  rcases Nat.lt_or_eq_of_le inside with below | rfl
  · rw [others n (Nat.ne_of_gt below), sum]
    exact (checksum_ne below differs fun i other => by rw [others i other]).symm
  · rw [checksum_congr fun i below => by rw [others i (Nat.ne_of_lt below)], ← sum]
    exact differs

theorem bytes_eq {text : List Byte} (same : ∀ j < text.length, clear j = text.getD j 0) :
    bytes clear text.length = text := by
  apply List.ext_getElem?
  intro j
  unfold bytes
  rcases Nat.lt_or_ge j text.length with below | beyond
  · rw [List.getElem?_map, List.getElem?_range below, Option.map_some, same j below]
    simp [below]
  · rw [List.getElem?_eq_none (by simpa using beyond), List.getElem?_eq_none beyond]

theorem load_inside {text : List Byte} {behind : Memory} {j : Nat} (below : j < text.length) :
    load text behind j = text.getD j 0 := by
  simp [load, below]

theorem saveWrite_eq (rest : List Byte) (behind : Memory)
    (small : (SAVEFORMAT ++ rest).length < 2 ^ 30) : saveWrite key behind rest =
      bytes (code (load (SAVEFORMAT ++ rest) behind)
        (BitVec.ofNat 32 (SAVEFORMAT ++ rest).length) key false).clear
        ((SAVEFORMAT ++ rest).length + 1) := by
  have length : (BitVec.ofNat 32 (SAVEFORMAT ++ rest).length + 1).toNat =
      (SAVEFORMAT ++ rest).length + 1 := by
    rw [BitVec.toNat_add, toNat_length (by omega)]
    exact Nat.mod_eq_of_lt (by omega : (SAVEFORMAT ++ rest).length + 1 < 2 ^ 32)
  rw [saveWrite, ← length]
  rfl

theorem saveWrite_length (rest : List Byte) (behind : Memory)
    (small : (SAVEFORMAT ++ rest).length < 2 ^ 30) :
    (saveWrite key behind rest).length = (SAVEFORMAT ++ rest).length + 1 := by
  rw [saveWrite_eq rest behind small, bytes, List.length_map, List.length_range]

theorem saveRead_saveWrite (filled : key ≠ []) (rest : List Byte) (behind behind' : Memory)
    (small : (SAVEFORMAT ++ rest).length < 2 ^ 30) :
    saveRead key behind' (SAVEFORMAT ++ rest).length (saveWrite key behind rest) =
      (0, SAVEFORMAT ++ rest) := by
  have written := @saveWrite_eq key rest behind small
  have total := @saveWrite_length key rest behind small
  generalize record : SAVEFORMAT ++ rest = sa at small written total
  have encoded := @encode_clear key (load sa behind) sa.length filled (by omega)
  have stored : ∀ j < sa.length + 1, load (saveWrite key behind rest) behind' j =
      (code (load sa behind) (BitVec.ofNat 32 sa.length) key false).clear j := by
    intro j below
    rw [load_inside (by rw [total]; exact below), written, bytes]
    simp [below]
  obtain ⟨error, same⟩ := @decode_spec key (load sa behind) sa.length filled (by omega)
    (load (saveWrite key behind rest) behind')
    (fun j below => by rw [stored j (by omega), encoded, if_pos below])
    (by rw [stored _ (Nat.lt_succ_self _), encoded, if_neg (Nat.lt_irrefl _), if_pos rfl])
  have read : bytes (code (load (saveWrite key behind rest) behind')
      (BitVec.ofNat 32 sa.length + 1) key true).clear sa.length = sa :=
    bytes_eq fun j below => (same j below).trans (load_inside below)
  have size : BitVec.ofNat 32 (saveWrite key behind rest).length = BitVec.ofNat 32 sa.length + 1 := by
    rw [total, BitVec.ofNat_add]
    rfl
  have nonempty : saveWrite key behind rest ≠ [] := fun none => by
    rw [none] at total
    cases total
  rw [saveRead, if_neg nonempty]
  dsimp only
  rw [size, if_pos error, read, ← record]
  rfl

theorem saveRead_error {behind : Memory} {file : List Byte} (n : Nat) (nonempty : file ≠ [])
    (other : (code (load file behind) (BitVec.ofNat 32 file.length) key true).error ≠ 0) :
    (saveRead key behind n file).1 =
      (code (load file behind) (BitVec.ofNat 32 file.length) key true).error := by
  rw [saveRead, if_neg nonempty]
  dsimp only
  rw [if_neg other]

theorem load_of_ne {file : List Byte} {behind : Memory} {j i : Nat} (b : Byte) (other : i ≠ j) :
    load (file.set j b) behind i = load file behind i := by
  rw [load, load, List.getD_eq_getElem?_getD, List.getD_eq_getElem?_getD,
    List.getElem?_set_ne other.symm]

theorem saveRead_changed {behind : Memory} {file sa : List Byte} (filled : key ≠ [])
    (length : file.length = sa.length + 1) (small : sa.length < 2 ^ 30)
    (read : saveRead key behind sa.length file = (0, sa)) {j : Nat} (inside : j < file.length)
    {b : Byte} (other : b ≠ file.getD j 0) :
    (saveRead key behind sa.length (file.set j b)).1 = ENOTCONN := by
  have nonempty : file ≠ [] := List.ne_nil_of_length_pos (by omega)
  have whole : (code (load file behind) (BitVec.ofNat 32 file.length) key true).error = 0 := by
    by_contra error
    exact error ((saveRead_error _ nonempty error).symm.trans (congrArg Prod.fst read))
  rw [length, BitVec.ofNat_add] at whole
  have changed := @decode_changed key _ filled (by omega) (load file behind)
    (load (file.set j b) behind) whole j (by omega)
    (by rwa [load_inside (by rwa [List.length_set]), load_inside inside,
      List.getD_eq_getElem?_getD, List.getElem?_set_self inside])
    (fun i => load_of_ne b)
  have error : (code (load (file.set j b) behind)
      (BitVec.ofNat 32 (file.set j b).length) key true).error = ENOTCONN := by
    rw [List.length_set, length, BitVec.ofNat_add]
    exact changed
  rw [saveRead_error _ (List.ne_nil_of_length_pos (by rw [List.length_set]; omega))
    (by rw [error]; decide), error]

/-- If the block of the file stays where it is, a record that has been written is read again,
but not if one byte has changed. -/
theorem saveRead_kept {pagesz : Nat} (page : 4 ≤ pagesz ∧ pagesz ≤ 2 ^ 30) (filled : key ≠ [])
    (rest : List Byte) (behind behind' moved : Memory)
    (small : (SAVEFORMAT ++ rest).length < 2 ^ 30)
    (kept : stays pagesz ((SAVEFORMAT ++ rest).length + 1) (SAVEFORMAT ++ rest).length = true) :
    saveReadIn pagesz key behind' moved (SAVEFORMAT ++ rest).length
        (saveWriteIn pagesz key behind rest) = (0, SAVEFORMAT ++ rest) ∧
      ∀ j < (saveWriteIn pagesz key behind rest).length,
        ∀ b ≠ (saveWriteIn pagesz key behind rest).getD j 0,
          (saveReadIn pagesz key behind' moved (SAVEFORMAT ++ rest).length
            ((saveWriteIn pagesz key behind rest).set j b)).1 = ENOTCONN := by
  have encoded : saveWriteIn pagesz key behind rest = saveWrite key behind rest :=
    if_pos (stays_self page (Nat.le_of_lt small) (Nat.succ_pos _))
  have length := @saveWrite_length key rest behind small
  have read := saveRead_saveWrite filled rest behind behind' small
  have here : ∀ file : List Byte, file.length = (SAVEFORMAT ++ rest).length + 1 →
      saveReadIn pagesz key behind' moved (SAVEFORMAT ++ rest).length file =
        saveRead key behind' (SAVEFORMAT ++ rest).length file := fun file same =>
    if_pos (Or.inr (by rw [same]; exact kept))
  rw [encoded, here _ length]
  refine ⟨read, fun j inside b other => ?_⟩
  rw [here _ (by rwa [List.length_set])]
  exact saveRead_changed filled length small read inside other

theorem saveRead_kept_two : ∃ file, saveReadIn 4096 [7, 1] (fun _ => 3) (fun _ => 5) 6 file =
      (0, [1, 0, 0, 0, 8, 9]) ∧
    (saveReadIn 4096 [7, 1] (fun _ => 3) (fun _ => 5) 6 (file.set 2 1)).1 = ENOTCONN := by
  obtain ⟨read, changed⟩ := @saveRead_kept [7, 1] 4096 (by decide) (by decide) [8, 9] (fun _ => 2)
    (fun _ => 3) (fun _ => 5) (by decide) (by decide)
  exact ⟨_, read, changed 2 (by decide) 1 (by decide)⟩

end Coding

end MachFormal.Sdm.Authcover
