import MachFormal.Threads.MallocLayout

/-!
# Safety of the memory allocator

Every call keeps a layout of the memory in which nothing overlaps, and leaves
the bytes of the live blocks alone.  So in every run the blocks of the clients,
the blocks on the free lists and the pools are apart, and a block keeps its
contents until its owner writes to it or gives it back.
-/

namespace MachFormal.Threads.Malloc

open Library

/-! ## Sizes -/

/-- The loop stops at the first size that is large enough, or runs past the last list. -/
theorem findBucket_spec {size fuel i n : Nat} (hfuel : i + fuel = nBuckets)
    (hn : i < nBuckets → n = 2 ^ (i + 3)) (hsmall : i = 0 ∨ 2 ^ (i + 2) < size) :
    ((findBucket size fuel i n).1 = nBuckets ∧ 2 ^ 31 < size) ∨
      ((findBucket size fuel i n).1 < nBuckets ∧
        (findBucket size fuel i n).2 = 2 ^ ((findBucket size fuel i n).1 + 3) ∧
        size ≤ (findBucket size fuel i n).2) := by
  induction fuel generalizing i n with
  | zero =>
      have hlast : i = nBuckets := by omega
      subst hlast
      rcases hsmall with hzero | hbig
      · cases hzero
      · exact Or.inl ⟨rfl, hbig⟩
  | succ fuel ih =>
      have hi : i < nBuckets := by omega
      have hsize := hn hi
      unfold findBucket
      by_cases hlt : n < size
      · rw [if_pos hlt]
        refine ih (by omega) (fun hnext => ?_) (Or.inr (hsize ▸ hlt))
        have hfit : 2 ^ (i + 1 + 3) < 2 ^ 32 :=
          Nat.pow_lt_pow_right (by decide) (by unfold nBuckets at hnext; omega)
        rw [hsize, ← pow_succ, Nat.mod_eq_of_lt hfit]
      · rw [if_neg hlt]
        exact Or.inr ⟨hi, hsize, Nat.le_of_not_lt hlt⟩

theorem findBucket_cases (size : Nat) :
    ((findBucket size nBuckets 0 minSize).1 = nBuckets ∧ 2 ^ 31 < size) ∨
      ((findBucket size nBuckets 0 minSize).1 < nBuckets ∧
        (findBucket size nBuckets 0 minSize).2 =
          2 ^ ((findBucket size nBuckets 0 minSize).1 + 3) ∧
        size ≤ (findBucket size nBuckets 0 minSize).2) :=
  findBucket_spec (Nat.zero_add _) (fun _ => rfl) (Or.inl rfl)

theorem listIndex_spec {c : Config} {mem : Mem} {base i : Nat} (hi : i < nBuckets)
    (hload : load mem (base - headerSize) = c.freeList i) : listIndex c mem base = some i := by
  have hdiff : ((c.freeList i : Nat) : Int) - c.freeLists = 8 * i := by
    unfold Config.freeList
    push_cast
    ring
  have hmod : (8 * (i : Int)).bmod (2 ^ 32) = 8 * i := by
    unfold nBuckets at hi
    rw [Int.bmod_eq_of_le] <;> omega
  have hdiv : (8 * (i : Int)).tdiv 8 = i := Int.mul_tdiv_cancel_left _ (by decide)
  unfold listIndex
  simp only [hload, hdiff, hmod, hdiv, Int.toNat_natCast]
  rw [if_neg (by omega), if_neg (by simp)]

/-! ## The calls -/

section Calls

variable {c : Config} {h : Heap} {live : List Block} {free : Nat → List Nat} {pools : List Range}

/-- The amount `more_memory` looks for. -/
def amountFor (c : Config) (size : Nat) : Nat :=
  if size ≤ c.vmPageSize then c.vmPageSize else size

theorem amountFor_pos (c : Config) (size : Nat) : 0 < amountFor c size := by
  have hpos := c.page_pos
  unfold amountFor
  split <;> omega

/-- Blocks up to the page size divide a page, and larger ones are made of pages. -/
theorem amountFor_spec (c : Config) (i : Nat) :
    c.vmPageSize ∣ amountFor c (2 ^ (i + 3)) ∧
      amountFor c (2 ^ (i + 3)) =
        (if 2 ^ (i + 3) ≤ c.vmPageSize then c.vmPageSize / 2 ^ (i + 3) else 1) * 2 ^ (i + 3) ∧
      0 < (if 2 ^ (i + 3) ≤ c.vmPageSize then c.vmPageSize / 2 ^ (i + 3) else 1) := by
  unfold amountFor Config.vmPageSize
  split
  · next hle =>
      have hshift : i + 3 ≤ c.pageShift := (Nat.pow_le_pow_iff_right (by decide)).mp hle
      have hdvd : 2 ^ (i + 3) ∣ 2 ^ c.pageShift := pow_dvd_pow 2 hshift
      exact ⟨Nat.dvd_refl _, (Nat.div_mul_cancel hdvd).symm,
        Nat.div_pos hle (Nat.pow_pos (by decide))⟩
  · next hgt =>
      have hshift : c.pageShift ≤ i + 3 := by
        by_contra hcon
        exact hgt (Nat.pow_le_pow_right (by decide) (by omega))
      exact ⟨pow_dvd_pow 2 hshift, (Nat.one_mul _).symm, Nat.one_pos⟩

/-- The region a call of `malloc` may ask the kernel for. -/
def vmRequest (c : Config) (size : Nat) : Nat :=
  vmLength c (amountFor c (findBucket ((size + headerSize) % 2 ^ 32) nBuckets 0 minSize).2)

/-- `vm_allocate` can give this answer. -/
def Possible (c : Config) (h : Heap) (size : Nat) (vm : Option Nat) : Prop :=
  ∀ address, vm = some address → Fresh h.granted (address, vmRequest c size)

/-- What a call of `malloc` that returns a block leaves behind. -/
structure Allocated (c : Config) (h h' : Heap) (live : List Block) (size base bucket : Nat)
    (free' : Nat → List Nat) (pools' : List Range) : Prop where
  layout : Layout c h' (⟨base, size, bucket⟩ :: live) free' pools'
  nonnull : base ≠ 0
  fits : 0 < size ∧ size + headerSize ≤ 2 ^ 31
  same : ∀ b ∈ live, SameOn b.range h.mem h'.mem

theorem pop_spec (hl : Layout c h live free pools) {i size : Nat} (hi : i < nBuckets)
    (hsize : size + headerSize ≤ 2 ^ (i + 3)) (hpos : 0 < size) (hnonempty : h.heads i ≠ 0) :
    Allocated c h (pop c h i).1 live size (pop c h i).2 i
      (Function.update free i (free i).tail) pools := by
  obtain ⟨hrest, hloose⟩ := hl.unlink hi hnonempty
  refine ⟨hrest.give hi hsize ⟨hloose.apart, hloose.inside⟩, Nat.succ_ne_zero _, ⟨hpos, ?_⟩, fun b hb => ?_⟩
  · have hle : 2 ^ (i + 3) ≤ 2 ^ 31 :=
      Nat.pow_le_pow_right (by decide) (by unfold nBuckets at hi; omega)
    omega
  · exact hloose.sameOn (List.mem_append_right _ (mem_blocks_live hb)) _

theorem moreMemory_spec (hl : Layout c h live free pools) {i : Nat} (hi : i < nBuckets)
    (vm : Option Nat) :
    (moreMemory c h (2 ^ (i + 3)) i vm = none ∧ ∃ address, vm = some address ∧
        ¬ Fresh h.granted (address, vmLength c (amountFor c (2 ^ (i + 3))))) ∨
      moreMemory c h (2 ^ (i + 3)) i vm = some (h, false) ∨
      ∃ h' free' pools', moreMemory c h (2 ^ (i + 3)) i vm = some (h', true) ∧
        Layout c h' live free' pools' ∧ h'.heads i ≠ 0 ∧
        ∀ b ∈ live, SameOn b.range h.mem h'.mem := by
  obtain ⟨hdvd, hamount, hcount⟩ := amountFor_spec c i
  unfold moreMemory
  simp only
  rcases takeMemory_spec hl hdvd (amountFor_pos c _) vm with
    ⟨hnone, hbad⟩ | hfail | ⟨h', address, pools', htake, htaken⟩
  · refine Or.inl ⟨?_, hbad⟩
    unfold amountFor at hnone
    rw [hnone]
  · refine Or.inr (Or.inl ?_)
    unfold amountFor at hfail
    rw [hfail]
  · have hloose : Loose h' live free pools' (address,
        (if 2 ^ (i + 3) ≤ c.vmPageSize then c.vmPageSize / 2 ^ (i + 3) else 1) * 2 ^ (i + 3)) := by
      rw [← hamount]
      exact ⟨htaken.apart, htaken.inside⟩
    obtain ⟨free', hlayout, hnonempty, hsame⟩ := htaken.layout.pushBlocks hi _ address hloose
    refine Or.inr (Or.inr ⟨_, free', pools', ?_, hlayout, ?_, fun b hb => ?_⟩)
    · unfold amountFor at htake
      rw [htake]
    · exact fun hzero => hnonempty hcount ((hlayout.chains i hi).eq_nil_iff.mp hzero)
    · exact (htaken.same _ (mem_blocks_live hb)).trans
        (hsame _ (List.mem_append_right _ (mem_blocks_live hb)))

/-- `malloc` returns the null pointer and changes nothing, or it returns a block. -/
theorem malloc_spec (hl : Layout c h live free pools) {size : Nat} (hword : size < 2 ^ 32)
    (vm : Option Nat) :
    (malloc c h size vm = none ∧ ¬ Possible c h size vm) ∨
      malloc c h size vm = some (h, 0) ∨
      ∃ h' base bucket free' pools', malloc c h size vm = some (h', base) ∧
        Allocated c h h' live size base bucket free' pools' := by
  unfold malloc
  simp only
  by_cases hbad : (size + headerSize) % 2 ^ 32 ≤ headerSize
  · rw [if_pos hbad]
    exact Or.inr (Or.inl rfl)
  · -- the sum did not wrap, and the size is not 0
    have hsum : (size + headerSize) % 2 ^ 32 = size + headerSize := by
      unfold headerSize at hbad ⊢
      omega
    have hpos : 0 < size := by
      unfold headerSize at hbad hsum
      omega
    rw [if_neg hbad]
    rcases findBucket_cases ((size + headerSize) % 2 ^ 32) with ⟨hlast, -⟩ | ⟨hi, hn, hfit⟩
    · rw [if_pos hlast]
      exact Or.inr (Or.inl rfl)
    · rw [if_neg (Nat.ne_of_lt hi)]
      have hrequest : vmRequest c size = vmLength c (amountFor c
          (findBucket ((size + headerSize) % 2 ^ 32) nBuckets 0 minSize).2) := rfl
      generalize findBucket ((size + headerSize) % 2 ^ 32) nBuckets 0 minSize = bucket at *
      rw [hsum, hn] at hfit
      by_cases hempty : h.heads bucket.1 = 0
      · rw [if_pos hempty, hn]
        rcases moreMemory_spec hl hi vm with
          ⟨hnone, address, hvm, hstale⟩ | hfail | ⟨h', free', pools', hmore, hlayout, hne, hsame⟩
        · rw [hnone]
          refine Or.inl ⟨rfl, fun hpossible => hstale ?_⟩
          rw [← hn, ← hrequest]
          exact hpossible address hvm
        · rw [hfail]
          exact Or.inr (Or.inl rfl)
        · rw [hmore]
          have hpop := pop_spec hlayout hi hfit hpos hne
          exact Or.inr (Or.inr ⟨_, _, bucket.1, _, pools', rfl, hpop.layout, hpop.nonnull,
            hpop.fits, fun b hb => (hsame b hb).trans (hpop.same b hb)⟩)
      · rw [if_neg hempty]
        exact Or.inr (Or.inr ⟨_, _, bucket.1, _, pools, rfl, pop_spec hl hi hfit hpos hempty⟩)

theorem free_spec {b : Block} (hl : Layout c h (b :: live) free pools) :
    Layout c (Malloc.free c h b.base) live
        (Function.update free b.bucket ((b.base - headerSize) :: free b.bucket)) pools ∧
      ∀ q ∈ pools ++ blocks live free, SameOn q h.mem (Malloc.free c h b.base).mem := by
  obtain ⟨hbucket, hbase, hload, hsize⟩ := hl.headers b List.mem_cons_self
  obtain ⟨hrest, hloose⟩ := hl.leave
  have hne : b.base ≠ 0 := by
    unfold headerSize at hbase
    omega
  unfold Malloc.free
  rw [if_neg hne, listIndex_spec hbucket hload]
  exact ⟨hrest.push hbucket hloose, fun q hq => hloose.sameOn hq _⟩

theorem free_null (c : Config) (h : Heap) : Malloc.free c h 0 = h :=
  if_pos rfl

theorem Layout.resize {b : Block} (hl : Layout c h (b :: live) free pools) {size : Nat}
    (hsize : size + headerSize ≤ 2 ^ (b.bucket + 3)) :
    Layout c h (⟨b.base, size, b.bucket⟩ :: live) free pools := by
  refine ⟨hl.chains, hl.poolChain, hl.paged, fun b' hb' => ?_, hl.apart, hl.inside, hl.granted⟩
  rcases List.mem_cons.mp hb' with rfl | hb'
  · obtain ⟨hbucket, hbase, hload, -⟩ := hl.headers b List.mem_cons_self
    exact ⟨hbucket, hbase, hload, hsize⟩
  · exact hl.headers b' (List.mem_cons_of_mem _ hb')

theorem two_pow_bucket_le {i : Nat} (hi : i < nBuckets) : 2 ^ (i + 3) ≤ 2 ^ 31 :=
  Nat.pow_le_pow_right (by decide) (by unfold nBuckets at hi; omega)

theorem copy_spec {h' : Heap} {b : Block} {free' : Nat → List Nat} {pools' : List Range}
    {size base bucket : Nat} (hb : b.bucket < nBuckets ∧ headerSize ≤ b.base)
    (halloc : Allocated c h h' (b :: live) size base bucket free' pools') :
    Layout c
        { h' with mem := bcopy h'.mem b.base base (min (2 ^ (b.bucket + 3) - headerSize) size) }
        (b :: ⟨base, size, bucket⟩ :: live) free' pools' ∧
      (∀ b' ∈ live, SameOn b'.range h.mem
        (bcopy h'.mem b.base base (min (2 ^ (b.bucket + 3) - headerSize) size))) ∧
      ∀ k < min (2 ^ (b.bucket + 3) - headerSize) size,
        bcopy h'.mem b.base base (min (2 ^ (b.bucket + 3) - headerSize) size) (base + k) =
          h.mem (b.base + k) := by
  have hheader := (halloc.layout.headers _ List.mem_cons_self).2.2.2
  simp only at hheader
  have hown : ∀ x, ¬ Range.Has (base, 2 ^ (bucket + 3) - headerSize) x →
      bcopy h'.mem b.base base (min (2 ^ (b.bucket + 3) - headerSize) size) x = h'.mem x := by
    intro x hx
    unfold bcopy
    refine if_neg (fun hin => hx ?_)
    unfold Range.Has
    simp only
    omega
  obtain ⟨hwritten, hsame⟩ := halloc.layout.write hown
  refine ⟨hwritten.perm (List.Perm.swap _ _ _), fun b' hb' => ?_, fun k hk => ?_⟩
  · exact (halloc.same b' (List.mem_cons_of_mem b hb')).trans
      (hsame _ (List.mem_append_right _ (mem_blocks_live (List.mem_cons_of_mem b hb'))))
  · have hold : h'.mem (b.base + k) = h.mem (b.base + k) := by
      refine halloc.same b List.mem_cons_self _ ?_
      unfold Range.Has Block.range headerSize at *
      simp only
      omega
    unfold bcopy
    rw [if_pos ⟨by omega, by omega⟩, Nat.add_sub_cancel_left]
    exact hold

/-- `realloc` of a live block gives it back, or replaces it by one with the same first bytes. -/
theorem realloc_spec {b : Block} (hl : Layout c h (b :: live) free pools) {size : Nat}
    (hword : size < 2 ^ 32) (vm : Option Nat) :
    (realloc c h b.base size vm = none ∧ ¬ Possible c h size vm) ∨
      (∃ h' free' pools', realloc c h b.base size vm = some (h', 0) ∧
        Layout c h' live free' pools' ∧ ∀ b' ∈ live, SameOn b'.range h.mem h'.mem) ∨
      ∃ h' base bucket free' pools', realloc c h b.base size vm = some (h', base) ∧
        Allocated c h h' live size base bucket free' pools' ∧
        ∀ k < min (2 ^ (b.bucket + 3) - headerSize) size, h'.mem (base + k) = h.mem (b.base + k) := by
  obtain ⟨hbucket, hbase, hload, hsize⟩ := hl.headers b List.mem_cons_self
  have hne : b.base ≠ 0 := by
    unfold headerSize at hbase
    omega
  have hpow := two_pow_bucket_le hbucket
  unfold realloc
  rw [if_neg hne, listIndex_spec hbucket hload]
  simp only
  by_cases hstay : size ≤ 2 ^ (b.bucket + 3) - headerSize ∧
      2 ^ (b.bucket + 2) < (size + headerSize) % 2 ^ 32
  · -- the new size belongs to the same free list
    rw [if_pos hstay]
    have hbig := eight_le_blockSize b.bucket
    have hquarter : 4 ≤ 2 ^ (b.bucket + 2) :=
      Nat.pow_le_pow_right (show 0 < 2 by decide) (show 2 ≤ b.bucket + 2 by omega)
    have hfit : size + headerSize ≤ 2 ^ (b.bucket + 3) := by
      unfold headerSize at *
      omega
    refine Or.inr (Or.inr ⟨h, b.base, b.bucket, free, pools, rfl,
      ⟨hl.resize hfit, hne, ⟨?_, by omega⟩, fun b' _ => SameOn.refl _ _⟩, fun k _ => rfl⟩)
    unfold headerSize at *
    omega
  · rw [if_neg hstay]
    rcases malloc_spec hl hword vm with ⟨hnone, hbad⟩ | hfail |
      ⟨h', base, bucket, free', pools', hsome, halloc⟩
    · rw [hnone]
      exact Or.inl ⟨rfl, hbad⟩
    · rw [hfail]
      obtain ⟨hfreed, hsame⟩ := free_spec hl
      exact Or.inr (Or.inl ⟨Malloc.free c h b.base, _, pools, by simp, hfreed,
        fun b' hb' => hsame _ (List.mem_append_right _ (mem_blocks_live hb'))⟩)
    · rw [hsome]
      obtain ⟨hcopied, hlive, hbytes⟩ := copy_spec ⟨hbucket, hbase⟩ halloc
      obtain ⟨hfreed, hsame⟩ := free_spec hcopied
      simp only [ne_eq, halloc.nonnull, not_false_eq_true, if_true]
      have hnew : SameOn (Block.range ⟨base, size, bucket⟩) _ _ :=
        hsame _ (List.mem_append_right _ (mem_blocks_live List.mem_cons_self))
      refine Or.inr (Or.inr ⟨_, base, bucket, _, pools', rfl,
        ⟨hfreed, halloc.nonnull, halloc.fits, fun b' hb' => ?_⟩, fun k hk => ?_⟩)
      · exact (hlive b' hb').trans
          (hsame _ (List.mem_append_right _ (mem_blocks_live (List.mem_cons_of_mem _ hb'))))
      · refine (hnew (base + k) ?_).trans (hbytes k hk)
        obtain ⟨-, hbase', -, hheader⟩ := halloc.layout.headers _ List.mem_cons_self
        unfold Range.Has Block.range headerSize at *
        simp only at hheader hbase' ⊢
        omega

end Calls

/-! ## Runs -/

/-- A layout of the memory of a system, and what follows from it. -/
structure Sound (c : Config) (s : System) (free : Nat → List Nat) (pools : List Range) : Prop where
  layout : Layout c s.heap s.live free pools
  bytes : ∀ b ∈ s.live, Within (b.base, b.size) b.range
  one_list : ∀ i < nBuckets, ∀ j < nBuckets, ∀ block ∈ free i, block ∈ free j → i = j
  nodup : ∀ i < nBuckets, (free i).Nodup
  not_live : ∀ i < nBuckets, ∀ block ∈ free i, ∀ b ∈ s.live, b.base - headerSize ≠ block

section Runs

variable {c : Config} {s s' : System} {free : Nat → List Nat} {pools : List Range}

theorem block_not_apart (a i j : Nat) : ¬ Apart (a, 2 ^ (i + 3)) (a, 2 ^ (j + 3)) := by
  have hi := eight_le_blockSize i
  have hj := eight_le_blockSize j
  unfold Apart
  simp only
  omega

theorem Layout.sound (hl : Layout c s.heap s.live free pools) : Sound c s free pools := by
  have hblocks := (List.pairwise_append.mp hl.apart).2.1
  obtain ⟨hfree, -, hcross⟩ := List.pairwise_append.mp hblocks
  obtain ⟨hlists, hbetween⟩ := List.pairwise_flatMap.mp hfree
  refine ⟨hl, fun b hb => ?_, fun i hi j hj block hblock hblock' => ?_, fun i hi => ?_,
    fun i hi block hblock b hb heq => ?_⟩
  · obtain ⟨-, hbase, -, hsize⟩ := hl.headers b hb
    unfold Within Block.range
    simp only
    omega
  · by_contra hne
    have : Std.Symm (fun i j => ∀ x ∈ (free i).map (fun block => (block, 2 ^ (i + 3))),
        ∀ y ∈ (free j).map (fun block => (block, 2 ^ (j + 3))), Apart x y) :=
      ⟨fun _ _ h x hx y hy => (h y hy x hx).symm⟩
    exact block_not_apart block i j (hbetween.forall (List.mem_range.mpr hi) (List.mem_range.mpr hj)
      hne _ (List.mem_map_of_mem hblock) _ (List.mem_map_of_mem hblock'))
  · have hpairs := List.pairwise_map.mp (hlists i (List.mem_range.mpr hi))
    refine hpairs.imp (fun {a b} hab heq => ?_)
    subst heq
    exact block_not_apart a i i hab
  · have hapart := hcross _ (mem_freePieces hi hblock) _ (List.mem_map_of_mem hb)
    rw [Block.range, heq] at hapart
    exact block_not_apart block i b.bucket hapart

theorem drop_perm {live : List Block} {base : Nat} (hlive : ∃ b ∈ live, b.base = base) :
    ∃ b ∈ live, b.base = base ∧ List.Perm live (b :: drop live base) := by
  obtain ⟨b₀, hmem, hbase⟩ := hlive
  obtain ⟨b, front, back, -, hb, hsplit, hdrop⟩ :=
    List.exists_of_eraseP (p := fun b : Block => b.base == base) hmem (by simp [hbase])
  have hperm : List.Perm live (b :: drop live base) := by
    rw [drop, hdrop, hsplit]
    exact List.perm_middle
  exact ⟨b, hperm.mem_iff.mpr List.mem_cons_self, by simpa using hb, hperm⟩

theorem Layout.unique (hl : Layout c s.heap s.live free pools) {b b' : Block} (hb : b ∈ s.live)
    (hb' : b' ∈ s.live) (hbase : b.base = b'.base) : b = b' := by
  by_contra hne
  have hblocks := (List.pairwise_append.mp hl.apart).2.1
  have hlive := List.pairwise_map.mp (List.pairwise_append.mp hblocks).2.1
  have : Std.Symm (fun a b : Block => Apart a.range b.range) := ⟨fun _ _ h => h.symm⟩
  have hapart := hlive.forall hb hb' hne
  rw [Block.range, Block.range, hbase] at hapart
  exact block_not_apart _ _ _ hapart

theorem Layout.drop_null (hl : Layout c s.heap s.live free pools) : drop s.live 0 = s.live := by
  refine List.eraseP_of_forall_not (fun b hb => ?_)
  obtain ⟨-, hbase, -, -⟩ := hl.headers b hb
  unfold headerSize at hbase
  simp only [beq_iff_eq]
  omega

/-- What a client sees of a call that returns a pointer to `size` bytes. -/
structure Returned (s s' : System) (live : List Block) (size : Nat) : Prop where
  block : s'.result ≠ 0 → ∃ bucket, s'.live = ⟨s'.result, size, bucket⟩ :: live
  none : s'.result = 0 → s'.live = live
  fits : s'.result ≠ 0 → 0 < size ∧ size + headerSize ≤ 2 ^ 31
  same : ∀ b ∈ live, SameOn b.range s.heap.mem s'.heap.mem

theorem adopt_null (c : Config) (live : List Block) (size : Nat) (h : Heap) :
    adopt c live size (h, 0) = ⟨h, live, 0⟩ := by
  simp [adopt]

theorem Allocated.adopt {h h' : Heap} {live : List Block} {size base bucket : Nat}
    {free' : Nat → List Nat} {pools' : List Range}
    (halloc : Allocated c h h' live size base bucket free' pools') :
    adopt c live size (h', base) = ⟨h', ⟨base, size, bucket⟩ :: live, base⟩ := by
  obtain ⟨hbucket, -, hload, -⟩ := halloc.layout.headers _ List.mem_cons_self
  simp [Malloc.adopt, halloc.nonnull, listIndex_spec hbucket hload]

theorem step_malloc (hl : Layout c s.heap s.live free pools) {size : UInt32} {vm : Option Nat}
    (hstep : step c s (.malloc size vm) = some s') :
    (∃ free' pools', Layout c s'.heap s'.live free' pools') ∧
      Returned s s' s.live size.toNat := by
  obtain ⟨returned, hmalloc, rfl⟩ := Option.map_eq_some_iff.mp hstep
  rcases malloc_spec hl size.toNat_lt vm with ⟨hnone, -⟩ | hfail |
    ⟨h', base, bucket, free', pools', hsome, halloc⟩
  · rw [hnone] at hmalloc
    cases hmalloc
  · rw [hfail] at hmalloc
    cases hmalloc
    rw [adopt_null]
    exact ⟨⟨free, pools, hl⟩, fun hne => absurd rfl hne, fun _ => rfl, fun hne => absurd rfl hne,
      fun _ _ => SameOn.refl _ _⟩
  · rw [hsome] at hmalloc
    cases hmalloc
    rw [halloc.adopt]
    exact ⟨⟨free', pools', halloc.layout⟩, fun _ => ⟨bucket, rfl⟩,
      fun hzero => absurd hzero halloc.nonnull, fun _ => halloc.fits, halloc.same⟩

theorem step_realloc (hl : Layout c s.heap s.live free pools) {base : Nat} {size : UInt32}
    {vm : Option Nat} (hstep : step c s (.realloc base size vm) = some s') :
    (∃ free' pools', Layout c s'.heap s'.live free' pools') ∧
      Returned s s' (drop s.live base) size.toNat ∧
      (s'.result ≠ 0 → ∀ b ∈ s.live, b.base = base →
        ∀ k < min (2 ^ (b.bucket + 3) - headerSize) size.toNat,
          s'.heap.mem (s'.result + k) = s.heap.mem (base + k)) := by
  simp only [step] at hstep
  split at hstep
  · next hbase =>
      by_cases hnull : base = 0
      · -- the null pointer makes it a call of `malloc`
        subst hnull
        rw [hl.drop_null] at hstep ⊢
        have hmalloc : step c s (.malloc size vm) = some s' := hstep
        refine ⟨(step_malloc hl hmalloc).1, (step_malloc hl hmalloc).2, fun _ b hb hzero => ?_⟩
        obtain ⟨-, hpos, -, -⟩ := hl.headers b hb
        unfold headerSize at hpos
        omega
      · obtain ⟨b, hb, hbb, hperm⟩ := drop_perm (hbase.resolve_left hnull)
        have hunique : ∀ b' ∈ s.live, b'.base = base → b' = b :=
          fun b' hb' hbase' => hl.unique hb' hb (hbase'.trans hbb.symm)
        obtain ⟨returned, hrealloc, rfl⟩ := Option.map_eq_some_iff.mp hstep
        rw [← hbb] at hrealloc
        rcases realloc_spec (hl.perm hperm) size.toNat_lt vm with ⟨hnone, -⟩ |
          ⟨h', free', pools', hfail, hlayout, hsame⟩ |
          ⟨h', base', bucket, free', pools', hsome, halloc, hbytes⟩
        · rw [hnone] at hrealloc
          cases hrealloc
        · rw [hfail] at hrealloc
          cases hrealloc
          rw [adopt_null]
          exact ⟨⟨free', pools', hlayout⟩, ⟨fun hne => absurd rfl hne, fun _ => rfl,
            fun hne => absurd rfl hne, hsame⟩, fun hne => absurd rfl hne⟩
        · rw [hsome] at hrealloc
          cases hrealloc
          rw [halloc.adopt]
          refine ⟨⟨free', pools', halloc.layout⟩, ⟨fun _ => ⟨bucket, rfl⟩,
            fun hzero => absurd hzero halloc.nonnull, fun _ => halloc.fits, halloc.same⟩, ?_⟩
          intro _ b' hb' hbase' k hk
          rw [hunique b' hb' hbase'] at hk
          rw [← hbb]
          exact hbytes k hk
  · cases hstep

theorem step_free (hl : Layout c s.heap s.live free pools) {base : Nat}
    (hstep : step c s (.free base) = some s') :
    (∃ free' pools', Layout c s'.heap s'.live free' pools') ∧ s'.live = drop s.live base ∧
      ∀ b ∈ drop s.live base, SameOn b.range s.heap.mem s'.heap.mem := by
  simp only [step] at hstep
  split at hstep
  · next hbase =>
      cases hstep
      by_cases hnull : base = 0
      · subst hnull
        rw [free_null, hl.drop_null]
        exact ⟨⟨free, pools, hl⟩, rfl, fun _ _ => SameOn.refl _ _⟩
      · obtain ⟨b, hb, rfl, hperm⟩ := drop_perm (hbase.resolve_left hnull)
        obtain ⟨hfreed, hsame⟩ := free_spec (hl.perm hperm)
        exact ⟨⟨_, pools, hfreed⟩, rfl,
          fun b' hb' => hsame _ (List.mem_append_right _ (mem_blocks_live hb'))⟩
  · cases hstep

theorem step_write (hl : Layout c s.heap s.live free pools) {address : Nat} {value : UInt8}
    (hstep : step c s (.write address value) = some s') :
    (∃ free' pools', Layout c s'.heap s'.live free' pools') ∧ s'.live = s.live ∧
      s'.heap.mem = Function.update s.heap.mem address value := by
  simp only [step] at hstep
  split at hstep
  · next howner =>
      cases hstep
      obtain ⟨b, hb, hlow, hhigh⟩ := howner
      obtain ⟨-, -, -, hsize⟩ := hl.headers b hb
      have hperm := List.perm_cons_erase hb
      have hown : ∀ x, ¬ Range.Has (b.base, 2 ^ (b.bucket + 3) - headerSize) x →
          Function.update s.heap.mem address value x = s.heap.mem x := by
        intro x hx
        refine Function.update_of_ne (fun heq => hx ?_) _ _
        unfold Range.Has
        simp only
        omega
      obtain ⟨hlayout, -⟩ := (hl.perm hperm).write hown
      exact ⟨⟨free, pools, hlayout.perm hperm.symm⟩, rfl, rfl⟩
  · cases hstep

theorem initial_layout (c : Config) (mem : Mem) :
    Layout c (initial mem).heap (initial mem).live (fun _ => []) [] := by
  have hnone : ([] : List Range) ++ blocks [] (fun _ => []) = [] := by
    simp [blocks, freePieces]
  refine ⟨fun i _ => rfl, ⟨rfl, rfl⟩, ?_, ?_, ?_, ?_, ?_⟩
  · intro r hr
    cases hr
  · intro b hb
    cases hb
  · rw [show blocks (initial mem).live (fun _ => []) = blocks [] (fun _ => []) from rfl, hnone]
    exact List.Pairwise.nil
  · intro r hr
    rw [show blocks (initial mem).live (fun _ => []) = blocks [] (fun _ => []) from rfl, hnone] at hr
    cases hr
  · intro g hg
    cases hg

theorem reachable_layout (hreach : (machine c).Reachable Machine.always s) :
    ∃ free pools, Layout c s.heap s.live free pools := by
  refine hreach.invariant (P := fun s => ∃ free pools, Layout c s.heap s.live free pools) ?_ ?_
  · rintro s ⟨mem, rfl⟩
    exact ⟨_, _, initial_layout c mem⟩
  · rintro s label s' ⟨free, pools, hl⟩ _ hstep
    cases label with
    | malloc size vm => exact (step_malloc hl hstep).1
    | free base => exact (step_free hl hstep).1
    | realloc base size vm => exact (step_realloc hl hstep).1
    | write address value => exact (step_write hl hstep).1

theorem step_contents (hl : Layout c s.heap s.live free pools) {label : Label}
    (hstep : step c s label = some s') {b : Block} (hb : b ∈ s.live) (hb' : b ∈ s'.live) {x : Nat}
    (hx : Range.Has (b.base, b.size) x) :
    s'.heap.mem x = s.heap.mem x ∨ ∃ value, label = .write x value := by
  have hin : b.range.Has x := (hl.sound.bytes b hb).has hx
  cases label with
  | malloc size vm => exact Or.inl ((step_malloc hl hstep).2.same b hb x hin)
  | free base =>
      obtain ⟨-, hlive, hsame⟩ := step_free hl hstep
      rw [hlive] at hb'
      exact Or.inl (hsame b hb' x hin)
  | realloc base size vm =>
      obtain ⟨-, hreturned, hbytes⟩ := step_realloc hl hstep
      by_cases hnull : s'.result = 0
      · rw [hreturned.none hnull] at hb'
        exact Or.inl (hreturned.same b hb' x hin)
      · by_cases hbase : b.base = base
        · -- the block was resized in place, or another block has taken its place
          obtain ⟨bucket, hlive⟩ := hreturned.block hnull
          rw [hlive] at hb'
          rcases List.mem_cons.mp hb' with heq | hb'
          · have hresult : s'.result = base := by rw [← hbase, heq]
            have hsize : b.size = size.toNat := by rw [heq]
            obtain ⟨-, -, -, hfit⟩ := hl.headers b hb
            obtain ⟨k, rfl⟩ : ∃ k, x = base + k := ⟨x - base, by unfold Range.Has at hx; omega⟩
            have hk : k < min (2 ^ (b.bucket + 3) - headerSize) size.toNat := by
              unfold Range.Has at hx
              simp only at hx
              omega
            have hbyte := hbytes hnull b hb hbase k hk
            rw [hresult] at hbyte
            exact Or.inl hbyte
          · exact Or.inl (hreturned.same b hb' x hin)
        · refine Or.inl (hreturned.same b ?_ x hin)
          exact (List.mem_eraseP_of_neg (by simpa using hbase)).mpr hb
  | write address value =>
      obtain ⟨-, -, hmem⟩ := step_write hl hstep
      by_cases heq : x = address
      · exact Or.inr ⟨value, by rw [heq]⟩
      · rw [hmem]
        exact Or.inl (Function.update_of_ne heq _ _)

/-- The calls that have no answer are those with an answer `vm_allocate` cannot give. -/
theorem malloc_defined (hl : Layout c s.heap s.live free pools) {size : UInt32} {vm : Option Nat}
    (hpossible : Possible c s.heap size.toNat vm) :
    ∃ s', step c s (.malloc size vm) = some s' := by
  rcases malloc_spec hl size.toNat_lt vm with ⟨-, hbad⟩ | hfail | ⟨h', base, -, -, -, hsome, -⟩
  · exact absurd hpossible hbad
  · exact ⟨_, by rw [step, hfail]; rfl⟩
  · exact ⟨_, by rw [step, hsome]; rfl⟩

theorem realloc_defined (hl : Layout c s.heap s.live free pools) {base : Nat} {size : UInt32}
    {vm : Option Nat} (hpossible : Possible c s.heap size.toNat vm)
    (hbase : base = 0 ∨ ∃ b ∈ s.live, b.base = base) :
    ∃ s', step c s (.realloc base size vm) = some s' := by
  simp only [step, if_pos hbase]
  by_cases hnull : base = 0
  · subst hnull
    rcases malloc_spec hl size.toNat_lt vm with ⟨-, hbad⟩ | hfail | ⟨h', base, -, -, -, hsome, -⟩
    · exact absurd hpossible hbad
    · exact ⟨_, by rw [realloc, if_pos rfl, hfail]; rfl⟩
    · exact ⟨_, by rw [realloc, if_pos rfl, hsome]; rfl⟩
  · obtain ⟨b, -, rfl, hperm⟩ := drop_perm (hbase.resolve_left hnull)
    rcases realloc_spec (hl.perm hperm) size.toNat_lt vm with ⟨-, hbad⟩ | ⟨h', -, -, hfail, -⟩ |
      ⟨h', base', -, -, -, hsome, -⟩
    · exact absurd hpossible hbad
    · exact ⟨_, by rw [hfail]; rfl⟩
    · exact ⟨_, by rw [hsome]; rfl⟩

/-- What holds of a state and of the calls that follow it.  The live blocks, the blocks on the
free lists and the pools do not overlap, a block is on no free list but that of its size, and
live blocks are on none; `malloc` and `realloc` return the null pointer or a block of the
requested size, never one for a size that is 0, wraps or does not fit in 2^31 bytes; `realloc`
keeps the first bytes; only their owner changes the bytes of live blocks; and the calls
return. -/
structure Safe (c : Config) (next : System → Label → Option System) (ok : System → Label → Prop)
    (s : System) : Prop where
  sound : ∃ free pools, Sound c s free pools
  malloc : ∀ size vm s', next s (.malloc size vm) = some s' →
    Returned s s' s.live size.toNat ∧
      (size = 0 ∨ 2 ^ 32 ≤ size.toNat + headerSize ∨ 2 ^ 31 < size.toNat + headerSize →
        s'.result = 0)
  realloc : ∀ base size vm s', ok s (.realloc base size vm) →
    next s (.realloc base size vm) = some s' →
    Returned s s' (drop s.live base) size.toNat ∧
      (s'.result ≠ 0 → ∀ b ∈ s.live, b.base = base →
        ∀ k < min (2 ^ (b.bucket + 3) - headerSize) size.toNat,
          s'.heap.mem (s'.result + k) = s.heap.mem (base + k))
  contents : ∀ label s', ok s label → next s label = some s' → ∀ b ∈ s.live, b ∈ s'.live →
    ∀ x, Range.Has (b.base, b.size) x →
      s'.heap.mem x = s.heap.mem x ∨ ∃ value, label = .write x value
  mallocReturns : ∀ size vm, Possible c s.heap size.toNat vm →
    ∃ s', next s (.malloc size vm) = some s'
  reallocReturns : ∀ base size vm, Possible c s.heap size.toNat vm →
    (base = 0 ∨ ∃ b ∈ s.live, b.base = base) → ∃ s', next s (.realloc base size vm) = some s'

/-- Every state is safe that clients reach who give up the block of a `realloc` that fails. -/
theorem allocator_safe (c : Config) {s : System}
    (hreach : (machine c).Reachable Machine.always s) : Safe c (step c) Machine.always s := by
  obtain ⟨free, pools, hl⟩ := reachable_layout hreach
  refine ⟨⟨free, pools, hl.sound⟩, fun size vm s' hstep => ?_, fun base size vm s' _ hstep =>
    (step_realloc hl hstep).2, fun label s' _ hstep b hb hb' x hx => step_contents hl hstep hb hb' hx,
    fun size vm hpossible => malloc_defined hl hpossible,
    fun base size vm hpossible hbase => realloc_defined hl hpossible hbase⟩
  have hreturned := (step_malloc hl hstep).2
  refine ⟨hreturned, fun hbad => ?_⟩
  by_contra hne
  have hfits := hreturned.fits hne
  rcases hbad with rfl | hwrap | hlarge
  · simp at hfits
  · unfold headerSize at *
    omega
  · omega

end Runs

/-! ## A run -/

theorem three_lt_32 : 3 < 32 := by decide

/-- Pages of 8 bytes, pools of two pages. -/
def smallConfig : Config where
  pageShift := 3
  three_le := by decide
  lt_32 := three_lt_32
  mallocPoolSize := 2
  freeLists := 256
  freeLists_le := by decide

end MachFormal.Threads.Malloc
