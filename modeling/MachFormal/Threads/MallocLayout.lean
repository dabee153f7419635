import MachFormal.Threads.Malloc

/-!
# The layout of the memory of the allocator

The memory the allocator has got from the kernel holds live blocks, blocks on
free lists and what is left of the pools.  All these ranges are apart from each
other.  The routines move ranges from one kind to another, or split them, and
write inside the ranges they move only.
-/

namespace MachFormal.Threads.Malloc

open Library

/-! ## Pools -/

/-- The pools behind the first one, with the sizes in their headers. -/
def PoolTail (mem : Mem) : Nat → List Range → Prop
  | q, [] => q = 0
  | q, r :: rest => q = r.1 ∧ q ≠ 0 ∧ load mem (q + 4) = r.2 ∧ PoolTail mem (load mem q) rest

/-- All pools; the size of the first one is in a variable. -/
def PoolChain (mem : Mem) (pool poolSize : Nat) : List Range → Prop
  | [] => pool = 0 ∧ poolSize = 0
  | r :: rest => pool = r.1 ∧ pool ≠ 0 ∧ poolSize = r.2 ∧ PoolTail mem (load mem pool) rest

/-- A range that can hold the header of a pool. -/
def Roomy (r : Range) : Prop :=
  8 ≤ r.2 ∧ r.1 + r.2 ≤ 2 ^ 32

section Pools

variable {mem mem' : Mem} {q : Nat} {r : Range} {pools : List Range}

theorem Roomy.within_next (h : Roomy r) : Within (r.1, 4) r := by
  obtain ⟨hsize, -⟩ := h
  unfold Within
  simp only
  omega

theorem Roomy.within_size (h : Roomy r) : Within (r.1 + 4, 4) r := by
  obtain ⟨hsize, -⟩ := h
  unfold Within
  simp only
  omega

theorem within_start {a length size : Nat} (hle : length ≤ size) :
    Within (a, length) (a, size) :=
  ⟨Nat.le_refl _, Nat.add_le_add_left hle a⟩

theorem within_header (a : Nat) : Within (a, 4) (a, 8) :=
  within_start (by decide)

theorem PoolTail.congr (htail : PoolTail mem q pools) (hroomy : ∀ r ∈ pools, Roomy r)
    (hsame : ∀ r ∈ pools, SameOn r mem mem') : PoolTail mem' q pools := by
  induction pools generalizing q with
  | nil => exact htail
  | cons r rest ih =>
      obtain ⟨rfl, hne, hsize, hrest⟩ := htail
      have hr := hroomy r List.mem_cons_self
      have hs := hsame r List.mem_cons_self
      refine ⟨rfl, hne, (hs.load hr.within_size).trans hsize, ?_⟩
      rw [hs.load hr.within_next]
      exact ih hrest (fun r' h' => hroomy r' (List.mem_cons_of_mem r h'))
        (fun r' h' => hsame r' (List.mem_cons_of_mem r h'))

theorem PoolChain.congr {pool poolSize : Nat} (hchain : PoolChain mem pool poolSize pools)
    (hroomy : ∀ r ∈ pools, Roomy r) (hsame : ∀ r ∈ pools, SameOn r mem mem') :
    PoolChain mem' pool poolSize pools := by
  cases pools with
  | nil => exact hchain
  | cons r rest =>
      obtain ⟨rfl, hne, hsize, hrest⟩ := hchain
      refine ⟨rfl, hne, hsize, ?_⟩
      rw [(hsame r List.mem_cons_self).load (hroomy r List.mem_cons_self).within_next]
      exact hrest.congr (fun r' h' => hroomy r' (List.mem_cons_of_mem r h'))
        (fun r' h' => hsame r' (List.mem_cons_of_mem r h'))

/-- The last part of a range. -/
theorem within_last {amount : Nat} (h : amount ≤ r.2) :
    Within (r.1 + (r.2 - amount), amount) r := by
  unfold Within
  simp only
  omega

theorem within_first {amount : Nat} : Within (r.1, r.2 - amount) r := by
  unfold Within
  simp only
  omega

theorem apart_split {amount : Nat} :
    Apart (r.1 + (r.2 - amount), amount) (r.1, r.2 - amount) := by
  unfold Apart
  simp only
  omega

/-- What the search for a pool leaves behind: the amount it found, and the pools. -/
structure Found (mem mem' : Mem) (page amount prev address : Nat) (rest rest' : List Range) :
    Prop where
  tail : PoolTail mem' (load mem' prev) rest'
  apart : ((address, amount) :: rest').Pairwise Apart
  within : ∀ q ∈ (address, amount) :: rest', ∃ r ∈ rest, Within q r
  paged : ∀ q ∈ rest', page ∣ q.2 ∧ 0 < q.2
  same : ∀ x, ¬ Range.Has (prev, 4) x → (∀ r ∈ rest, ¬ r.Has x) → mem' x = mem x

/-- The whole pool is used up and leaves the chain. -/
theorem found_whole {page amount prev : Nat} {rest : List Range} (hroomy : Roomy r)
    (hrests : ∀ q ∈ rest, Roomy q) (hpaged : ∀ q ∈ rest, page ∣ q.2 ∧ 0 < q.2)
    (hprev : ∀ q ∈ r :: rest, Apart (prev, 8) q) (hapart : (r :: rest).Pairwise Apart)
    (htail : PoolTail mem (load mem r.1) rest) (hall : r.2 = amount) (value : Nat) :
    Found mem (store (store mem (r.1 + 4) value) prev (load (store mem (r.1 + 4) value) r.1))
      page amount prev r.1 (r :: rest) rest := by
  have hnext : load (store mem (r.1 + 4) value) r.1 = load mem r.1 :=
    (sameOn_store (show Apart (r.1, 4) (r.1 + 4, 4) from Or.inl (Nat.le_refl _)) mem value).load
      (Within.refl _)
  obtain ⟨hfirst, hrest⟩ := List.pairwise_cons.mp hapart
  have hsame : ∀ q ∈ rest, SameOn q mem
      (store (store mem (r.1 + 4) value) prev (load mem r.1)) := by
    intro q hq
    refine (sameOn_store ?_ mem value).trans (sameOn_store ?_ _ _)
    · exact ((hfirst q hq).mono hroomy.within_size).symm
    · exact ((hprev q (List.mem_cons_of_mem r hq)).mono (within_header prev)).symm
  rw [hnext]
  refine ⟨?_, ?_, ?_, hpaged, ?_⟩
  · rw [load_store _ _ (load_lt mem r.1)]
    exact htail.congr hrests hsame
  · rw [← hall]
    exact hapart
  · intro q hq
    rcases List.mem_cons.mp hq with rfl | hq
    · exact ⟨r, List.mem_cons_self, by rw [← hall]; exact Within.refl r⟩
    · exact ⟨q, List.mem_cons_of_mem r hq, Within.refl q⟩
  · intro x hx hout
    rw [store_of_not_has hx, store_of_not_has]
    exact fun hin => hout r List.mem_cons_self (hroomy.within_size.has hin)

/-- A part of the pool is used, and its header gets the new size. -/
theorem found_part {page amount prev : Nat} {rest : List Range} (hroomy : Roomy r)
    (hne : r.1 ≠ 0) (hrests : ∀ q ∈ rest, Roomy q)
    (hpaged : ∀ q ∈ r :: rest, page ∣ q.2 ∧ 0 < q.2) (hamount : page ∣ amount)
    (hprev : ∀ q ∈ r :: rest, Apart (prev, 8) q) (hapart : (r :: rest).Pairwise Apart)
    (hlink : load mem prev = r.1) (htail : PoolTail mem (load mem r.1) rest)
    (hle : amount ≤ r.2) (hleft : r.2 - amount ≠ 0) :
    Found mem (store mem (r.1 + 4) (r.2 - amount)) page amount prev (r.1 + (r.2 - amount))
      (r :: rest) ((r.1, r.2 - amount) :: rest) := by
  have hmine : Apart (prev, 8) r := hprev r List.mem_cons_self
  obtain ⟨hfirst, hrest⟩ := List.pairwise_cons.mp hapart
  have hsame : ∀ q : Range, Apart q (r.1 + 4, 4) → SameOn q mem
      (store mem (r.1 + 4) (r.2 - amount)) := fun q hq => sameOn_store hq mem _
  have hprevSame : load (store mem (r.1 + 4) (r.2 - amount)) prev = load mem prev := by
    refine (hsame (prev, 4) ?_).load (Within.refl _)
    exact ((hmine.mono (within_header prev)).symm.mono hroomy.within_size).symm
  have hnextSame : load (store mem (r.1 + 4) (r.2 - amount)) r.1 = load mem r.1 :=
    (hsame (r.1, 4) (Or.inl (Nat.le_refl _))).load (Within.refl _)
  refine ⟨?_, ?_, ?_, ?_, ?_⟩
  · rw [hprevSame, hlink]
    refine ⟨rfl, hne, load_store _ _ (by unfold Roomy at hroomy; omega), ?_⟩
    rw [hnextSame]
    refine htail.congr hrests (fun q hq => hsame q ?_)
    exact ((hfirst q hq).mono hroomy.within_size).symm
  · refine List.pairwise_cons.mpr ⟨fun q hq => ?_, List.pairwise_cons.mpr ⟨fun q hq => ?_, hrest⟩⟩
    · rcases List.mem_cons.mp hq with rfl | hq
      · exact apart_split
      · exact (hfirst q hq).mono (within_last hle)
    · exact (hfirst q hq).mono within_first
  · intro q hq
    rcases List.mem_cons.mp hq with rfl | hq
    · exact ⟨r, List.mem_cons_self, within_last hle⟩
    · rcases List.mem_cons.mp hq with rfl | hq
      · exact ⟨r, List.mem_cons_self, within_first⟩
      · exact ⟨q, List.mem_cons_of_mem r hq, Within.refl q⟩
  · intro q hq
    rcases List.mem_cons.mp hq with rfl | hq
    · exact ⟨(Nat.dvd_sub (hpaged r List.mem_cons_self).1 hamount), Nat.pos_of_ne_zero hleft⟩
    · exact hpaged q (List.mem_cons_of_mem r hq)
  · intro x _ hout
    refine store_of_not_has (fun hin => ?_)
    exact hout r List.mem_cons_self (hroomy.within_size.has hin)

/-- A pool that was passed over stays apart from what was found. -/
theorem Found.apart_cons {page amount prev address : Nat} {rest rest' : List Range}
    (hfound : Found mem mem' page amount prev address rest rest')
    (hfirst : ∀ q ∈ rest, Apart r q) : ((address, amount) :: r :: rest').Pairwise Apart := by
  have hwithin : ∀ q ∈ (address, amount) :: rest', Apart r q := by
    intro q hq
    obtain ⟨o, ho, hqo⟩ := hfound.within q hq
    exact ((hfirst o ho).symm.mono hqo).symm
  obtain ⟨hchunk, hrest'⟩ := List.pairwise_cons.mp hfound.apart
  refine List.pairwise_cons.mpr ⟨fun q hq => ?_,
    List.pairwise_cons.mpr ⟨fun q hq => hwithin q (List.mem_cons_of_mem _ hq), hrest'⟩⟩
  rcases List.mem_cons.mp hq with rfl | hq
  · exact (hwithin _ List.mem_cons_self).symm
  · exact hchunk q hq

theorem Found.within_cons {page amount prev address : Nat} {rest rest' : List Range}
    (hfound : Found mem mem' page amount prev address rest rest') (r : Range) :
    ∀ q ∈ (address, amount) :: r :: rest', ∃ o ∈ r :: rest, Within q o := by
  intro q hq
  rcases List.mem_cons.mp hq with rfl | hq
  · obtain ⟨o, ho, hqo⟩ := hfound.within _ List.mem_cons_self
    exact ⟨o, List.mem_cons_of_mem r ho, hqo⟩
  · rcases List.mem_cons.mp hq with rfl | hq
    · exact ⟨q, List.mem_cons_self, Within.refl q⟩
    · obtain ⟨o, ho, hqo⟩ := hfound.within q (List.mem_cons_of_mem _ hq)
      exact ⟨o, List.mem_cons_of_mem r ho, hqo⟩

/-- The search behind a pool that is too small. -/
theorem found_later {page amount prev address : Nat} {rest rest' : List Range}
    (hroomy : Roomy r) (hne : r.1 ≠ 0) (hpaged : page ∣ r.2 ∧ 0 < r.2)
    (hprev : ∀ q ∈ r :: rest, Apart (prev, 8) q) (hapart : (r :: rest).Pairwise Apart)
    (hlink : load mem prev = r.1) (hsize : load mem (r.1 + 4) = r.2)
    (hfound : Found mem mem' page amount r.1 address rest rest') :
    Found mem mem' page amount prev address (r :: rest) (r :: rest') := by
  obtain ⟨hfirst, hrest⟩ := List.pairwise_cons.mp hapart
  have hsame : ∀ q : Range, Apart q (r.1, 4) → (∀ o ∈ rest, Apart q o) → SameOn q mem mem' :=
    fun q hnext hothers x hx =>
      hfound.same x (hnext.not_has hx) (fun o ho => (hothers o ho).not_has hx)
  have hprevSame : SameOn (prev, 4) mem mem' := by
    refine hsame _ ?_ (fun o ho => (hprev o (List.mem_cons_of_mem r ho)).mono (within_header prev))
    exact (((hprev r List.mem_cons_self).mono (within_header prev)).symm.mono
      hroomy.within_next).symm
  have hsizeSame : SameOn (r.1 + 4, 4) mem mem' :=
    hsame _ (Or.inr (Nat.le_refl _)) (fun o ho => (hfirst o ho).mono hroomy.within_size)
  refine ⟨?_, hfound.apart_cons hfirst, hfound.within_cons r, ?_, ?_⟩
  · rw [hprevSame.load (Within.refl _), hlink]
    exact ⟨rfl, hne, (hsizeSame.load (Within.refl _)).trans hsize, hfound.tail⟩
  · intro q hq
    rcases List.mem_cons.mp hq with rfl | hq
    · exact hpaged
    · exact hfound.paged q hq
  · intro x _ hout
    refine hfound.same x (fun hin => ?_) (fun o ho => hout o (List.mem_cons_of_mem r ho))
    exact hout r List.mem_cons_self (hroomy.within_next.has hin)

/-- The loop over the pools ends, with nothing or with an amount taken from one of them. -/
theorem findPool_spec {page amount prev : Nat} (fuel : Nat) {rest : List Range}
    (hroomy : ∀ q ∈ rest, Roomy q) (hpaged : ∀ q ∈ rest, page ∣ q.2 ∧ 0 < q.2)
    (hamount : page ∣ amount) (hprev : ∀ q ∈ rest, Apart (prev, 8) q)
    (hapart : rest.Pairwise Apart) (htail : PoolTail mem (load mem prev) rest)
    (hfuel : rest.length < fuel) :
    findPool mem amount fuel prev = some none ∨
      ∃ mem' address rest', findPool mem amount fuel prev = some (some (mem', address)) ∧
        Found mem mem' page amount prev address rest rest' := by
  induction rest generalizing prev fuel with
  | nil =>
      obtain ⟨fuel, rfl⟩ : ∃ f, fuel = f + 1 := ⟨fuel - 1, by simp at hfuel; omega⟩
      have hzero : load mem prev = 0 := htail
      left
      simp [findPool, hzero]
  | cons r rest ih =>
      obtain ⟨fuel, rfl⟩ : ∃ f, fuel = f + 1 := ⟨fuel - 1, by simp at hfuel; omega⟩
      obtain ⟨hlink, hne, hsize, hnext⟩ := htail
      rw [hlink] at hne hsize hnext
      have hr := hroomy r List.mem_cons_self
      have hrests := fun q hq => hroomy q (List.mem_cons_of_mem r hq)
      have hprest := fun q hq => hpaged q (List.mem_cons_of_mem r hq)
      obtain ⟨hfirst, hrest⟩ := List.pairwise_cons.mp hapart
      simp only [findPool, hlink, if_neg hne, hsize]
      by_cases hle : amount ≤ r.2
      · right
        rw [if_pos hle]
        by_cases hleft : r.2 - amount = 0
        · rw [if_pos hleft]
          refine ⟨_, _, rest, rfl, ?_⟩
          have hzero : r.1 + (r.2 - amount) = r.1 := by omega
          rw [hzero]
          exact found_whole hr hrests hprest hprev hapart hnext (by omega) _
        · rw [if_neg hleft]
          exact ⟨_, _, _, rfl,
            found_part hr hne hrests hpaged hamount hprev hapart hlink hnext hle hleft⟩
      · rw [if_neg hle]
        have hprev' : ∀ q ∈ rest, Apart (r.1, 8) q := by
          intro q hq
          refine (hfirst q hq).mono ⟨Nat.le_refl _, ?_⟩
          have hbig := hr.1
          simp only
          omega
        rcases ih fuel hrests hprest hprev' hrest hnext (by simp at hfuel; omega) with
          hnone | ⟨mem', address, rest', hfind, hfound⟩
        · exact Or.inl hnone
        · exact Or.inr ⟨mem', address, r :: rest', hfind,
            found_later hr hne (hpaged r List.mem_cons_self) hprev hapart hlink hsize hfound⟩

end Pools

/-! ## The layout -/

/-- The blocks on the free lists. -/
def freePieces (free : Nat → List Nat) : List Range :=
  (List.range nBuckets).flatMap (fun i => (free i).map (fun block => (block, 2 ^ (i + 3))))

/-- The ranges that are blocks. -/
def blocks (live : List Block) (free : Nat → List Nat) : List Range :=
  freePieces free ++ live.map Block.range

/-- The lists `free` of blocks and the ranges `pools` are what the variables and the memory of
the allocator describe, and nothing overlaps. -/
structure Layout (c : Config) (h : Heap) (live : List Block) (free : Nat → List Nat)
    (pools : List Range) : Prop where
  chains : ∀ i < nBuckets, Chain h.mem (h.heads i) (free i)
  poolChain : PoolChain h.mem h.pool h.poolSize pools
  paged : ∀ r ∈ pools, c.vmPageSize ∣ r.2 ∧ 0 < r.2
  headers : ∀ b ∈ live, b.bucket < nBuckets ∧ headerSize ≤ b.base ∧
    load h.mem (b.base - headerSize) = c.freeList b.bucket ∧
    b.size + headerSize ≤ 2 ^ (b.bucket + 3)
  apart : (pools ++ blocks live free).Pairwise Apart
  inside : ∀ r ∈ pools ++ blocks live free, ∃ g ∈ h.granted, Within r g
  granted : ∀ g ∈ h.granted, 0 < g.1 ∧ g.1 + g.2 ≤ 2 ^ 32

section Layout

variable {c : Config} {h h' : Heap} {live : List Block} {free : Nat → List Nat}
  {pools pools' : List Range} {r : Range} {i : Nat}

theorem Config.eight_dvd (c : Config) : 8 ∣ c.vmPageSize :=
  pow_dvd_pow 2 c.three_le

theorem Config.page_pos (c : Config) : 0 < c.vmPageSize :=
  Nat.pow_pos (by decide)

theorem Layout.bounds (hl : Layout c h live free pools) (hr : r ∈ pools ++ blocks live free) :
    0 < r.1 ∧ r.1 + r.2 ≤ 2 ^ 32 := by
  obtain ⟨g, hg, hwithin⟩ := hl.inside r hr
  obtain ⟨hpos, hle⟩ := hl.granted g hg
  unfold Within at hwithin
  omega

theorem Layout.roomy (hl : Layout c h live free pools) (hr : r ∈ pools) : Roomy r := by
  obtain ⟨hdvd, hpos⟩ := hl.paged r hr
  exact ⟨Nat.le_of_dvd hpos (c.eight_dvd.trans hdvd),
    (hl.bounds (List.mem_append_left _ hr)).2⟩

theorem mem_freePieces {block : Nat} (hi : i < nBuckets) (hblock : block ∈ free i) :
    (block, 2 ^ (i + 3)) ∈ freePieces free :=
  List.mem_flatMap.mpr ⟨i, List.mem_range.mpr hi, List.mem_map.mpr ⟨block, hblock, rfl⟩⟩

theorem mem_blocks_free {block : Nat} (hi : i < nBuckets) (hblock : block ∈ free i) :
    (block, 2 ^ (i + 3)) ∈ blocks live free :=
  List.mem_append_left _ (mem_freePieces hi hblock)

theorem mem_blocks_live {b : Block} (hb : b ∈ live) : b.range ∈ blocks live free :=
  List.mem_append_right _ (List.mem_map_of_mem hb)

theorem eight_le_blockSize (i : Nat) : 8 ≤ 2 ^ (i + 3) :=
  Nat.pow_le_pow_right (show 0 < 2 by decide) (show 3 ≤ i + 3 by omega)

/-- The link or the free list pointer of a block is inside it. -/
theorem within_block (block i : Nat) : Within (block, 4) (block, 2 ^ (i + 3)) := by
  have hsize := eight_le_blockSize i
  unfold Within
  simp only
  omega

/-- A change of the pools that leaves the blocks alone. -/
theorem Layout.change_pools (hl : Layout c h live free pools) (hheads : h'.heads = h.heads)
    (hsame : ∀ q ∈ blocks live free, SameOn q h.mem h'.mem)
    (hpools : PoolChain h'.mem h'.pool h'.poolSize pools')
    (hpaged : ∀ q ∈ pools', c.vmPageSize ∣ q.2 ∧ 0 < q.2)
    (hapart : (pools' ++ blocks live free).Pairwise Apart)
    (hinside : ∀ q ∈ pools' ++ blocks live free, ∃ g ∈ h'.granted, Within q g)
    (hgranted : ∀ g ∈ h'.granted, 0 < g.1 ∧ g.1 + g.2 ≤ 2 ^ 32) :
    Layout c h' live free pools' := by
  refine ⟨fun i hi => ?_, hpools, hpaged, fun b hb => ?_, hapart, hinside, hgranted⟩
  · rw [hheads]
    refine (hl.chains i hi).congr (fun block hblock => ?_)
    exact (hsame _ (mem_blocks_free hi hblock)).load (within_block block i)
  · obtain ⟨hbucket, hbase, hload, hsize⟩ := hl.headers b hb
    refine ⟨hbucket, hbase, ?_, hsize⟩
    rw [← hload]
    exact (hsame _ (mem_blocks_live hb)).load (within_block _ _)

/-- What `more_memory` has got: the amount at an address, apart from everything else. -/
structure Taken (c : Config) (h h' : Heap) (live : List Block) (free : Nat → List Nat)
    (amount address : Nat) (pools' : List Range) : Prop where
  layout : Layout c h' live free pools'
  heads : h'.heads = h.heads
  apart : ((address, amount) :: (pools' ++ blocks live free)).Pairwise Apart
  inside : ∃ g ∈ h'.granted, Within (address, amount) g
  same : ∀ q ∈ blocks live free, SameOn q h.mem h'.mem

/-- The pools change within themselves. -/
theorem Layout.taken_within (hl : Layout c h live free pools) {amount address : Nat}
    (hheads : h'.heads = h.heads) (hgranted : h'.granted = h.granted)
    (hsame : ∀ q ∈ blocks live free, SameOn q h.mem h'.mem)
    (hpools : PoolChain h'.mem h'.pool h'.poolSize pools')
    (hpaged : ∀ q ∈ pools', c.vmPageSize ∣ q.2 ∧ 0 < q.2)
    (hapart : ((address, amount) :: pools').Pairwise Apart)
    (hwithin : ∀ q ∈ (address, amount) :: pools', ∃ r ∈ pools, Within q r) :
    Taken c h h' live free amount address pools' := by
  have hall : ((address, amount) :: pools' ++ blocks live free).Pairwise Apart :=
    pairwise_apart_refine hl.apart hapart hwithin
  have hin : ∀ q ∈ (address, amount) :: pools', ∃ g ∈ h'.granted, Within q g := by
    intro q hq
    obtain ⟨r, hr, hqr⟩ := hwithin q hq
    obtain ⟨g, hg, hrg⟩ := hl.inside r (List.mem_append_left _ hr)
    exact ⟨g, hgranted ▸ hg, hqr.trans hrg⟩
  refine ⟨?_, hheads, hall, hin _ List.mem_cons_self, hsame⟩
  refine hl.change_pools hheads hsame hpools hpaged (List.pairwise_cons.mp hall).2 ?_ ?_
  · intro q hq
    rcases List.mem_append.mp hq with hq | hq
    · exact hin q (List.mem_cons_of_mem _ hq)
    · rw [hgranted]
      exact hl.inside q (List.mem_append_right _ hq)
  · rw [hgranted]
    exact hl.granted

/-- A fresh region is apart from everything. -/
theorem Layout.fresh_apart (hl : Layout c h live free pools) (hfresh : Fresh h.granted r)
    {q : Range} (hq : q ∈ pools ++ blocks live free) : Apart r q := by
  obtain ⟨g, hg, hwithin⟩ := hl.inside q hq
  exact ((hfresh.2.2 g hg).symm.mono hwithin).symm

/-- There are fewer pools than addresses. -/
theorem Layout.length_pools_le (hl : Layout c h live free pools) : pools.length ≤ 2 ^ 32 := by
  have hpools := (List.pairwise_append.mp hl.apart).1
  have hnodup : (pools.map Prod.fst).Nodup := by
    refine List.pairwise_map.mpr (hpools.imp_of_mem (fun {r q} hr hq hrq => ?_))
    have hr' := hl.roomy hr
    have hq' := hl.roomy hq
    unfold Apart at hrq
    unfold Roomy at hr' hq'
    omega
  have hsubset : pools.map Prod.fst ⊆ List.range (2 ^ 32) := by
    intro a ha
    obtain ⟨r, hr, rfl⟩ := List.mem_map.mp ha
    have hroomy := hl.roomy hr
    unfold Roomy at hroomy
    exact List.mem_range.mpr (by omega)
  have hlength := (hnodup.subperm hsubset).length_le
  simpa using hlength

theorem Config.dvd_poolBytes (c : Config) : c.vmPageSize ∣ c.poolBytes := by
  have hword : c.vmPageSize ∣ 2 ^ 32 := pow_dvd_pow 2 (Nat.le_of_lt c.lt_32)
  exact (Nat.dvd_mod_iff hword).mpr (Nat.dvd_mul_right _ _)

/-- The first pool has room. -/
theorem Layout.take_first (hl : Layout c h live free pools) {amount : Nat}
    (hdvd : c.vmPageSize ∣ amount) (hpos : 0 < amount) (hroom : amount ≤ h.poolSize)
    (vm : Option Nat) :
    ∃ h' address pools', takeMemory c h amount vm = some (h', some address) ∧
      Taken c h h' live free amount address pools' := by
  cases pools with
  | nil =>
      obtain ⟨-, hzero⟩ := hl.poolChain
      omega
  | cons r rest =>
      obtain ⟨hpool, hne, hsize, htail⟩ := hl.poolChain
      have hpools := (List.pairwise_append.mp hl.apart).1
      obtain ⟨hfirst, hrest⟩ := List.pairwise_cons.mp hpools
      rw [hsize] at hroom
      unfold takeMemory
      rw [if_pos (hsize ▸ hroom)]
      by_cases hleft : h.poolSize - amount = 0
      · -- the pool is used up, and the next one becomes the first
        rw [if_pos hleft]
        refine ⟨_, _, rest, rfl, hl.taken_within rfl rfl (fun q _ => SameOn.refl q _) ?_
          (fun q hq => hl.paged q (List.mem_cons_of_mem r hq)) ?_ ?_⟩
        · cases rest with
          | nil =>
              have hzero : load h.mem h.pool = 0 := htail
              simp only [hzero, ne_eq, not_true_eq_false, if_false]
              exact ⟨rfl, hleft⟩
          | cons r' rest' =>
              obtain ⟨hlink, hne', hsize', htail'⟩ := htail
              simp only [ne_eq, hne', not_false_eq_true, if_true]
              exact ⟨hlink, hne', hsize', htail'⟩
        · have heq : (h.pool + (h.poolSize - amount), amount) = r := by
            ext
            · simp only
              omega
            · simp only
              omega
          rw [heq]
          exact hpools
        · intro q hq
          rcases List.mem_cons.mp hq with rfl | hq
          · refine ⟨r, List.mem_cons_self, ?_⟩
            rw [hpool, hsize]
            exact within_last hroom
          · exact ⟨q, List.mem_cons_of_mem r hq, Within.refl q⟩
      · rw [if_neg hleft]
        rw [hsize, hpool] at *
        refine ⟨_, _, (r.1, r.2 - amount) :: rest, rfl,
          hl.taken_within rfl rfl (fun q _ => SameOn.refl q _) ⟨hpool, hne, rfl, ?_⟩ ?_ ?_ ?_⟩
        · exact htail
        · intro q hq
          rcases List.mem_cons.mp hq with rfl | hq
          · exact ⟨Nat.dvd_sub (hl.paged r List.mem_cons_self).1 hdvd, Nat.pos_of_ne_zero hleft⟩
          · exact hl.paged q (List.mem_cons_of_mem r hq)
        · refine List.pairwise_cons.mpr ⟨fun q hq => ?_,
            List.pairwise_cons.mpr ⟨fun q hq => ?_, hrest⟩⟩
          · rcases List.mem_cons.mp hq with rfl | hq
            · exact apart_split
            · exact (hfirst q hq).mono (within_last hroom)
          · exact (hfirst q hq).mono within_first
        · intro q hq
          rcases List.mem_cons.mp hq with rfl | hq
          · exact ⟨r, List.mem_cons_self, within_last hroom⟩
          · rcases List.mem_cons.mp hq with rfl | hq
            · exact ⟨r, List.mem_cons_self, within_first⟩
            · exact ⟨q, List.mem_cons_of_mem r hq, Within.refl q⟩

/-- The search behind the first pool. -/
theorem Layout.take_later (hl : Layout c h live free pools) {amount : Nat}
    (hdvd : c.vmPageSize ∣ amount) :
    (if h.pool ≠ 0 then findPool h.mem amount (2 ^ 32) h.pool else some none) = some none ∨
      ∃ mem' address pools',
        (if h.pool ≠ 0 then findPool h.mem amount (2 ^ 32) h.pool else some none) =
          some (some (mem', address)) ∧
        Taken c h { h with mem := mem' } live free amount address pools' := by
  cases pools with
  | nil =>
      obtain ⟨hzero, -⟩ := hl.poolChain
      exact Or.inl (by simp [hzero])
  | cons r rest =>
      obtain ⟨hpool, hne, hsize, htail⟩ := hl.poolChain
      have hpools := (List.pairwise_append.mp hl.apart).1
      have hothers := (List.pairwise_append.mp hl.apart).2.2
      obtain ⟨hfirst, hrest⟩ := List.pairwise_cons.mp hpools
      have hroomy := hl.roomy (List.mem_cons_self (a := r) (l := rest))
      have hprev : ∀ q ∈ rest, Apart (h.pool, 8) q := by
        intro q hq
        refine (hfirst q hq).mono ⟨by rw [hpool], ?_⟩
        have hbig := hroomy.1
        rw [hpool]
        simp only
        omega
      have hlength := hl.length_pools_le
      rw [if_pos hne]
      rcases findPool_spec (2 ^ 32) (fun q hq => hl.roomy (List.mem_cons_of_mem r hq))
        (fun q hq => hl.paged q (List.mem_cons_of_mem r hq)) hdvd hprev hrest htail
        (by simp only [List.length_cons] at hlength; omega) with
        hnone | ⟨mem', address, rest', hfind, hfound⟩
      · exact Or.inl hnone
      · refine Or.inr ⟨mem', address, r :: rest', hfind, hl.taken_within rfl rfl ?_ ?_ ?_
          (hfound.apart_cons hfirst) (hfound.within_cons r)⟩
        · intro q hq x hx
          refine hfound.same x ?_ (fun o ho => ?_)
          · rw [hpool]
            exact ((hothers r List.mem_cons_self q hq).mono hroomy.within_next).symm.not_has hx
          · exact (hothers o (List.mem_cons_of_mem r ho) q hq).symm.not_has hx
        · exact ⟨hpool, hne, hsize, hfound.tail⟩
        · intro q hq
          rcases List.mem_cons.mp hq with rfl | hq
          · exact hl.paged _ List.mem_cons_self
          · exact hfound.paged q hq

/-- A region for the request alone. -/
theorem Layout.take_region (hl : Layout c h live free pools) {amount address : Nat}
    (hfresh : Fresh h.granted (address, amount)) :
    Taken c h { h with granted := (address, amount) :: h.granted } live free amount address
      pools := by
  have hgranted : ∀ g ∈ (address, amount) :: h.granted, 0 < g.1 ∧ g.1 + g.2 ≤ 2 ^ 32 := by
    intro g hg
    rcases List.mem_cons.mp hg with rfl | hg
    · exact ⟨hfresh.1, hfresh.2.1⟩
    · exact hl.granted g hg
  refine ⟨?_, rfl, ?_, ⟨_, List.mem_cons_self, Within.refl _⟩, fun q _ => SameOn.refl q _⟩
  · refine hl.change_pools rfl (fun q _ => SameOn.refl q _) hl.poolChain hl.paged hl.apart ?_
      hgranted
    intro q hq
    obtain ⟨g, hg, hqg⟩ := hl.inside q hq
    exact ⟨g, List.mem_cons_of_mem _ hg, hqg⟩
  · exact List.pairwise_cons.mpr ⟨fun q hq => hl.fresh_apart hfresh hq, hl.apart⟩

/-- The header of the first pool is completed, and a new pool is put before it. -/
theorem Layout.poolTail_new (hl : Layout c h live free pools) {newPool size : Nat}
    (hfresh : Fresh h.granted (newPool, size)) (hsize : 4 ≤ size) :
    PoolTail (store (if h.pool ≠ 0 then store h.mem (h.pool + 4) h.poolSize else h.mem) newPool
      h.pool) h.pool pools := by
  have hnew : ∀ r ∈ pools, Apart r (newPool, 4) := by
    intro r hr
    exact ((hl.fresh_apart hfresh (List.mem_append_left _ hr)).mono (within_start hsize)).symm
  cases pools with
  | nil =>
      obtain ⟨hzero, -⟩ := hl.poolChain
      exact hzero
  | cons r rest =>
      obtain ⟨hpool, hne, hlast, htail⟩ := hl.poolChain
      have hroomy := hl.roomy (List.mem_cons_self (a := r) (l := rest))
      have hapart := List.pairwise_cons.mp (List.pairwise_append.mp hl.apart).1
      have hmine := hnew r List.mem_cons_self
      rw [if_pos hne]
      refine ⟨hpool, hne, ?_, ?_⟩
      · rw [(sameOn_store (hmine.mono (hpool ▸ hroomy.within_size)) _ _).load (Within.refl _),
          load_store _ _ (by unfold Roomy at hroomy; omega), hlast]
      · rw [(sameOn_store (hmine.mono (hpool ▸ hroomy.within_next)) _ _).load (Within.refl _),
          (sameOn_store (Or.inl (Nat.le_refl _)) _ _).load (Within.refl _)]
        refine htail.congr (fun q hq => hl.roomy (List.mem_cons_of_mem r hq)) (fun q hq => ?_)
        refine (sameOn_store ?_ _ _).trans (sameOn_store (hnew q (List.mem_cons_of_mem r hq)) _ _)
        rw [hpool]
        exact ((hapart.1 q hq).mono hroomy.within_size).symm

theorem Layout.take_newPool (hl : Layout c h live free pools) {amount newPool : Nat}
    (hdvd : c.vmPageSize ∣ amount) (hlt : amount < c.poolBytes)
    (hfresh : Fresh h.granted (newPool, c.poolBytes)) :
    Taken c h
      { h with
        granted := (newPool, c.poolBytes) :: h.granted
        mem := store (if h.pool ≠ 0 then store h.mem (h.pool + 4) h.poolSize else h.mem) newPool
          h.pool
        pool := newPool
        poolSize := c.poolBytes - amount }
      live free amount (newPool + (c.poolBytes - amount))
      ((newPool, c.poolBytes - amount) :: pools) := by
  have hleft : c.vmPageSize ∣ c.poolBytes - amount := Nat.dvd_sub c.dvd_poolBytes hdvd
  have hbig : 8 ≤ c.poolBytes - amount :=
    Nat.le_of_dvd (by omega) (c.eight_dvd.trans hleft)
  have hgranted : ∀ g ∈ (newPool, c.poolBytes) :: h.granted, 0 < g.1 ∧ g.1 + g.2 ≤ 2 ^ 32 := by
    intro g hg
    rcases List.mem_cons.mp hg with rfl | hg
    · exact ⟨hfresh.1, hfresh.2.1⟩
    · exact hl.granted g hg
  have hpool : h.pool < 2 ^ 32 := by
    cases pools with
    | nil =>
        obtain ⟨hzero, -⟩ := hl.poolChain
        omega
    | cons r rest =>
        obtain ⟨hpool, -, -, -⟩ := hl.poolChain
        have hroomy := hl.roomy (List.mem_cons_self (a := r) (l := rest))
        unfold Roomy at hroomy
        omega
  -- the two parts of the new region
  have hparts : [(newPool + (c.poolBytes - amount), amount),
      (newPool, c.poolBytes - amount)].Pairwise Apart :=
    List.pairwise_cons.mpr ⟨fun q hq => by
      rw [List.mem_singleton.mp hq]
      exact @apart_split (newPool, c.poolBytes) amount, List.pairwise_singleton _ _⟩
  have hregion : ∀ q ∈ [(newPool + (c.poolBytes - amount), amount),
      (newPool, c.poolBytes - amount)], Within q (newPool, c.poolBytes) := by
    intro q hq
    rcases List.mem_cons.mp hq with rfl | hq
    · exact within_last (Nat.le_of_lt hlt)
    · rw [List.mem_singleton.mp hq]
      exact within_first
  have hall : ([(newPool + (c.poolBytes - amount), amount), (newPool, c.poolBytes - amount)] ++
      (pools ++ blocks live free)).Pairwise Apart := by
    refine pairwise_apart_refine ?_ hparts
      (fun q hq => ⟨_, List.mem_singleton_self _, hregion q hq⟩)
    exact List.pairwise_cons.mpr ⟨fun q hq => hl.fresh_apart hfresh hq, hl.apart⟩
  have hsame : ∀ q ∈ blocks live free, SameOn q h.mem
      (store (if h.pool ≠ 0 then store h.mem (h.pool + 4) h.poolSize else h.mem) newPool
        h.pool) := by
    intro q hq
    have hnew : Apart q (newPool, 4) :=
      ((hl.fresh_apart hfresh (List.mem_append_right _ hq)).mono (within_start (by omega))).symm
    refine SameOn.trans ?_ (sameOn_store hnew _ _)
    split
    · next hne =>
        cases pools with
        | nil => exact absurd hl.poolChain.1 hne
        | cons r rest =>
            obtain ⟨hpool, -, -, -⟩ := hl.poolChain
            have hroomy := hl.roomy (List.mem_cons_self (a := r) (l := rest))
            refine sameOn_store ?_ _ _
            rw [hpool]
            exact (((List.pairwise_append.mp hl.apart).2.2 r List.mem_cons_self q hq).mono
              hroomy.within_size).symm
    · exact SameOn.refl q _
  refine ⟨?_, rfl, hall, ⟨_, List.mem_cons_self, within_last (Nat.le_of_lt hlt)⟩, hsame⟩
  refine hl.change_pools rfl hsame ⟨rfl, Nat.ne_of_gt hfresh.1, rfl, ?_⟩ ?_
    (List.pairwise_cons.mp hall).2 ?_ hgranted
  · rw [load_store _ _ hpool]
    exact hl.poolTail_new hfresh (by omega)
  · intro q hq
    rcases List.mem_cons.mp hq with rfl | hq
    · exact ⟨hleft, by simp only; omega⟩
    · exact hl.paged q hq
  · intro q hq
    rcases List.mem_cons.mp hq with rfl | hq
    · exact ⟨_, List.mem_cons_self, within_first⟩
    · obtain ⟨g, hg, hqg⟩ := hl.inside q hq
      exact ⟨g, List.mem_cons_of_mem _ hg, hqg⟩

/-- The size of the region `more_memory` asks for. -/
def vmLength (c : Config) (amount : Nat) : Nat :=
  if c.poolBytes ≤ amount then amount else c.poolBytes

/-- `more_memory` gets an amount, or the kernel has no memory; there is no third outcome with
an answer that `vm_allocate` can give. -/
theorem takeMemory_spec (hl : Layout c h live free pools) {amount : Nat}
    (hdvd : c.vmPageSize ∣ amount) (hpos : 0 < amount) (vm : Option Nat) :
    (takeMemory c h amount vm = none ∧
        ∃ address, vm = some address ∧ ¬ Fresh h.granted (address, vmLength c amount)) ∨
      takeMemory c h amount vm = some (h, none) ∨
      ∃ h' address pools', takeMemory c h amount vm = some (h', some address) ∧
        Taken c h h' live free amount address pools' := by
  by_cases hroom : amount ≤ h.poolSize
  · exact Or.inr (Or.inr (hl.take_first hdvd hpos hroom vm))
  · unfold takeMemory
    rw [if_neg hroom]
    rcases hl.take_later hdvd with hnone | ⟨mem', address, pools', hfind, htaken⟩
    · rw [hnone]
      cases vm with
      | none => exact Or.inr (Or.inl (by simp [vmAllocate]))
      | some address =>
          by_cases hdirect : c.poolBytes ≤ amount
          · have hlength : vmLength c amount = amount := if_pos hdirect
            simp only [if_pos hdirect, vmAllocate, hlength]
            by_cases hfresh : Fresh h.granted (address, amount)
            · rw [if_pos hfresh]
              exact Or.inr (Or.inr ⟨_, _, pools, rfl, hl.take_region hfresh⟩)
            · rw [if_neg hfresh]
              exact Or.inl ⟨rfl, address, rfl, hfresh⟩
          · have hlength : vmLength c amount = c.poolBytes := if_neg hdirect
            simp only [if_neg hdirect, vmAllocate, hlength]
            by_cases hfresh : Fresh h.granted (address, c.poolBytes)
            · rw [if_pos hfresh]
              exact Or.inr (Or.inr ⟨_, _, _, rfl, hl.take_newPool hdvd (by omega) hfresh⟩)
            · rw [if_neg hfresh]
              exact Or.inl ⟨rfl, address, rfl, hfresh⟩
    · rw [hfind]
      exact Or.inr (Or.inr ⟨_, _, pools', rfl, htaken⟩)

end Layout

/-! ## Blocks -/

/-- A range that is neither a block nor part of a pool. -/
structure Loose (h : Heap) (live : List Block) (free : Nat → List Nat) (pools : List Range)
    (r : Range) : Prop where
  apart : (r :: (pools ++ blocks live free)).Pairwise Apart
  inside : ∃ g ∈ h.granted, Within r g

section Blocks

variable {c : Config} {h h' : Heap} {live live' : List Block} {free : Nat → List Nat}
  {pools : List Range} {r : Range} {i : Nat}

/-- The blocks on the other free lists. -/
def otherPieces (free : Nat → List Nat) (i : Nat) : List Range :=
  ((List.range nBuckets).erase i).flatMap
    (fun j => (free j).map (fun block => (block, 2 ^ (j + 3))))

theorem freePieces_perm (hi : i < nBuckets) (free : Nat → List Nat) :
    List.Perm (freePieces free)
      ((free i).map (fun block => (block, 2 ^ (i + 3))) ++ otherPieces free i) :=
  (List.perm_cons_erase (List.mem_range.mpr hi)).flatMap_right _

theorem otherPieces_update (free : Nat → List Nat) (nodes : List Nat) :
    otherPieces (Function.update free i nodes) i = otherPieces free i := by
  refine List.flatMap_congr (fun j hj => ?_)
  have hne : j ≠ i := ((List.nodup_range (n := nBuckets)).mem_erase_iff.mp hj).1
  rw [Function.update_of_ne hne]

/-- One block more on a free list. -/
theorem blocks_push (hi : i < nBuckets) (live : List Block) (free : Nat → List Nat) (block : Nat) :
    List.Perm (blocks live (Function.update free i (block :: free i)))
      ((block, 2 ^ (i + 3)) :: blocks live free) := by
  have hnew := freePieces_perm hi (Function.update free i (block :: free i))
  rw [otherPieces_update, Function.update_self, List.map_cons, List.cons_append] at hnew
  have hold := (freePieces_perm hi free).symm.cons ((block, 2 ^ (i + 3)) : Range)
  exact (hnew.trans hold).append_right (live.map Block.range)

theorem blocks_live_perm (hperm : List.Perm live live') (free : Nat → List Nat) :
    List.Perm (blocks live free) (blocks live' free) :=
  (hperm.map Block.range).append_left _

theorem blocks_cons (b : Block) (live : List Block) (free : Nat → List Nat) :
    List.Perm (blocks (b :: live) free) (b.range :: blocks live free) :=
  List.perm_middle

theorem Layout.head_lt (hl : Layout c h live free pools) (hi : i < nBuckets) :
    h.heads i < 2 ^ 32 := by
  have hchain := hl.chains i hi
  cases hnodes : free i with
  | nil =>
      rw [hnodes] at hchain
      have hzero : h.heads i = 0 := hchain
      omega
  | cons block rest =>
      have hmem : block ∈ free i := by rw [hnodes]; exact List.mem_cons_self
      have hbounds := hl.bounds (List.mem_append_right _ (mem_blocks_free hi hmem))
      have hsize := eight_le_blockSize i
      rw [hnodes] at hchain
      obtain ⟨hhead, -, -⟩ := hchain
      simp only at hbounds
      omega

theorem Loose.bounds (hl : Layout c h live free pools) (hloose : Loose h live free pools r) :
    0 < r.1 ∧ r.1 + r.2 ≤ 2 ^ 32 := by
  obtain ⟨g, hg, hwithin⟩ := hloose.inside
  obtain ⟨hpos, hle⟩ := hl.granted g hg
  unfold Within at hwithin
  omega

theorem Loose.apart_of_mem (hloose : Loose h live free pools r) {q : Range}
    (hq : q ∈ pools ++ blocks live free) : Apart q r :=
  ((List.pairwise_cons.mp hloose.apart).1 q hq).symm

/-- Writing the first word of a loose block. -/
theorem Loose.sameOn {block : Nat} (hloose : Loose h live free pools (block, 2 ^ (i + 3)))
    {q : Range} (hq : q ∈ pools ++ blocks live free) (value : Nat) :
    SameOn q h.mem (store h.mem block value) :=
  sameOn_store ((hloose.apart_of_mem hq).symm.mono (within_block block i)).symm _ _

theorem Layout.poolChain_same (hl : Layout c h live free pools) {mem' : Mem}
    (hsame : ∀ q ∈ pools ++ blocks live free, SameOn q h.mem mem') :
    PoolChain mem' h.pool h.poolSize pools :=
  hl.poolChain.congr (fun _ hr => hl.roomy hr) (fun r hr => hsame r (List.mem_append_left _ hr))

theorem Layout.headers_same (hl : Layout c h live free pools) {mem' : Mem}
    (hsame : ∀ q ∈ pools ++ blocks live free, SameOn q h.mem mem') {b : Block} (hb : b ∈ live) :
    b.bucket < nBuckets ∧ headerSize ≤ b.base ∧
      load mem' (b.base - headerSize) = c.freeList b.bucket ∧
      b.size + headerSize ≤ 2 ^ (b.bucket + 3) := by
  obtain ⟨hbucket, hbase, hload, hsize⟩ := hl.headers b hb
  refine ⟨hbucket, hbase, ?_, hsize⟩
  rw [← hload]
  exact (hsame _ (List.mem_append_right _ (mem_blocks_live hb))).load (within_block _ _)

theorem Layout.chain_same (hl : Layout c h live free pools) {mem' : Mem}
    (hsame : ∀ q ∈ pools ++ blocks live free, SameOn q h.mem mem') (hi : i < nBuckets) :
    Chain mem' (h.heads i) (free i) := by
  refine (hl.chains i hi).congr (fun block hblock => ?_)
  exact (hsame _ (List.mem_append_right _ (mem_blocks_free hi hblock))).load (within_block block i)

/-- A loose block is put on the free list of its size. -/
theorem Layout.push (hl : Layout c h live free pools) {block : Nat} (hi : i < nBuckets)
    (hloose : Loose h live free pools (block, 2 ^ (i + 3))) :
    Layout c (push h i block) live (Function.update free i (block :: free i)) pools := by
  have hsame := fun q hq => hloose.sameOn (q := q) hq (h.heads i)
  have hbounds := hloose.bounds hl
  have hperm : List.Perm (pools ++ blocks live (Function.update free i (block :: free i)))
      ((block, 2 ^ (i + 3)) :: (pools ++ blocks live free)) :=
    ((blocks_push hi live free block).append_left pools).trans List.perm_middle
  refine ⟨fun j hj => ?_, hl.poolChain_same hsame, hl.paged, fun b hb => hl.headers_same hsame hb,
    hperm.symm.pairwise hloose.apart Apart.symm, fun q hq => ?_, hl.granted⟩
  · by_cases hji : j = i
    · subst hji
      simp only [Malloc.push, Function.update_self]
      refine (hl.chains j hj).push (hl.head_lt hj) (Nat.ne_of_gt hbounds.1) (fun n hn => ?_)
      have hapart := hloose.apart_of_mem (List.mem_append_right _ (mem_blocks_free hj hn))
      exact ((hapart.mono (within_block n j)).symm.mono (within_block block j)).symm
    · simp only [Malloc.push, Function.update_of_ne hji]
      exact hl.chain_same hsame hj
  · rcases List.mem_cons.mp (hperm.mem_iff.mp hq) with rfl | hq
    · exact hloose.inside
    · exact hl.inside q hq

/-- A loose range is cut into blocks, which are put on a free list. -/
theorem Layout.pushBlocks (hl : Layout c h live free pools) (hi : i < nBuckets) (n address : Nat)
    (hloose : Loose h live free pools (address, n * 2 ^ (i + 3))) :
    ∃ free', Layout c (pushBlocks i (2 ^ (i + 3)) n address h) live free' pools ∧
      (0 < n → free' i ≠ []) ∧
      ∀ q ∈ pools ++ blocks live free,
        SameOn q h.mem (pushBlocks i (2 ^ (i + 3)) n address h).mem := by
  induction n generalizing address h free with
  | zero => exact ⟨free, hl, fun hn => absurd hn (by decide), fun q _ => SameOn.refl q _⟩
  | succ n ih =>
      have hsplit : (n + 1) * 2 ^ (i + 3) = 2 ^ (i + 3) + n * 2 ^ (i + 3) := by ring
      obtain ⟨hothers, hrest⟩ := List.pairwise_cons.mp hloose.apart
      have hfirst : Within (address, 2 ^ (i + 3)) (address, (n + 1) * 2 ^ (i + 3)) :=
        within_start (by omega)
      have hlast : Within (address + 2 ^ (i + 3), n * 2 ^ (i + 3))
          (address, (n + 1) * 2 ^ (i + 3)) := by
        refine ⟨Nat.le_add_right _ _, Nat.le_of_eq ?_⟩
        simp only [hsplit]
        ring
      obtain ⟨g, hg, hin⟩ := hloose.inside
      have hblock : Loose h live free pools (address, 2 ^ (i + 3)) :=
        ⟨List.pairwise_cons.mpr ⟨fun q hq => (hothers q hq).mono hfirst, hrest⟩,
          g, hg, hfirst.trans hin⟩
      have hperm := (blocks_push hi live free address).append_left pools
      have hmore : Loose (Malloc.push h i address) live
          (Function.update free i (address :: free i)) pools
          (address + 2 ^ (i + 3), n * 2 ^ (i + 3)) := by
        refine ⟨?_, g, hg, hlast.trans hin⟩
        refine ((hperm.trans List.perm_middle).cons _).symm.pairwise ?_ Apart.symm
        refine List.pairwise_cons.mpr ⟨fun q hq => ?_, hblock.apart⟩
        rcases List.mem_cons.mp hq with rfl | hq
        · exact Or.inr (Nat.le_refl _)
        · exact (hothers q hq).mono hlast
      obtain ⟨free', hlayout, hnonempty, hsame⟩ := ih (hl.push hi hblock) _ hmore
      refine ⟨free', hlayout, fun _ => ?_, fun q hq => ?_⟩
      · cases n with
        | zero =>
            have hchain := hlayout.chains i hi
            intro hnil
            rw [hnil] at hchain
            have hzero : address = 0 := by
              have hhead : (Malloc.pushBlocks i (2 ^ (i + 3)) 0 (address + 2 ^ (i + 3))
                  (Malloc.push h i address)).heads i = 0 := hchain
              simpa [Malloc.pushBlocks, Malloc.push] using hhead
            exact absurd hzero (Nat.ne_of_gt (hblock.bounds hl).1)
        | succ n => exact hnonempty (Nat.succ_pos n)
      · refine (hblock.sameOn hq (h.heads i)).trans (hsame q ?_)
        exact (hperm.trans List.perm_middle).mem_iff.mpr (List.mem_cons_of_mem _ hq)

/-- The first block of a free list is taken off the list. -/
theorem Layout.unlink (hl : Layout c h live free pools) (hi : i < nBuckets)
    (hnonempty : h.heads i ≠ 0) :
    Layout c { h with heads := Function.update h.heads i (load h.mem (h.heads i)) } live
        (Function.update free i (free i).tail) pools ∧
      Loose h live (Function.update free i (free i).tail) pools (h.heads i, 2 ^ (i + 3)) := by
  have hchain := hl.chains i hi
  cases hnodes : free i with
  | nil => exact absurd (hchain.eq_nil_iff.mpr hnodes) hnonempty
  | cons block rest =>
      have hmem : block ∈ free i := by rw [hnodes]; exact List.mem_cons_self
      rw [hnodes] at hchain
      obtain ⟨hhead, hne, hrest⟩ := hchain
      have hback : Function.update (Function.update free i rest) i
          (block :: Function.update free i rest i) = free := by
        rw [Function.update_self, Function.update_idem, ← hnodes, Function.update_eq_self]
      have hperm : List.Perm (pools ++ blocks live free)
          ((block, 2 ^ (i + 3)) :: (pools ++ blocks live (Function.update free i rest))) := by
        have hpush := blocks_push hi live (Function.update free i rest) block
        rw [hback] at hpush
        exact (hpush.append_left pools).trans List.perm_middle
      have hapart := hperm.pairwise hl.apart Apart.symm
      rw [List.tail_cons, hhead]
      refine ⟨⟨fun j hj => ?_, hl.poolChain, hl.paged, hl.headers,
        (List.pairwise_cons.mp hapart).2, fun q hq => ?_, hl.granted⟩, hapart, ?_⟩
      · by_cases hji : j = i
        · subst hji
          simp only [Function.update_self]
          exact hrest
        · simp only [Function.update_of_ne hji]
          exact hl.chains j hj
      · exact hl.inside q (hperm.mem_iff.mpr (List.mem_cons_of_mem _ hq))
      · exact hl.inside _ (hperm.mem_iff.mpr List.mem_cons_self)

/-- A loose block gets the address of its free list and belongs to a client. -/
theorem Layout.give (hl : Layout c h live free pools) {block size : Nat} (hi : i < nBuckets)
    (hsize : size + headerSize ≤ 2 ^ (i + 3))
    (hloose : Loose h live free pools (block, 2 ^ (i + 3))) :
    Layout c { h with mem := store h.mem block (c.freeList i) }
      (⟨block + headerSize, size, i⟩ :: live) free pools := by
  have hsame := fun q hq => hloose.sameOn (q := q) hq (c.freeList i)
  have hrange : Block.range ⟨block + headerSize, size, i⟩ = (block, 2 ^ (i + 3)) := by
    simp [Block.range]
  have hperm : List.Perm (pools ++ blocks (⟨block + headerSize, size, i⟩ :: live) free)
      ((block, 2 ^ (i + 3)) :: (pools ++ blocks live free)) := by
    rw [← hrange]
    exact ((blocks_cons _ live free).append_left pools).trans List.perm_middle
  have hword : c.freeList i < 2 ^ 32 := by
    have hle := c.freeLists_le
    unfold Config.freeList
    omega
  refine ⟨fun j hj => hl.chain_same hsame hj, hl.poolChain_same hsame, hl.paged, fun b hb => ?_,
    hperm.symm.pairwise hloose.apart Apart.symm, fun q hq => ?_, hl.granted⟩
  · rcases List.mem_cons.mp hb with rfl | hb
    · refine ⟨hi, Nat.le_add_left _ _, ?_, hsize⟩
      simp only [Nat.add_sub_cancel]
      exact load_store _ _ hword
    · exact hl.headers_same hsame hb
  · rcases List.mem_cons.mp (hperm.mem_iff.mp hq) with rfl | hq
    · exact hloose.inside
    · exact hl.inside q hq

/-- The order of the live blocks does not matter. -/
theorem Layout.perm (hl : Layout c h live free pools) (hperm : List.Perm live live') :
    Layout c h live' free pools := by
  have hblocks := (blocks_live_perm hperm free).append_left pools
  exact ⟨hl.chains, hl.poolChain, hl.paged, fun b hb => hl.headers b (hperm.mem_iff.mpr hb),
    hblocks.pairwise hl.apart Apart.symm, fun q hq => hl.inside q (hblocks.mem_iff.mpr hq),
    hl.granted⟩

/-- A client gives up a block. -/
theorem Layout.leave {b : Block} (hl : Layout c h (b :: live) free pools) :
    Layout c h live free pools ∧ Loose h live free pools b.range := by
  have hperm : List.Perm (pools ++ blocks (b :: live) free)
      (b.range :: (pools ++ blocks live free)) :=
    ((blocks_cons b live free).append_left pools).trans List.perm_middle
  have hapart := hperm.pairwise hl.apart Apart.symm
  refine ⟨⟨hl.chains, hl.poolChain, hl.paged,
    fun b' hb' => hl.headers b' (List.mem_cons_of_mem b hb'), (List.pairwise_cons.mp hapart).2,
    fun q hq => hl.inside q (hperm.mem_iff.mpr (List.mem_cons_of_mem _ hq)), hl.granted⟩,
    hapart, hl.inside _ (hperm.mem_iff.mpr List.mem_cons_self)⟩

/-- A client writes to its own block, behind the header. -/
theorem Layout.write {b : Block} (hl : Layout c h (b :: live) free pools) {mem' : Mem}
    (hown : ∀ x, ¬ Range.Has (b.base, 2 ^ (b.bucket + 3) - headerSize) x → mem' x = h.mem x) :
    Layout c { h with mem := mem' } (b :: live) free pools ∧
      ∀ q ∈ pools ++ blocks live free, SameOn q h.mem mem' := by
  obtain ⟨hrest, hloose⟩ := hl.leave
  obtain ⟨hbucket, hbase, hload, hsize⟩ := hl.headers b List.mem_cons_self
  have hbody : Within (b.base, 2 ^ (b.bucket + 3) - headerSize) b.range := by
    have hbig := eight_le_blockSize b.bucket
    unfold Within Block.range headerSize at *
    simp only
    omega
  have hsame : ∀ q ∈ pools ++ blocks live free, SameOn q h.mem mem' := by
    intro q hq x hx
    exact hown x (fun hin => (hloose.apart_of_mem hq).not_has hx (hbody.has hin))
  refine ⟨⟨fun j hj => hrest.chain_same hsame hj, hrest.poolChain_same hsame, hl.paged,
    fun b' hb' => ?_, hl.apart, hl.inside, hl.granted⟩, hsame⟩
  rcases List.mem_cons.mp hb' with rfl | hb'
  · refine ⟨hbucket, hbase, ?_, hsize⟩
    rw [← hload]
    -- the header lies before the bytes of the client
    have hheader : SameOn (b'.base - headerSize, 4) h.mem mem' := by
      intro x hx
      refine hown x (fun hin => ?_)
      unfold Range.Has headerSize at *
      simp only at hx hin
      omega
    exact hheader.load (Within.refl _)
  · exact hrest.headers_same hsame hb'

end Blocks

end MachFormal.Threads.Malloc
