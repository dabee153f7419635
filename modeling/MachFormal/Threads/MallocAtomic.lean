import MachFormal.Threads.MallocSafety

/-!
# A reallocation that fails

`realloc` frees the old block whether or not `malloc` has found another one.  The block
is therefore lost when the request cannot be served, and only then: the request stays
within the block, or a free list, a pool or the kernel has the memory for it.

A client that gets the null pointer still has its block, which is then on a free list as
well.  As long as no `realloc` of a live block fails, the allocator is safe for such
clients.
-/

namespace MachFormal.Threads.Malloc

open Library

/-! ## What is asked of a call -/

/-- The old block is still there: on no free list, with its bytes, and nothing is gone from
the free lists and the pools. -/
structure KeptAlive (h h' : Heap) (b : Block) : Prop where
  onNoList : ∀ i < nBuckets, ∀ nodes, Chain h'.mem (h'.heads i) nodes →
    b.base - headerSize ∉ nodes
  contents : SameOn b.range h.mem h'.mem
  lists : ∀ i < nBuckets, ∀ nodes, Chain h.mem (h.heads i) nodes →
    ∃ nodes', Chain h'.mem (h'.heads i) nodes' ∧ nodes ⊆ nodes'
  pools : ∀ pools, PoolChain h.mem h.pool h.poolSize pools →
    PoolChain h'.mem h'.pool h'.poolSize pools

/-- The old block is on its free list, once. -/
def GivenBack (h' : Heap) (b : Block) : Prop :=
  ∃ nodes, Chain h'.mem (h'.heads b.bucket) nodes ∧ nodes.count (b.base - headerSize) = 1

/-- A call of `realloc` that returned `result` has either moved the block or left it alone. -/
def ReallocAtomic (h h' : Heap) (b : Block) (result : Nat) : Prop :=
  (result = 0 → KeptAlive h h' b) ∧ (result ≠ 0 → result = b.base ∨ GivenBack h' b)

/-! ## What a call can be served with -/

/-- One of the pools has the amount left. -/
def PoolHas (h : Heap) (amount : Nat) : Prop :=
  ∃ pools, PoolChain h.mem h.pool h.poolSize pools ∧ ∃ r ∈ pools, amount ≤ r.2

/-- There is a free list for the size, and a block on it or memory for more of them. -/
def CanServe (c : Config) (h : Heap) (size : Nat) (vm : Option Nat) : Prop :=
  0 < size ∧ size + headerSize ≤ 2 ^ 31 ∧
    let bucket := findBucket (size + headerSize) nBuckets 0 minSize
    h.heads bucket.1 ≠ 0 ∨ PoolHas h (amountFor c bucket.2) ∨ vm ≠ none

/-- The new size has the free list of the old block. -/
def SameBucket (b : Block) (size : Nat) : Prop :=
  size ≤ 2 ^ (b.bucket + 3) - headerSize ∧ 2 ^ (b.bucket + 2) < (size + headerSize) % 2 ^ 32

/-! ## When `malloc` fails -/

section Failure

variable {c : Config} {h : Heap} {live : List Block} {free : Nat → List Nat} {pools : List Range}

theorem PoolTail.unique {mem : Mem} {q : Nat} {one two : List Range} (first : PoolTail mem q one)
    (second : PoolTail mem q two) : one = two := by
  induction one generalizing q two with
  | nil =>
      cases two with
      | nil => rfl
      | cons r rest => exact absurd (show q = 0 from first) second.2.1
  | cons r rest ih =>
      cases two with
      | nil => exact absurd (show q = 0 from second) first.2.1
      | cons r' rest' =>
          obtain ⟨start, -, size, next⟩ := first
          obtain ⟨start', -, size', next'⟩ := second
          rw [ih next next', Prod.ext (start.symm.trans start') (size.symm.trans size')]

theorem PoolChain.unique {mem : Mem} {pool poolSize : Nat} {one two : List Range}
    (first : PoolChain mem pool poolSize one) (second : PoolChain mem pool poolSize two) :
    one = two := by
  cases one with
  | nil =>
      cases two with
      | nil => rfl
      | cons r rest => exact absurd first.1 second.2.1
  | cons r rest =>
      cases two with
      | nil => exact absurd second.1 first.2.1
      | cons r' rest' =>
          obtain ⟨start, -, size, next⟩ := first
          obtain ⟨start', -, size', next'⟩ := second
          rw [next.unique next', Prod.ext (start.symm.trans start') (size.symm.trans size')]

theorem Layout.poolHas_iff (hl : Layout c h live free pools) {amount : Nat} :
    PoolHas h amount ↔ ∃ r ∈ pools, amount ≤ r.2 := by
  constructor
  · rintro ⟨pools', chain, room⟩
    rwa [chain.unique hl.poolChain] at room
  · exact fun room => ⟨pools, hl.poolChain, room⟩

/-- The loop over the pools finds nothing exactly when none of them has the amount. -/
theorem findPool_eq_none {mem : Mem} {amount prev : Nat} (fuel : Nat) {rest : List Range}
    (tail : PoolTail mem (load mem prev) rest) (enough : rest.length < fuel) :
    findPool mem amount fuel prev = some none ↔ ∀ r ∈ rest, r.2 < amount := by
  induction rest generalizing prev fuel with
  | nil =>
      obtain ⟨fuel, rfl⟩ : ∃ f, fuel = f + 1 := ⟨fuel - 1, by simp at enough; omega⟩
      have zero : load mem prev = 0 := tail
      simp [findPool, zero]
  | cons r rest ih =>
      obtain ⟨fuel, rfl⟩ : ∃ f, fuel = f + 1 := ⟨fuel - 1, by simp at enough; omega⟩
      obtain ⟨link, nonzero, size, next⟩ := tail
      rw [link] at nonzero size next
      have others := ih fuel next (by simp at enough; omega)
      simp only [findPool, link, if_neg nonzero, size, List.forall_mem_cons]
      by_cases fits : amount ≤ r.2
      · rw [if_pos fits]
        exact iff_of_false (fun same => by cases same) fun none => Nat.not_lt_of_le fits none.1
      · rw [if_neg fits, others]
        exact (and_iff_right (Nat.lt_of_not_le fits)).symm

/-- `more_memory` gets nothing exactly when no pool has the amount and the kernel refuses. -/
theorem Layout.takeMemory_eq_none (hl : Layout c h live free pools) {amount : Nat}
    (hpos : 0 < amount) (vm : Option Nat) :
    takeMemory c h amount vm = some (h, none) ↔ (∀ r ∈ pools, r.2 < amount) ∧ vm = none := by
  -- behind the first pool
  have later : (if h.pool ≠ 0 then findPool h.mem amount (2 ^ 32) h.pool else some none) =
      some none ↔ ∀ r ∈ pools.tail, r.2 < amount := by
    have length := hl.length_pools_le
    have chain := hl.poolChain
    cases pools with
    | nil => simp [chain.1]
    | cons r rest =>
        rw [if_pos chain.2.1, List.tail_cons]
        exact findPool_eq_none _ chain.2.2.2 (by simp only [List.length_cons] at length; omega)
  have whole : (∀ r ∈ pools, r.2 < amount) ↔ h.poolSize < amount ∧ ∀ r ∈ pools.tail, r.2 < amount := by
    have chain := hl.poolChain
    cases pools with
    | nil => simp [chain.2, hpos]
    | cons r rest => rw [List.forall_mem_cons, List.tail_cons, chain.2.2.1]
  rw [whole]
  unfold takeMemory
  by_cases room : amount ≤ h.poolSize
  · rw [if_pos room]
    refine iff_of_false ?_ fun few => Nat.not_lt_of_le room few.1.1
    dsimp only
    split <;> simp
  · rw [if_neg room, and_iff_right (Nat.lt_of_not_le room), ← later]
    generalize (if h.pool ≠ 0 then findPool h.mem amount (2 ^ 32) h.pool else some none) = found
    match found with
    | none => exact iff_of_false nofun nofun
    | some (some _) => exact iff_of_false (by simp) (by simp)
    | some none =>
        rw [and_iff_right rfl]
        cases vm with
        | none =>
            refine iff_of_true ?_ rfl
            dsimp only [vmAllocate]
            split <;> rfl
        | some address =>
            refine iff_of_false ?_ (by simp)
            dsimp only [vmAllocate]
            by_cases direct : c.poolBytes ≤ amount
            · rw [if_pos direct]
              split <;> simp
            · rw [if_neg direct]
              by_cases fresh : Fresh h.granted (address, c.poolBytes)
              · rw [if_pos fresh]
                simp
              · rw [if_neg fresh]
                simp

theorem Layout.malloc_eq_zero (hl : Layout c h live free pools) {size : Nat}
    (hword : size < 2 ^ 32) (vm : Option Nat) :
    malloc c h size vm = some (h, 0) ↔ ¬CanServe c h size vm := by
  unfold malloc CanServe
  dsimp only
  by_cases small : (size + headerSize) % 2 ^ 32 ≤ headerSize
  · rw [if_pos small]
    refine iff_of_true rfl fun ⟨positive, bound, _⟩ => ?_
    unfold headerSize at *
    omega
  · have sum : (size + headerSize) % 2 ^ 32 = size + headerSize := by
      unfold headerSize at *
      omega
    have positive : 0 < size := by
      unfold headerSize at *
      omega
    rw [if_neg small, sum, and_iff_right positive]
    rcases findBucket_cases (size + headerSize) with ⟨last, large⟩ | ⟨hi, hn, fit⟩
    · rw [if_pos last]
      exact iff_of_true rfl fun ⟨bound, _⟩ => Nat.not_lt_of_le bound large
    · rw [if_neg (Nat.ne_of_lt hi)]
      generalize findBucket (size + headerSize) nBuckets 0 minSize = bucket at *
      rw [hn] at fit
      rw [and_iff_right (Nat.le_trans fit (two_pow_bucket_le hi)), hn, hl.poolHas_iff]
      have popped : ∀ h' : Heap, (some (pop c h' bucket.1) : Option (Heap × Nat)) ≠ some (h, 0) :=
        fun h' same => Nat.succ_ne_zero _ (congrArg Prod.snd (Option.some.inj same))
      by_cases empty : h.heads bucket.1 = 0
      · rw [if_pos empty, or_iff_right (not_not.mpr empty)]
        have none_iff := hl.takeMemory_eq_none (amountFor_pos c (2 ^ (bucket.1 + 3))) vm
        have rest : ¬((∃ r ∈ pools, amountFor c (2 ^ (bucket.1 + 3)) ≤ r.2) ∨ vm ≠ none) ↔
            (∀ r ∈ pools, r.2 < amountFor c (2 ^ (bucket.1 + 3))) ∧ vm = none := by
          rw [not_or, not_not]
          simp only [not_exists, not_and, Nat.not_le]
        rw [rest, ← none_iff]
        unfold moreMemory
        dsimp only
        rw [← show amountFor c (2 ^ (bucket.1 + 3)) = _ from rfl]
        match takeMemory c h (amountFor c (2 ^ (bucket.1 + 3))) vm with
        | none => exact iff_of_false nofun nofun
        | some (h', none) =>
            simp only [Option.some.injEq, Prod.mk.injEq, and_true]
        | some (h', some address) => exact iff_of_false (popped _) nofun
      · rw [if_neg empty]
        exact iff_of_false (popped _) fun fails => fails (.inl empty)

end Failure

/-! ## When `realloc` loses the block -/

section Realloc

variable {c : Config} {h : Heap} {live : List Block} {free : Nat → List Nat} {pools : List Range}

theorem Layout.givenBack {b : Block} {nodes : List Nat} (hbucket : b.bucket < nBuckets)
    (hl : Layout c h live (Function.update free b.bucket ((b.base - headerSize) :: nodes)) pools) :
    GivenBack h b := by
  have chain := hl.chains b.bucket hbucket
  have distinct := (Layout.sound (s := ⟨h, live, 0⟩) hl).nodup b.bucket hbucket
  rw [Function.update_self] at chain distinct
  refine ⟨_, chain, ?_⟩
  rw [List.count_cons_self, List.count_eq_zero_of_not_mem (List.nodup_cons.mp distinct).1]

/-- A call of `realloc` for a live block moves it or leaves it alone exactly when the request
stays within the block or can be served. -/
theorem Layout.realloc_atomic {b : Block} (hl : Layout c h (b :: live) free pools) {size : Nat}
    (hword : size < 2 ^ 32) {vm : Option Nat} (possible : Possible c h size vm) :
    ∃ h' result, realloc c h b.base size vm = some (h', result) ∧
      (ReallocAtomic h h' b result ↔ SameBucket b size ∨ CanServe c h size vm) := by
  obtain ⟨hbucket, hbase, hload, -⟩ := hl.headers b List.mem_cons_self
  have nonnull : b.base ≠ 0 := by
    unfold headerSize at hbase
    omega
  have failure := hl.malloc_eq_zero hword vm
  unfold realloc
  rw [if_neg nonnull, listIndex_spec hbucket hload]
  dsimp only
  by_cases stays : SameBucket b size
  · have within : size ≤ 2 ^ (b.bucket + 3) - headerSize ∧
        2 ^ (b.bucket + 2) < (size + headerSize) % 2 ^ 32 := stays
    rw [if_pos within]
    exact ⟨h, b.base, rfl, iff_of_true ⟨fun null => absurd null nonnull, fun _ => .inl rfl⟩
      (.inl stays)⟩
  · have beyond : ¬(size ≤ 2 ^ (b.bucket + 3) - headerSize ∧
        2 ^ (b.bucket + 2) < (size + headerSize) % 2 ^ 32) := stays
    rw [if_neg beyond, or_iff_right stays]
    rcases malloc_spec hl hword vm with ⟨-, impossible⟩ | failed |
      ⟨h₁, base, bucket, free', pools', served, allocated⟩
    · exact absurd possible impossible
    · -- the block goes to its free list although nothing has replaced it
      rw [failed]
      obtain ⟨freed, -⟩ := free_spec hl
      refine ⟨Malloc.free c h b.base, 0, rfl, iff_of_false (fun atomic => ?_) (failure.mp failed)⟩
      refine (atomic.1 rfl).onNoList b.bucket hbucket _ (freed.chains b.bucket hbucket) ?_
      rw [Function.update_self]
      exact List.mem_cons_self
    · rw [served]
      obtain ⟨copied, -, -⟩ := copy_spec ⟨hbucket, hbase⟩ allocated
      obtain ⟨freed, -⟩ := free_spec copied
      dsimp only
      rw [if_pos allocated.nonnull]
      refine ⟨_, base, rfl, iff_of_true ⟨fun null => absurd null allocated.nonnull,
        fun _ => .inr (freed.givenBack hbucket)⟩ ?_⟩
      refine not_not.mp fun refused => allocated.nonnull ?_
      have nothing := failure.mpr refused
      rw [served] at nothing
      exact congrArg Prod.snd (Option.some.inj nothing)

end Realloc

/-! ## In every run -/

/-- In every state that a run reaches, for every live block and every new size: `realloc`
returns, and it is atomic exactly when the new size has the free list of the block or the
allocator can serve it. -/
theorem realloc_atomic_iff (c : Config) {s : System}
    (reachable : (machine c).Reachable Machine.always s) {b : Block} (member : b ∈ s.live)
    (size : UInt32) (vm : Option Nat) (possible : Possible c s.heap size.toNat vm) :
    ∃ h' result, realloc c s.heap b.base size.toNat vm = some (h', result) ∧
      (ReallocAtomic s.heap h' b result ↔
        SameBucket b size.toNat ∨ CanServe c s.heap size.toNat vm) := by
  obtain ⟨free, pools, hl⟩ := reachable_layout reachable
  obtain ⟨b', member', same, perm⟩ := drop_perm ⟨b, member, rfl⟩
  obtain rfl := hl.unique member' member same
  exact (hl.perm perm).realloc_atomic size.toNat_lt possible

/-- A block of eight bytes is allocated. -/
def oneBlock : List Label := [.malloc 1 (some 4096)]

theorem oneBlock_reaches : ∃ s, (machine smallConfig).run (initial (fun _ => 0)) oneBlock = some s ∧
    (machine smallConfig).Reachable Machine.always s ∧ s.live = [⟨4108, 1, 0⟩] ∧
    (malloc smallConfig s.heap 100 none).map Prod.snd = some 0 := by
  have ran : ((machine smallConfig).run (initial (fun _ => 0)) oneBlock).map (fun s =>
      (s.live, (malloc smallConfig s.heap 100 none).map Prod.snd)) =
      some ([⟨4108, 1, 0⟩], some 0) := by decide +kernel
  obtain ⟨s, reached, seen⟩ := Option.map_eq_some_iff.mp ran
  refine ⟨s, reached, .of_run oneBlock (.init ⟨_, rfl⟩) reached
    (Machine.meets_of_forall fun _ _ _ => trivial), congrArg Prod.fst seen, congrArg Prod.snd seen⟩

theorem realloc_atomic_oneBlock :
    ∃ s b h' result, (machine smallConfig).run (initial (fun _ => 0)) oneBlock = some s ∧
      b ∈ s.live ∧ realloc smallConfig s.heap b.base 2 none = some (h', result) ∧
      ReallocAtomic s.heap h' b result := by
  obtain ⟨s, reached, reachable, live, -⟩ := oneBlock_reaches
  have member : ⟨4108, 1, 0⟩ ∈ s.live := by
    rw [live]
    exact List.mem_cons_self
  obtain ⟨h', result, returned, atomic⟩ :=
    realloc_atomic_iff smallConfig reachable member 2 none nofun
  refine ⟨s, _, h', result, reached, member, returned, atomic.mpr (.inl ?_)⟩
  exact ⟨by decide, by decide⟩

/-- The kernel has no memory for 100 bytes: the block is on its free list, and the caller has
got a null pointer for it. -/
theorem realloc_frees_on_failure :
    ∃ s b h', (machine smallConfig).run (initial (fun _ => 0)) oneBlock = some s ∧
      b ∈ s.live ∧ realloc smallConfig s.heap b.base 100 none = some (h', 0) ∧
      ¬ReallocAtomic s.heap h' b 0 := by
  obtain ⟨s, reached, reachable, live, refused⟩ := oneBlock_reaches
  have member : ⟨4108, 1, 0⟩ ∈ s.live := by
    rw [live]
    exact List.mem_cons_self
  obtain ⟨free, pools, hl⟩ := reachable_layout reachable
  rw [live] at hl
  obtain ⟨freed, -⟩ := free_spec hl
  have failed : malloc smallConfig s.heap 100 none = some (s.heap, 0) := by
    rcases malloc_spec hl (show 100 < 2 ^ 32 by decide) none with ⟨nothing, -⟩ | failed |
      ⟨h', base, bucket, free', pools', served, allocated⟩
    · rw [nothing] at refused
      exact absurd refused nofun
    · exact failed
    · rw [served] at refused
      exact absurd (Option.some.inj refused) allocated.nonnull
  have list := listIndex_spec (by decide) (hl.headers _ List.mem_cons_self).2.2.1
  refine ⟨s, _, Malloc.free smallConfig s.heap 4108, reached, member, ?_, fun atomic => ?_⟩
  · unfold realloc
    rw [if_neg (by decide), list]
    dsimp only
    rw [if_neg (by decide), failed]
    rfl
  · refine (atomic.1 rfl).onNoList 0 (by decide) _ (freed.chains 0 (by decide)) ?_
    rw [Function.update_self]
    exact List.mem_cons_self

/-! ## Clients that keep their block -/

/-- A step of clients that still have their block after a `realloc` that fails. -/
def ownerStep (c : Config) (s : System) (label : Label) : Option System :=
  (step c s label).map fun s' =>
    match label with
    | .realloc _ _ _ => if s'.result = 0 then { s' with live := s.live } else s'
    | _ => s'

/-- The allocator with such clients. -/
def ownerMachine (c : Config) : Machine System Label where
  init := fun s => ∃ mem, s = initial mem
  step := ownerStep c

/-- A `realloc` of a live block keeps its free list, or can be served. -/
def Served (c : Config) (s : System) : Label → Prop
  | .realloc base size vm => ∀ b ∈ s.live, b.base = base →
      SameBucket b size.toNat ∨ CanServe c s.heap size.toNat vm
  | _ => True

section Owners

variable {c : Config} {s : System} {free : Nat → List Nat} {pools : List Range}

theorem Layout.realloc_ne_zero {h : Heap} {live : List Block} {b : Block}
    (hl : Layout c h (b :: live) free pools) {size : Nat} (hword : size < 2 ^ 32) {vm : Option Nat}
    (served : SameBucket b size ∨ CanServe c h size vm) {returned : Heap × Nat}
    (ran : realloc c h b.base size vm = some returned) : returned.2 ≠ 0 := by
  obtain ⟨hbucket, hbase, hload, -⟩ := hl.headers b List.mem_cons_self
  have nonnull : b.base ≠ 0 := by
    unfold headerSize at hbase
    omega
  unfold realloc at ran
  rw [if_neg nonnull, listIndex_spec hbucket hload] at ran
  dsimp only at ran
  split at ran
  next =>
    rw [← Option.some.inj ran]
    exact nonnull
  next beyond =>
    have able := served.resolve_left beyond
    rcases malloc_spec hl hword vm with ⟨nothing, -⟩ | failed |
      ⟨h₁, base, bucket, free', pools', found, allocated⟩
    · rw [nothing] at ran
      cases ran
    · exact absurd able ((hl.malloc_eq_zero hword vm).mp failed)
    · rw [found] at ran
      rw [← Option.some.inj ran]
      exact allocated.nonnull

/-- Where no `realloc` fails, these clients do what the others do. -/
theorem Layout.ownerStep_eq (hl : Layout c s.heap s.live free pools) {label : Label}
    (served : Served c s label) : ownerStep c s label = step c s label := by
  rw [ownerStep]
  cases label with
  | malloc size vm => exact Option.map_id'
  | free base => exact Option.map_id'
  | write address value => exact Option.map_id'
  | realloc base size vm =>
      cases stepped : step c s (.realloc base size vm) with
      | none => rfl
      | some s' =>
          refine congrArg some ?_
          dsimp only
          split
          next failed =>
            -- only a call for the null pointer can fail
            rw [step] at stepped
            split at stepped
            next named =>
              obtain ⟨returned, ran, rfl⟩ := Option.map_eq_some_iff.mp stepped
              have lost : drop s.live base = s.live := by
                refine List.eraseP_of_forall_not fun b member same => ?_
                have here : b.base = base := by simpa using same
                obtain ⟨b', member', same', perm⟩ := drop_perm ⟨b, member, here⟩
                have one := hl.unique member' member (same'.trans here.symm)
                subst one here
                exact (hl.perm perm).realloc_ne_zero size.toNat_lt (served b' member rfl) ran failed
              have null : returned.2 = 0 := failed
              rw [adopt, if_pos null, lost]
            next => cases stepped
          next => rfl

theorem reachable_of_served (reached : (ownerMachine c).Reachable (Served c) s) :
    (machine c).Reachable Machine.always s := by
  induction reached with
  | init initial => exact .init initial
  | step _ served stepped ih =>
      obtain ⟨free, pools, hl⟩ := reachable_layout ih
      exact .step ih trivial ((hl.ownerStep_eq served).symm.trans stepped)

end Owners

/-- In every run in which no `realloc` of a live block fails, the allocator is safe. -/
theorem safe_of_served (c : Config) {s : System}
    (reached : (ownerMachine c).Reachable (Served c) s) : Safe c (ownerStep c) (Served c) s := by
  have reached' := reachable_of_served reached
  obtain ⟨free, pools, hl⟩ := reachable_layout reached'
  have safe := allocator_safe c reached'
  have same (label : Label) (served : Served c s label) : ownerStep c s label = step c s label :=
    hl.ownerStep_eq served
  refine ⟨safe.sound, fun size vm s' stepped => ?_, fun base size vm s' served stepped => ?_,
    fun label s' served stepped => ?_, fun size vm possible => ?_,
    fun base size vm possible named => ?_⟩
  · rw [same (.malloc size vm) trivial] at stepped
    exact safe.malloc size vm s' stepped
  · rw [same _ served] at stepped
    exact safe.realloc base size vm s' trivial stepped
  · rw [same _ served] at stepped
    exact safe.contents label s' trivial stepped
  · rw [same (.malloc size vm) trivial]
    exact safe.mallocReturns size vm possible
  · obtain ⟨s', stepped⟩ := safe.reallocReturns base size vm possible named
    rw [ownerStep, stepped]
    exact ⟨_, rfl⟩

/-- A block is given back and used again, and another one grows. -/
def servedRun : List Label :=
  [.malloc 1 (some 4096), .malloc 4 none, .write 4100 7, .free 4108, .malloc 2 none,
    .realloc 4100 12 (some 8192)]

theorem safe_of_served_servedRun :
    ∃ s, (ownerMachine smallConfig).run (initial (fun _ => 0)) servedRun = some s ∧
      Safe smallConfig (ownerStep smallConfig) (Served smallConfig) s := by
  have ran : ((ownerMachine smallConfig).run (initial (fun _ => 0)) servedRun).isSome := by
    decide +kernel
  obtain ⟨s, reached⟩ := Option.isSome_iff_exists.mp ran
  refine ⟨s, reached, safe_of_served smallConfig (.of_run servedRun (.init ⟨_, rfl⟩) reached ?_)⟩
  refine ⟨trivial, trivial, trivial, trivial, trivial, fun b _ _ => .inr ?_, ?_⟩
  · exact ⟨by decide, by decide, .inr (.inr (by decide))⟩
  · split <;> trivial

/-- A failing `realloc` leaves a block that is live and on a free list. -/
theorem failed_realloc_unsafe : ¬∀ s, (ownerMachine smallConfig).Reachable Machine.always s →
    Safe smallConfig (ownerStep smallConfig) Machine.always s := by
  intro all
  have ran : ((ownerMachine smallConfig).run (initial (fun _ => 0))
      [.malloc 1 (some 4096), .realloc 4108 100 none]).map (fun s => (s.live, s.heap.heads 0)) =
      some ([⟨4108, 1, 0⟩], 4104) := by decide +kernel
  obtain ⟨s, reached, seen⟩ := Option.map_eq_some_iff.mp ran
  obtain ⟨live, head⟩ := Prod.mk.inj seen
  have safe := all s (.of_run _ (.init ⟨_, rfl⟩) reached
    (Machine.meets_of_forall fun _ _ _ => trivial))
  obtain ⟨free, pools, sound⟩ := safe.sound
  have chain := sound.layout.chains 0 (by decide)
  rw [head] at chain
  -- the list begins with the block
  cases nodes : free 0 with
  | nil =>
      rw [nodes] at chain
      exact absurd (show 4104 = 0 from chain) (by decide)
  | cons node rest =>
      rw [nodes] at chain
      have first : node ∈ free 0 := by
        rw [nodes]
        exact List.mem_cons_self
      refine sound.not_live 0 (by decide) node first ⟨4108, 1, 0⟩ ?_ chain.1
      rw [live]
      exact List.mem_cons_self

end MachFormal.Threads.Malloc
