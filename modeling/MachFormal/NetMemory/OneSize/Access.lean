import MachFormal.Library.ReadersWriters
import MachFormal.NetMemory.OneSize.Units

/-!
# The scheduler for kernels of one page size: access

A unit is a readers-writer lock for the kernels: `use`, `user` and the sets of
waiters of its first page say who has it and what the others wait for, and every
word of the lock is a message, or several where a kernel has smaller pages than
the scheduler.  This part follows the messages while a page is given to a kernel.
-/

namespace MachFormal.NetMemory.OneSize

open Library.ReadersWriters

variable {u : Nat}

/-- The kernels by number, in the order of `SET_FORALL`. -/
def kernels : List Nat := List.range 32

def reading (readers : BitVec 32) (kernel : Nat) : Access :=
  if setMember readers kernel then .read else .none

/-- The access of a kernel to a page, by the books of the scheduler. -/
def accessOf (page : MinPage) (kernel : Nat) : Access :=
  match page.use with
  | .none => .none
  | .read => reading page.readers kernel
  | .write => if page.writer = kernel then .write else .none

/-! ## Messages -/

/-- The messages with the data of a page, newest first. -/
def supplies (info : Kernel) (offset : Nat) (prot : Kind) : List Message :=
  if info.realPageSize < minPageSize then
    ((List.range ((minPageSize + info.realPageSize - 1) / info.realPageSize)).map fun piece =>
      ⟨info.requestPort, prot, offset + piece * info.realPageSize, info.realPageSize⟩).reverse
  else [⟨info.requestPort, prot, offset, info.realPageSize⟩]

/-- The messages for a word about unit `j`, newest first. -/
def render (u : Nat) (info : Nat → Kernel) (j : Nat) : Word Nat → List Message
  | .grant kernel false _ => supplies (info kernel) (pageToOffset (u * j)) .supplyRead
  | .grant kernel true true => supplies (info kernel) (pageToOffset (u * j)) .supplyAll
  | .grant kernel true false =>
      [⟨(info kernel).requestPort, .unlockWriter, pageToOffset (u * j), u * minPageSize⟩]
  | .flush kernel =>
      [⟨(info kernel).requestPort, .lockReader, pageToOffset (u * j), u * minPageSize⟩]
  | .recall kernel =>
      [⟨(info kernel).requestPort, .lockWriter, pageToOffset (u * j), u * minPageSize⟩]

/-- The log after some more words, the oldest of them first. -/
def tell (u : Nat) (info : Nat → Kernel) (j : Nat) (words : List (Word Nat))
    (sent : List Message) : List Message :=
  words.foldl (fun sent word => render u info j word ++ sent) sent

section Messages

variable {object : Object} {j : Nat} {info : Nat → Kernel} {sent : List Message}

theorem tell_append (words more : List (Word Nat)) :
    tell u info j (words ++ more) sent = tell u info j more (tell u info j words sent) :=
  List.foldl_append

theorem tell_concat (words : List (Word Nat)) (word : Word Nat) :
    tell u info j (words ++ [word]) sent =
      render u info j word ++ tell u info j words sent := tell_append words [word]

theorem foldl_send (kernel : Nat) (prot : Kind) (offset length : Nat → Nat) (pieces : List Nat)
    (object : Object) :
    pieces.foldl (fun object piece => object.send kernel prot (offset piece) (length piece))
        object =
      { object with
        sent := (pieces.map fun piece => (⟨(object.kerninfo kernel).requestPort, prot,
          offset piece, length piece⟩ : Message)).reverse ++ object.sent } := by
  induction pieces generalizing object with
  | nil => rfl
  | cons piece pieces ih =>
      rw [List.foldl_cons, ih, List.map_cons, List.reverse_cons, List.append_assoc]
      rfl

theorem dataProvided_eq (object : Object) (kernel offset : Nat) (prot : Kind) :
    object.dataProvided kernel offset prot =
      { object with sent := supplies (object.kerninfo kernel) offset prot ++ object.sent } := by
  unfold Object.dataProvided supplies
  dsimp only
  split
  · exact foldl_send kernel prot (fun piece => offset + piece * _) (fun _ => _) _ object
  · rfl

end Messages

/-! ## Changes of one unit -/

/-- Whoever waits for a page still does. -/
def KeepsWaiters (object object' : Object) : Prop :=
  ∀ page, (object'.minPages page).writeWaiters = (object.minPages page).writeWaiters ∧
    (object'.minPages page).dataWaiters = (object.minPages page).dataWaiters

section Changes

variable {j kernel : Nat} {object object' object'' : Object} {use : Use} {user : BitVec 32}
  {head tail : Option Nat}

theorem KeepsWaiters.refl (object : Object) : KeepsWaiters object object := fun _ => ⟨rfl, rfl⟩

theorem KeepsWaiters.trans (first : KeepsWaiters object object')
    (second : KeepsWaiters object' object'') : KeepsWaiters object object'' :=
  fun page => ⟨(second page).1.trans (first page).1, (second page).2.trans (first page).2⟩

theorem keepsWaiters_setUnit {change : MinPage → MinPage}
    (same : ∀ page, (change page).writeWaiters = page.writeWaiters ∧
      (change page).dataWaiters = page.dataWaiters) :
    KeepsWaiters object (setUnit u object j change) := by
  intro page
  dsimp only [setUnit]
  split
  · exact same _
  · exact ⟨rfl, rfl⟩

theorem KeepsWaiters.log (keeps : KeepsWaiters object object') (sent : List Message) :
    KeepsWaiters object { object' with sent := sent } := keeps

theorem setUnit_first (hu : 0 < u) (object : Object) (j : Nat) (change : MinPage → MinPage) :
    (setUnit u object j change).minPages (u * j) = change (object.minPages (u * j)) :=
  if_pos (Nat.mul_div_cancel_left j hu)

theorem Looks.use_first (looks : Looks u object j use user head tail) (hu : 0 < u) :
    (object.minPages (u * j)).use = use := by
  have first := looks.use 0 hu
  rwa [Nat.add_zero] at first

theorem Looks.user_first (looks : Looks u object j use user head tail) (hu : 0 < u) :
    (object.minPages (u * j)).user = user := by
  have first := looks.user 0 hu
  rwa [Nat.add_zero] at first

theorem setMember_large (set : BitVec 32) {elt : Nat} (large : 32 ≤ elt) :
    setMember set elt = false := BitVec.getLsbD_of_ge set elt large

theorem accessOf_congr {page page' : MinPage} (use : page'.use = page.use)
    (user : page'.user = page.user) : accessOf page' = accessOf page := by
  funext k
  rw [accessOf, accessOf, MinPage.readers, MinPage.readers, MinPage.writer, MinPage.writer, use,
    user]

theorem accessOf_none {page : MinPage} (free : page.use = .none) :
    accessOf page = fun _ => .none := by
  funext k
  rw [accessOf, free]

theorem accessOf_write {page : MinPage} (writes : page.use = .write) :
    accessOf page = Function.update (fun _ => .none) page.writer .write := by
  funext k
  rw [accessOf, writes]
  dsimp only
  by_cases self : k = page.writer
  · rw [self, Function.update_self, if_pos rfl]
  · rw [Function.update_of_ne self, if_neg (Ne.symm self)]

theorem accessOf_read {page : MinPage} (reads : page.use = .read) :
    accessOf page = reading page.user := by
  funext k
  rw [accessOf, reads]
  rfl

theorem accessOf_eq_write {page : MinPage} {k : Nat} :
    accessOf page k = .write ↔ page.use = .write ∧ page.writer = k := by
  cases current : page.use with
  | none =>
      rw [accessOf_none current]
      exact ⟨nofun, nofun⟩
  | read =>
      rw [accessOf_read current, reading]
      split
      · exact ⟨nofun, nofun⟩
      · exact ⟨nofun, nofun⟩
  | write =>
      rw [accessOf, current]
      dsimp only
      split
      · next same => exact ⟨fun _ => ⟨rfl, same⟩, fun _ => rfl⟩
      · next other => exact ⟨nofun, fun both => absurd both.2 other⟩

theorem reading_eq_read {readers : BitVec 32} {k : Nat} :
    reading readers k = .read ↔ setMember readers k = true := by
  rw [reading]
  split
  · next member => exact ⟨fun _ => member, fun _ => rfl⟩
  · next other => exact ⟨nofun, fun member => absurd member other⟩

theorem reading_zero : reading 0 = fun _ => .none := by
  funext k
  exact if_neg (by simp [setMember])

theorem reading_setAdd (readers : BitVec 32) (small : kernel < 32) :
    reading (setAdd readers kernel) = Function.update (reading readers) kernel .read := by
  funext k
  by_cases self : k = kernel
  · rw [self, Function.update_self, reading_eq_read, setMember_setAdd _ small]
    simp
  · rw [Function.update_of_ne self, reading, reading]
    rcases Nat.lt_or_ge k 32 with below | large
    · rw [setMember_setAdd _ below, decide_eq_false (Ne.symm self), Bool.or_false]
    · rw [setMember_large _ large, setMember_large _ large]

/-! ## A reader -/

theorem addReader_outcome (hu : 0 < u) (looks : Looks u object j use user head tail)
    (huse : use ≠ .write) (hkernel : kernel < maxNumKernels) :
    (object.addReader (u * j) (u * j + u - 1) kernel).sent =
        tell u object.kerninfo j [.grant kernel false true] object.sent ∧
      accessOf ((object.addReader (u * j) (u * j + u - 1) kernel).minPages (u * j)) =
        (admitReader (accessOf (object.minPages (u * j))) kernel).1 ∧
      KeepsWaiters object (object.addReader (u * j) (u * j + u - 1) kernel) := by
  have current := looks.use_first hu
  unfold Object.addReader
  rw [forPages_setPage hu, dataProvided_eq]
  refine ⟨rfl, ?_, KeepsWaiters.log (keepsWaiters_setUnit ?_) _⟩
  swap
  · exact fun _ => ⟨rfl, rfl⟩
  dsimp only
  rw [setUnit_first hu, admitReader_access]
  cases use with
  | none =>
      rw [accessOf_none current, accessOf_read (if_pos current)]
      dsimp only
      rw [if_pos current, reading_setAdd _ hkernel, reading_zero]
  | read =>
      have busy : ¬(object.minPages (u * j)).use = .none := by
        rw [current]
        decide
      rw [accessOf_read current, accessOf_read ((if_neg busy).trans current)]
      dsimp only
      rw [if_neg busy, reading_setAdd _ hkernel]
  | write => exact absurd rfl huse

/-! ## A writer -/

/-- The second loop of `add_writer` has looked at the readers below `n`. -/
structure Flushed (u : Nat) (object : Object) (j kernel : Nat) (user : BitVec 32)
    (head tail : Option Nat) (n : Nat) (state : Object × Bool) : Prop where
  looks : ∃ left, Looks u state.1 j .read left head tail ∧
    ∀ k < 32, setMember left k = (setMember user k && (decide (k = kernel) || decide (n ≤ k)))
  sent : state.1.sent = tell u object.kerninfo j
    (((List.range n).filter fun k => decide (k ≠ kernel ∧ reading user k = .read)).map .flush)
    object.sent
  reads : state.2 = (decide (kernel < n) && setMember user kernel)
  kerninfo : state.1.kerninfo = object.kerninfo
  waiters : KeepsWaiters object state.1

variable {state : Object × Bool} {n : Nat}

/-- The turn for a kernel that stays or does not read. -/
theorem Flushed.skip (flushed : Flushed u object j kernel user head tail n state)
    (stays : n = kernel ∨ setMember user n = false) (small : n < 32) {reads : Bool}
    (told : reads = (decide (kernel < n + 1) && setMember user kernel)) :
    Flushed u object j kernel user head tail (n + 1) (state.1, reads) := by
  obtain ⟨left, looks, members⟩ := flushed.looks
  refine ⟨⟨left, looks, fun k below => ?_⟩, ?_, told, flushed.kerninfo, flushed.waiters⟩
  · rw [members k below]
    by_cases this : k = n
    · subst this
      rcases stays with rfl | absent
      · simp
      · rw [absent]
        rfl
    · have same : n ≤ k ↔ n + 1 ≤ k := by omega
      simp only [same]
  · have out : ¬(n ≠ kernel ∧ reading user n = .read) := by
      rintro ⟨other, reads⟩
      rcases stays with self | absent
      · exact other self
      · rw [reading_eq_read, absent] at reads
        cases reads
    rw [flushed.sent, List.range_succ, List.filter_append,
      List.filter_cons_of_neg (by rw [decide_eq_false out]; exact Bool.false_ne_true),
      List.filter_nil, List.append_nil]

/-- The turn for another reader. -/
theorem Flushed.boot (flushed : Flushed u object j kernel user head tail n state) (hu : 0 < u)
    (other : n ≠ kernel) (member : setMember user n = true) (small : n < 32)
    (size : (object.kerninfo n).pageSize = u * minPageSize) :
    Flushed u object j kernel user head tail (n + 1)
      (state.1.bootReader n (pageToOffset (u * j)) (state.1.kerninfo n).pageSize, state.2) := by
  obtain ⟨left, looks, members⟩ := flushed.looks
  rw [flushed.kerninfo, size, bootReader_eq hu]
  refine ⟨⟨setDelete left n, ?_, fun k below => ?_⟩, ?_, ?_, flushed.kerninfo,
    flushed.waiters.trans (KeepsWaiters.log (keepsWaiters_setUnit ?_) _)⟩
  · refine Looks.send ?_ hu _ _ _ _
    refine looks.setUnit hu (fun page use => use) (fun page _ user => ?_)
      (fun page => ⟨rfl, rfl, rfl⟩)
    dsimp only [MinPage.readers]
    rw [user]
  · rw [setMember_setDelete _ below, members k below]
    by_cases this : k = n
    · subst this
      simp [other]
    · have same : n ≤ k ↔ n + 1 ≤ k := by omega
      have apart : n ≠ k := Ne.symm this
      simp only [same, ne_eq, apart, not_false_eq_true, decide_true, Bool.and_true]
  · have last : ([n].filter fun k => decide (k ≠ kernel ∧ reading user k = .read)) = [n] := by
      refine List.filter_eq_self.mpr fun k inside => decide_eq_true ?_
      rw [List.mem_singleton.mp inside]
      exact ⟨other, reading_eq_read.mpr member⟩
    rw [List.range_succ, List.filter_append, last, List.map_append, List.map_cons, List.map_nil,
      tell_concat, ← flushed.sent, ← flushed.kerninfo]
    rfl
  · rw [flushed.reads]
    have same : kernel < n ↔ kernel < n + 1 := by omega
    simp only [same]
  · exact fun _ => ⟨rfl, rfl⟩

/-- The turn of the loop over the readers of page `page`. -/
def bootTurn (kernel page reader : Nat) (state : Object × Bool) : Object × Bool :=
  if reader = kernel then (state.1, true)
  else (state.1.bootReader reader (pageToOffset page) (state.1.kerninfo reader).pageSize, state.2)

/-- At the first page of a unit the readers are told. -/
theorem Flushed.first (hu : 0 < u) (sized : Sized u object)
    (looks : Looks u object j .read user head tail) (readers : Readers object .read user) :
    Flushed u object j kernel user head tail 32
      (setForall (fun state : Object × Bool => (state.1.minPages (u * j)).readers)
        (bootTurn kernel (u * j)) (object, false)) := by
  have start : Flushed u object j kernel user head tail 0 (object, false) := by
    refine ⟨⟨user, looks, fun k _ => ?_⟩, rfl, ?_, rfl, KeepsWaiters.refl object⟩
    · rw [decide_eq_true (Nat.zero_le k), Bool.or_true, Bool.and_true]
    · rw [decide_eq_false (Nat.not_lt_zero kernel)]
      rfl
  refine setForall_induct start fun n small state flushed => ?_
  obtain ⟨left, looks', members⟩ := flushed.looks
  have here : setMember left n = setMember user n := by
    rw [members n small, decide_eq_true (Nat.le_refl n), Bool.or_true, Bool.and_true]
  have set : (state.1.minPages (u * j)).readers = left := looks'.user_first hu
  rw [set, here]
  split
  · next member =>
      rw [bootTurn]
      split
      · next self =>
          refine flushed.skip (Or.inl self) small ?_
          rw [← self, decide_eq_true (Nat.lt_succ_self n), member]
          rfl
      · next other =>
          exact flushed.boot hu other member small (sized n (readers rfl n small member))
  · next absent =>
      refine flushed.skip (Or.inr (Bool.eq_false_iff.mpr absent)) small ?_
      rw [flushed.reads]
      by_cases self : kernel = n
      · rw [self, Bool.eq_false_iff.mpr absent, Bool.and_false, Bool.and_false]
      · have same : kernel < n ↔ kernel < n + 1 := by omega
        simp only [same]

/-- At the other pages only the new writer is left. -/
theorem Flushed.later {i : Nat} (flushed : Flushed u object j kernel user head tail 32 state)
    (inside : i < u) :
    Flushed u object j kernel user head tail 32
      (setForall (fun state : Object × Bool => (state.1.minPages (u * j + i)).readers)
        (bootTurn kernel (u * j + i)) state) := by
  refine setForall_induct (P := fun _ state => Flushed u object j kernel user head tail 32 state)
    flushed fun n small state flushed => ?_
  obtain ⟨left, looks, members⟩ := flushed.looks
  have set : (state.1.minPages (u * j + i)).readers = left := looks.user i inside
  rw [set, members n small, decide_eq_false (Nat.not_le.mpr small), Bool.or_false]
  split
  · next member =>
      obtain ⟨reads, self⟩ := (Bool.and_eq_true _ _).mp member
      have self := of_decide_eq_true self
      rw [bootTurn, if_pos self]
      refine ⟨flushed.looks, flushed.sent, ?_, flushed.kerninfo, flushed.waiters⟩
      rw [← self, decide_eq_true small, reads]
      rfl
  · exact flushed

/-- The readers of the page but the new writer are told that they lose it. -/
theorem bootReaders_outcome (hu : 0 < u) (sized : Sized u object)
    (looks : Looks u object j use user head tail) (readers : Readers object use user)
    (hkernel : kernel < maxNumKernels) :
    (object.bootReaders (u * j) (u * j + u - 1) kernel).1.sent =
        tell u object.kerninfo j
          ((otherReaders kernels (accessOf (object.minPages (u * j))) kernel).map .flush)
          object.sent ∧
      (object.bootReaders (u * j) (u * j + u - 1) kernel).2 =
        decide (accessOf (object.minPages (u * j)) kernel = .read) ∧
      KeepsWaiters object (object.bootReaders (u * j) (u * j + u - 1) kernel).1 := by
  have current := looks.use_first hu
  have mask := looks.user_first hu
  by_cases reads : use = .read
  · subst reads
    have whole : Flushed u object j kernel user head tail 32
        (object.bootReaders (u * j) (u * j + u - 1) kernel) := by
      unfold Object.bootReaders
      refine (forPages_induct (P := fun i state => (i = 0 → state = (object, false)) ∧
        (0 < i → Flushed u object j kernel user head tail 32 state)) hu
        ⟨fun _ => rfl, fun pos => absurd pos (Nat.lt_irrefl 0)⟩
        (fun i inside state step => ⟨fun zero => absurd zero (Nat.succ_ne_zero i),
          fun _ => ?_⟩)).2 hu
      rcases Nat.eq_zero_or_pos i with rfl | pos
      · rw [step.1 rfl, Nat.add_zero, if_pos current]
        exact Flushed.first hu sized looks readers
      · have flushed := step.2 pos
        obtain ⟨left, looks', -⟩ := flushed.looks
        rw [if_pos (looks'.use i inside)]
        exact flushed.later inside
    have small : kernel < 32 := hkernel
    refine ⟨?_, ?_, whole.waiters⟩
    · rw [whole.sent, accessOf_read current, mask]
      rfl
    · rw [whole.reads, decide_eq_true small, Bool.true_and, accessOf_read current, mask]
      cases member : setMember user kernel with
      | false =>
          refine (decide_eq_false fun same => ?_).symm
          rw [reading_eq_read, member] at same
          cases same
      | true => exact (decide_eq_true (reading_eq_read.mpr member)).symm
  · have none_read : ∀ k, accessOf (object.minPages (u * j)) k ≠ .read := by
      intro k same
      cases use with
      | none =>
          rw [accessOf_none current] at same
          cases same
      | read => exact reads rfl
      | write =>
          rw [accessOf, current] at same
          dsimp only at same
          split at same
          · cases same
          · cases same
    have nobody : otherReaders kernels (accessOf (object.minPages (u * j))) kernel = [] :=
      List.filter_eq_nil_iff.mpr fun k _ both => none_read k (of_decide_eq_true both).2
    have idle : object.bootReaders (u * j) (u * j + u - 1) kernel = (object, false) := by
      unfold Object.bootReaders
      refine forPages_induct (P := fun _ state => state = (object, false)) hu rfl ?_
      rintro i inside state rfl
      exact if_neg fun same => reads ((looks.use i inside).symm.trans same)
    rw [idle, nobody, decide_eq_false (none_read kernel)]
    exact ⟨rfl, rfl, KeepsWaiters.refl object⟩

theorem accessOf_of_looks (hu : 0 < u) (looks : Looks u object j .write user head tail)
    (writer : writerOf user = kernel) :
    accessOf (object.minPages (u * j)) = Function.update (fun _ => .none) kernel .write := by
  rw [accessOf_write (looks.use_first hu)]
  have named : (object.minPages (u * j)).writer = kernel := by
    rw [MinPage.writer, looks.user_first hu]
    exact writer
  rw [named]

theorem addWriter_outcome (hu : 0 < u) (sized : Sized u object)
    (looks : Looks u object j use user head tail) (readers : Readers object use user)
    (hkernel : Attached object kernel) (needsData : Bool) :
    (object.addWriter (u * j) (u * j + u - 1) kernel needsData).sent =
        tell u object.kerninfo j
          (admitWriter kernels (accessOf (object.minPages (u * j))) kernel needsData).2
          object.sent ∧
      accessOf ((object.addWriter (u * j) (u * j + u - 1) kernel needsData).minPages (u * j)) =
        (admitWriter kernels (accessOf (object.minPages (u * j))) kernel needsData).1 ∧
      KeepsWaiters object (object.addWriter (u * j) (u * j + u - 1) kernel needsData) := by
  obtain ⟨-, user', looks', writer⟩ :=
    addWriter_grants hu sized looks readers hkernel needsData
  have access := accessOf_of_looks hu looks' writer
  obtain ⟨booted, reads, waiters⟩ := bootReaders_outcome hu sized looks readers hkernel.1
  have booting : Booting u object j kernel use head tail (fun _ => True)
      (object.bootReaders (u * j) (u * j + u - 1) kernel) :=
    bootReaders_grants hu sized looks readers
  have info := booting.grants.kerninfo
  refine ⟨?_, access, ?_⟩
  · unfold Object.addWriter
    rw [bootBiggerReaders_eq hu sized looks readers hkernel]
    dsimp only
    rw [forPages_setPage hu, admitWriter, tell_concat, ← booted, reads, ← decide_not]
    split
    · next data =>
        rw [dataProvided_eq, data, ← info]
        rfl
    · next nodata =>
        rw [Bool.eq_false_iff.mpr nodata]
        dsimp only [render, Object.send, setUnit]
        rw [info, sized kernel hkernel]
        rfl
  · unfold Object.addWriter
    rw [bootBiggerReaders_eq hu sized looks readers hkernel]
    dsimp only
    rw [forPages_setPage hu]
    have kept : KeepsWaiters object (setUnit u
        (object.bootReaders (u * j) (u * j + u - 1) kernel).1 j
        (fun minPage => { minPage.setWriter kernel with use := .write })) :=
      waiters.trans (keepsWaiters_setUnit fun _ => ⟨rfl, rfl⟩)
    split
    · rw [dataProvided_eq]
      exact kept.log _
    · exact kept.log _

/-! ## A request that is satisfied -/

/-- Serving one client of a lock. -/
def letIn (access : Nat → Access) (waiter : Waiter Nat) : (Nat → Access) × List (Word Nat) :=
  if waiter.write then admitWriter kernels access waiter.client waiter.data
  else admitReader access waiter.client

/-- What a kernel waits for, by the sets of waiters of the page. -/
def waiterOf (page : MinPage) (kernel : Nat) : Waiter Nat where
  client := kernel
  write := setMember page.writeWaiters kernel
  data := setMember page.dataWaiters kernel

theorem satisfyKernel_outcome (hu : 0 < u) (sized : Sized u object)
    (looks : Looks u object j use user head tail) (huse : use ≠ .write)
    (readers : Readers object use user) (hkernel : Attached object kernel) :
    (object.satisfyKernel kernel (u * j) (u * j + u - 1)).1.sent =
        tell u object.kerninfo j (letIn (accessOf (object.minPages (u * j)))
          (waiterOf (object.minPages (u * j)) kernel)).2 object.sent ∧
      accessOf ((object.satisfyKernel kernel (u * j) (u * j + u - 1)).1.minPages (u * j)) =
        (letIn (accessOf (object.minPages (u * j)))
          (waiterOf (object.minPages (u * j)) kernel)).1 ∧
      KeepsWaiters (object.setPage (u * j) (served kernel))
        (object.satisfyKernel kernel (u * j) (u * j + u - 1)).1 ∧
      ((object.satisfyKernel kernel (u * j) (u * j + u - 1)).2 = .write ↔
        (waiterOf (object.minPages (u * j)) kernel).write = true) := by
  have looks₁ : Looks u (object.setPage (u * j) (served kernel)) j use user head tail :=
    looks.setPage hu (u * j) (fun _ => rfl)
  have same : accessOf ((object.setPage (u * j) (served kernel)).minPages (u * j)) =
      accessOf (object.minPages (u * j)) := by
    dsimp only [Object.setPage]
    rw [Function.update_self]
    rfl
  rw [satisfyKernel_eq, letIn, waiterOf]
  split
  · next write =>
      rw [← same]
      have sized₁ : Sized u (object.setPage (u * j) (served kernel)) := sized
      obtain ⟨sent, access, waiters⟩ := addWriter_outcome hu sized₁ looks₁ readers hkernel
        (setMember (object.minPages (u * j)).dataWaiters kernel)
      exact ⟨sent, access, waiters, fun _ => write, fun _ => rfl⟩
  · next read =>
      rw [← same]
      obtain ⟨sent, access, waiters⟩ := addReader_outcome hu looks₁ huse hkernel.1
      exact ⟨sent, access, waiters, nofun, fun write => absurd write read⟩

end Changes

end MachFormal.NetMemory.OneSize
