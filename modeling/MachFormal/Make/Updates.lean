import Mathlib.Data.List.Basic
import Mathlib.Data.Set.Finite.List
import Mathlib.Data.Fintype.Card
import Mathlib.Order.WellFounded
import Mathlib.Tactic.Set
import MachFormal.Make.Doname

/-!
# What make does to a graph of targets

The account of a target is built by its own activation of `doname` alone, so a loop
invariant of that activation describes it completely, and every nested activation
leaves it as it is.  What `doname` returned for a dependency is what it is settled as
in the end, unless the dependency was in process, in which case it depends on the
target itself.

The commands of a double-colon line are run without a look at `errstat`, and a target in
process counts as one that has not failed.  So commands are run above a failure exactly when
such a line is due while one of its dependencies is marked as failed, or when the failure is
below a target in process.
-/

namespace MachFormal.Make

open Relation

variable {ν κ σ : Type}

/-! ## What is to hold -/

section Statements

variable (M : Makefile ν κ) (st : State ν σ)

/-- The target has been brought up to date, or has failed. -/
def Settled (p : ν) : Prop := st.done p = .current ∨ st.done p = .failed

/-- The target names the other on one of its lines. -/
def Dep (p q : ν) : Prop := ∃ line ∈ M.lines p, q ∈ line.deps

/-- Nothing that the target depends on depends on itself. -/
def OutsideCycles (p : ν) : Prop := ∀ q, ReflTransGen (Dep M) p q → ¬TransGen (Dep M) q q

/-- Commands of the target failed, or nobody knew how to make it. -/
def OwnFailure (p : ν) : Prop := (∃ i, Act.ran i true ∈ st.acts p) ∨ Act.gaveUp ∈ st.acts p

/-- Commands of a line are run once, and after its dependencies were done. -/
def InOrder (p : ν) : List (Act ν) → Prop
  | [] => True
  | .ran i _ :: earlier =>
      (∀ failed, Act.ran i failed ∉ earlier) ∧
      (∃ line, (M.lines p)[i]? = some line ∧
        ∀ q ∈ line.deps, ∃ t e, Act.processed i q t e ∈ earlier) ∧ InOrder p earlier
  | _ :: earlier => InOrder p earlier

/-- The first line with commands gives the explicit commands of a single-colon target. -/
def explicitLine (lines : List (Line ν κ)) : Option Nat :=
  lines.findIdx? fun line => line.shp.isEmpty = false

/-- No dependency failed that was done for the target. -/
def NoneFailed (acts : List (Act ν)) : Prop :=
  ∀ i q t e, Act.processed i q t e ∈ acts → e = 0

/-- The target was missing when it was entered, or older than a dependency. -/
def OutOfDate (acts : List (Act ν)) : Prop :=
  ∃ ptime, Act.entered ptime ∈ acts ∧
    (ptime = 0 ∨ ∃ i q t e, Act.processed i q t e ∈ acts ∧ ptime < t)

/-- A line of a double-colon target is due: it is older than one of the line's dependencies,
neither it nor any of them has a time, or there are none. -/
def LineDue (acts : List (Act ν)) (i : Nat) (line : Line ν κ) : Prop :=
  ∃ ptime, Act.entered ptime ∈ acts ∧
    ((∃ q t e, Act.processed i q t e ∈ acts ∧ ptime < t) ∨
      (ptime = 0 ∧ ∀ q t e, Act.processed i q t e ∈ acts → t = 0) ∨ line.deps = [])

/-- The commands of a line are due, and no dependency of a single-colon target was marked as
failed when a line was decided. -/
def Due (p : ν) (i : Nat) (line : Line ν κ) : Prop :=
  (M.septype p = .someDeps ∧ line.shp ≠ [] ∧ LineDue (st.acts p) i line) ∨
    (M.septype p ≠ .someDeps ∧ explicitLine (M.lines p) = some i ∧ OutOfDate (st.acts p) ∧
      ∀ j marks q, Act.decided j marks ∈ st.acts p → (q, Done.failed) ∉ marks)

/-- The dependency `b` was in process when a line of the target was decided. -/
def Loops (a : ν) (i : Nat) (b : ν) : Prop :=
  ∃ marks, Act.decided i marks ∈ st.acts a ∧ (b, Done.inProcess) ∈ marks

/-- What a settled target has done when it is brought up to date correctly. -/
structure Correct (p : ν) : Prop where
  inOrder : InOrder M p (st.acts p)
  clean : ∀ i failed, Act.ran i failed ∈ st.acts p →
    ∀ q t e, Act.processed i q t e ∈ st.acts p → e = 0
  cleanBelow : ∀ i failed, Act.ran i failed ∈ st.acts p →
    ∀ line, (M.lines p)[i]? = some line → ∀ q ∈ line.deps,
      ∀ r, ReflTransGen (Dep M) q r → ¬OwnFailure st r
  decided : M.septype p = .allDeps → ∀ i, explicitLine (M.lines p) = some i →
    ((∃ failed, Act.ran i failed ∈ st.acts p) ↔ NoneFailed (st.acts p) ∧ OutOfDate (st.acts p))
  answered : ∀ i q t e, Act.processed i q t e ∈ st.acts p → OutsideCycles M q →
    (e ≠ 0 ↔ st.done q = .failed)
  failed_iff : OutsideCycles M p →
    (st.done p = .failed ↔ ∃ r, ReflTransGen (Dep M) p r ∧ OwnFailure st r)

/-- A line that is due has no dependency that is marked as failed, and no target in process that
it or a target below it depends on has a failure below it. -/
structure Spared (p : ν) : Prop where
  unmarked : ∀ i line, (M.lines p)[i]? = some line → Due M st p i line →
    ∀ marks q, Act.decided i marks ∈ st.acts p → (q, Done.failed) ∉ marks
  loop : ∀ i line, (M.lines p)[i]? = some line → Due M st p i line →
    ∀ b, Loops st p i b → ∀ r, ReflTransGen (Dep M) b r → ¬OwnFailure st r
  loopBelow : ∀ i line, (M.lines p)[i]? = some line → Due M st p i line →
    ∀ q ∈ line.deps, ∀ a, ReflTransGen (Dep M) q a → ∀ j b, Loops st a j b →
      ∀ r, ReflTransGen (Dep M) b r → ¬OwnFailure st r

end Statements

/-! ## The account of one target -/

section Account

variable {M : Makefile ν κ} {p : ν} {ptime i td : Nat} {seen : List ν} {pr : Progress ν κ}
  {acts : List (Act ν)}

/-- Something on the account has failed. -/
def HasErrors (acts : List (Act ν)) : Prop :=
  (∃ i, Act.ran i true ∈ acts) ∨ ∃ i q t e, Act.processed i q t e ∈ acts ∧ e ≠ 0

/-- The account while the lines of the target are done: those before `i`, and of line `i` the
dependencies in `seen`, with the latest time `td`. -/
structure Going (M : Makefile ν κ) (p : ν) (ptime i : Nat) (seen : List ν) (td : Nat)
    (pr : Progress ν κ) (acts : List (Act ν)) : Prop where
  inOrder : InOrder M p acts
  entered : ∀ t, Act.entered t ∈ acts ↔ t = ptime
  gaveUp : Act.gaveUp ∉ acts
  ranBelow : ∀ j failed, Act.ran j failed ∈ acts → j < i ∧ M.septype p = .someDeps
  processed : ∀ j q t e, Act.processed j q t e ∈ acts →
    (j < i ∧ ∃ line, (M.lines p)[j]? = some line ∧ q ∈ line.deps) ∨ (j = i ∧ q ∈ seen)
  complete : ∀ j line, j < i → (M.lines p)[j]? = some line → ∀ q ∈ line.deps,
    ∃ t e, Act.processed j q t e ∈ acts
  seenDone : ∀ q ∈ seen, ∃ t e, Act.processed i q t e ∈ acts
  td_iff : ∀ T, T < td ↔ ∃ q t e, Act.processed i q t e ∈ acts ∧ T < t
  errstat_iff : pr.errstat ≠ 0 ↔ HasErrors acts
  single : M.septype p ≠ .someDeps →
    (∀ T, T < pr.tdep ↔ ∃ j q t e, j < i ∧ Act.processed j q t e ∈ acts ∧ T < t) ∧
    pr.explcom.map Prod.fst = explicitLine ((M.lines p).take i)
  double : M.septype p = .someDeps → pr.explcom = none ∧ pr.tdep = 0 ∧
    ∀ j line, j < i → (M.lines p)[j]? = some line →
      ((∃ failed, Act.ran j failed ∈ acts) ↔ line.shp ≠ [] ∧ LineDue acts j line)

/-- The account of a target that is settled. -/
structure Account (M : Makefile ν κ) (p : ν) (acts : List (Act ν)) (failed : Prop) : Prop where
  inOrder : InOrder M p acts
  complete : ∀ i line, (M.lines p)[i]? = some line → ∀ q ∈ line.deps,
    ∃ t e, Act.processed i q t e ∈ acts
  processed : ∀ i q t e, Act.processed i q t e ∈ acts →
    ∃ line, (M.lines p)[i]? = some line ∧ q ∈ line.deps
  single : M.septype p ≠ .someDeps → ∀ i failed, Act.ran i failed ∈ acts →
    explicitLine (M.lines p) = some i
  decided : M.septype p ≠ .someDeps → ∀ i, explicitLine (M.lines p) = some i →
    ((∃ failed, Act.ran i failed ∈ acts) ↔ NoneFailed acts ∧ OutOfDate acts)
  double : M.septype p = .someDeps → ∀ i line, (M.lines p)[i]? = some line →
    ((∃ failed, Act.ran i failed ∈ acts) ↔ line.shp ≠ [] ∧ LineDue acts i line)
  failed_iff : failed ↔ (∃ i, Act.ran i true ∈ acts) ∨ Act.gaveUp ∈ acts ∨ ¬NoneFailed acts

theorem Going.start : Going M p ptime 0 [] 0 (⟨0, 0, none, [], [], 0⟩ : Progress ν κ)
    [.entered ptime] := by
  have unprocessed : ∀ j q t e, (Act.processed j q t e : Act ν) ∉ [.entered ptime] := by simp
  have unrun : ∀ j failed, (Act.ran j failed : Act ν) ∉ [.entered ptime] := by simp
  constructor
  · exact trivial
  · simp
  · simp
  · exact fun j failed member => absurd member (unrun j failed)
  · exact fun j q t e member => absurd member (unprocessed j q t e)
  · exact fun j line below => absurd below (Nat.not_lt_zero j)
  · exact fun q member => absurd member List.not_mem_nil
  · exact fun T => iff_of_false (Nat.not_lt_zero T) fun ⟨q, t, e, member, _⟩ =>
      unprocessed 0 q t e member
  · refine iff_of_false (fun nonzero => nonzero rfl) ?_
    rintro (⟨j, member⟩ | ⟨j, q, t, e, member, _⟩)
    · exact unrun j true member
    · exact unprocessed j q t e member
  · intro _
    refine ⟨fun T => iff_of_false (Nat.not_lt_zero T) ?_, rfl⟩
    rintro ⟨j, q, t, e, below, _⟩
    exact Nat.not_lt_zero j below
  · exact fun _ => ⟨rfl, rfl, fun j line below => absurd below (Nat.not_lt_zero j)⟩

/-- An act that is neither an entry nor a dependency of the line leaves it due or not due. -/
theorem lineDue_cons {act : Act ν} {j : Nat} {line : Line ν κ} (entry : ∀ t, act ≠ .entered t)
    (other : ∀ q t e, act ≠ .processed j q t e) :
    LineDue (act :: acts) j line ↔ LineDue acts j line := by
  have entered : ∀ t, Act.entered t ∈ act :: acts ↔ Act.entered t ∈ acts :=
    fun t => List.mem_cons.trans (or_iff_right (entry t).symm)
  have processed : ∀ q t e, Act.processed j q t e ∈ act :: acts ↔ Act.processed j q t e ∈ acts :=
    fun q t e => List.mem_cons.trans (or_iff_right (other q t e).symm)
  simp only [LineDue, entered, processed]

theorem Going.dep (going : Going M p ptime i seen td pr acts) (q : ν) (t e : Nat)
    (achain qchain : List ν) :
    Going M p ptime i (seen ++ [q]) (max td t)
      { pr with errstat := pr.errstat + e, achain := achain, qchain := qchain }
      (.processed i q t e :: acts) where
  inOrder := going.inOrder
  entered T := by
    rw [← going.entered T, List.mem_cons, or_iff_right nofun]
  gaveUp := List.not_mem_cons_of_ne_of_not_mem nofun going.gaveUp
  ranBelow j failed member := by
    rcases List.mem_cons.mp member with other | member
    · exact absurd other nofun
    · exact going.ranBelow j failed member
  processed j q' t' e' member := by
    rcases List.mem_cons.mp member with same | member
    · cases same
      exact Or.inr ⟨rfl, List.mem_append_right seen List.mem_cons_self⟩
    · refine (going.processed j q' t' e' member).imp_right fun ⟨line, before⟩ => ?_
      exact ⟨line, List.mem_append_left _ before⟩
  complete j line below given q' member := by
    obtain ⟨t', e', done⟩ := going.complete j line below given q' member
    exact ⟨t', e', List.mem_cons_of_mem _ done⟩
  seenDone q' member := by
    rcases List.mem_append.mp member with member | member
    · obtain ⟨t', e', done⟩ := going.seenDone q' member
      exact ⟨t', e', List.mem_cons_of_mem _ done⟩
    · rw [List.mem_singleton.mp member]
      exact ⟨t, e, List.mem_cons_self⟩
  td_iff T := by
    rw [lt_max_iff, going.td_iff T]
    constructor
    · rintro (⟨q', t', e', member, later⟩ | later)
      · exact ⟨q', t', e', List.mem_cons_of_mem _ member, later⟩
      · exact ⟨q, t, e, List.mem_cons_self, later⟩
    · rintro ⟨q', t', e', member, later⟩
      rcases List.mem_cons.mp member with same | member
      · cases same
        exact Or.inr later
      · exact Or.inl ⟨q', t', e', member, later⟩
  errstat_iff := by
    have summed : pr.errstat + e ≠ 0 ↔ pr.errstat ≠ 0 ∨ e ≠ 0 := by omega
    rw [summed, going.errstat_iff]
    constructor
    · rintro ((⟨j, member⟩ | ⟨j, q', t', e', member, bad⟩) | bad)
      · exact Or.inl ⟨j, List.mem_cons_of_mem _ member⟩
      · exact Or.inr ⟨j, q', t', e', List.mem_cons_of_mem _ member, bad⟩
      · exact Or.inr ⟨i, q, t, e, List.mem_cons_self, bad⟩
    · rintro (⟨j, member⟩ | ⟨j, q', t', e', member, bad⟩)
      · rcases List.mem_cons.mp member with other | member
        · exact absurd other nofun
        · exact Or.inl (Or.inl ⟨j, member⟩)
      · rcases List.mem_cons.mp member with same | member
        · cases same
          exact Or.inr bad
        · exact Or.inl (Or.inr ⟨j, q', t', e', member, bad⟩)
  single colon := by
    obtain ⟨tdep, explicit⟩ := going.single colon
    refine ⟨fun T => (tdep T).trans ?_, explicit⟩
    constructor
    · rintro ⟨j, q', t', e', below, member, later⟩
      exact ⟨j, q', t', e', below, List.mem_cons_of_mem _ member, later⟩
    · rintro ⟨j, q', t', e', below, member, later⟩
      rcases List.mem_cons.mp member with same | member
      · cases same
        exact absurd below (Nat.lt_irrefl i)
      · exact ⟨j, q', t', e', below, member, later⟩
  double colons := by
    obtain ⟨explicit, tdep, ran⟩ := going.double colons
    refine ⟨explicit, tdep, fun j line below given => ?_⟩
    have other : ∀ q' t' e', Act.processed i q t e ≠ .processed j q' t' e' := by
      rintro q' t' e' ⟨⟩
      exact Nat.lt_irrefl i below
    have entry : ∀ t', Act.processed i q t e ≠ .entered t' := nofun
    rw [lineDue_cons entry other, ← ran j line below given]
    exact exists_congr fun failed => List.mem_cons.trans (or_iff_right nofun)

theorem Going.next {line : Line ν κ} (going : Going M p ptime i line.deps td pr acts)
    (given : (M.lines p)[i]? = some line) {pr' : Progress ν κ} (errstat : pr'.errstat = pr.errstat)
    (single : M.septype p ≠ .someDeps →
      (∀ T, T < pr'.tdep ↔ ∃ j q t e, j < i + 1 ∧ Act.processed j q t e ∈ acts ∧ T < t) ∧
      pr'.explcom.map Prod.fst = explicitLine ((M.lines p).take (i + 1)))
    (double : M.septype p = .someDeps → pr'.explcom = none ∧ pr'.tdep = 0 ∧
      (line.shp = [] ∨ ¬LineDue acts i line)) :
    Going M p ptime (i + 1) [] 0 pr' acts where
  inOrder := going.inOrder
  entered := going.entered
  gaveUp := going.gaveUp
  ranBelow j failed member := by
    obtain ⟨below, colons⟩ := going.ranBelow j failed member
    exact ⟨Nat.lt_succ_of_lt below, colons⟩
  processed j q t e member := by
    rcases going.processed j q t e member with ⟨below, there⟩ | ⟨rfl, listed⟩
    · exact Or.inl ⟨Nat.lt_succ_of_lt below, there⟩
    · exact Or.inl ⟨Nat.lt_succ_self j, line, given, listed⟩
  complete j line' below given' q member := by
    rcases Nat.lt_succ_iff_lt_or_eq.mp below with below | rfl
    · exact going.complete j line' below given' q member
    · obtain rfl : line' = line := Option.some.inj (given'.symm.trans given)
      exact going.seenDone q member
  seenDone q member := absurd member List.not_mem_nil
  td_iff T := by
    refine iff_of_false (Nat.not_lt_zero T) ?_
    rintro ⟨q, t, e, member, _⟩
    rcases going.processed (i + 1) q t e member with ⟨below, _⟩ | ⟨same, _⟩
    · omega
    · omega
  errstat_iff := errstat ▸ going.errstat_iff
  single := single
  double colons := by
    obtain ⟨explicit, tdep, idle⟩ := double colons
    refine ⟨explicit, tdep, fun j line' below given' => ?_⟩
    rcases Nat.lt_succ_iff_lt_or_eq.mp below with below | rfl
    · exact (going.double colons).2.2 j line' below given'
    · obtain rfl : line' = line := Option.some.inj (given'.symm.trans given)
      refine iff_of_false ?_ ?_
      · rintro ⟨failed, member⟩
        exact Nat.lt_irrefl j (going.ranBelow j failed member).1
      · rintro ⟨commands, due⟩
        exact idle.elim commands fun notDue => notDue due

/-- That a line was decided changes nothing else. -/
theorem Going.look (going : Going M p ptime i [] 0 pr acts) (j : Nat) (marks : List (ν × Done)) :
    Going M p ptime i [] 0 pr (.decided j marks :: acts) := by
  constructor
  case inOrder => exact going.inOrder
  case entered => simpa only [List.mem_cons, reduceCtorEq, false_or] using going.entered
  case gaveUp => simpa only [List.mem_cons, reduceCtorEq, false_or] using going.gaveUp
  case ranBelow => simpa only [List.mem_cons, reduceCtorEq, false_or] using going.ranBelow
  case processed => simpa only [List.mem_cons, reduceCtorEq, false_or] using going.processed
  case complete => simpa only [List.mem_cons, reduceCtorEq, false_or] using going.complete
  case seenDone => simpa only [List.mem_cons, reduceCtorEq, false_or] using going.seenDone
  case td_iff => simpa only [List.mem_cons, reduceCtorEq, false_or] using going.td_iff
  case errstat_iff =>
    simpa only [HasErrors, List.mem_cons, reduceCtorEq, false_or] using going.errstat_iff
  case single => simpa only [List.mem_cons, reduceCtorEq, false_or] using going.single
  case double => simpa only [LineDue, List.mem_cons, reduceCtorEq, false_or] using going.double

theorem Going.lineDue_iff {line : Line ν κ} (going : Going M p ptime i line.deps td pr acts) :
    LineDue acts i line ↔ ptime < td ∨ (ptime = 0 ∧ td = 0) ∨ line.deps = [] := by
  have timeless : td = 0 ↔ ∀ q t e, Act.processed i q t e ∈ acts → t = 0 := by
    rw [← Nat.le_zero, ← not_lt, going.td_iff 0]
    constructor
    · intro none q t e member
      exact Nat.eq_zero_of_not_pos fun later => none ⟨q, t, e, member, later⟩
    · rintro all ⟨q, t, e, member, later⟩
      exact absurd (all q t e member) (Nat.ne_of_gt later)
  rw [going.td_iff ptime, timeless]
  constructor
  · rintro ⟨t, entered, due⟩
    obtain rfl := (going.entered t).mp entered
    exact due
  · exact fun due => ⟨ptime, (going.entered ptime).mpr rfl, due⟩

theorem Going.ran {line : Line ν κ} (going : Going M p ptime i line.deps td pr acts)
    (given : (M.lines p)[i]? = some line) (colons : M.septype p = .someDeps)
    (commands : line.shp ≠ []) (due : LineDue acts i line) (failed : Bool) (ptime1 : Nat) :
    Going M p ptime (i + 1) [] 0
      { pr with errstat := pr.errstat + failed.toNat, achain := [], qchain := [], ptime1 := ptime1 }
      (.ran i failed :: acts) := by
  have mem_processed : ∀ {j q t e}, Act.processed j q t e ∈ Act.ran i failed :: acts ↔
      Act.processed j q t e ∈ acts := List.mem_cons.trans (or_iff_right nofun)
  have unrun : ∀ failed', Act.ran i failed' ∉ acts :=
    fun failed' member => Nat.lt_irrefl i (going.ranBelow i failed' member).1
  have sameDue : ∀ {j} {line' : Line ν κ},
      LineDue (Act.ran i failed :: acts) j line' ↔ LineDue acts j line' := by
    intro j line'
    have entry : ∀ t, (Act.ran i failed : Act ν) ≠ .entered t := nofun
    have other : ∀ (q : ν) (t e : Nat), Act.ran i failed ≠ .processed j q t e := nofun
    exact lineDue_cons entry other
  constructor
  · exact ⟨unrun, ⟨line, given, going.seenDone⟩, going.inOrder⟩
  · intro t
    rw [← going.entered t, List.mem_cons, or_iff_right nofun]
  · exact List.not_mem_cons_of_ne_of_not_mem nofun going.gaveUp
  · intro j failed' member
    rcases List.mem_cons.mp member with same | member
    · cases same
      exact ⟨Nat.lt_succ_self i, colons⟩
    · exact ⟨Nat.lt_succ_of_lt (going.ranBelow j failed' member).1, colons⟩
  · intro j q t e member
    rcases going.processed j q t e (mem_processed.mp member) with ⟨below, there⟩ | ⟨rfl, listed⟩
    · exact Or.inl ⟨Nat.lt_succ_of_lt below, there⟩
    · exact Or.inl ⟨Nat.lt_succ_self j, line, given, listed⟩
  · intro j line' below given' q member
    rcases Nat.lt_succ_iff_lt_or_eq.mp below with below | rfl
    · obtain ⟨t, e, done⟩ := going.complete j line' below given' q member
      exact ⟨t, e, mem_processed.mpr done⟩
    · obtain rfl : line' = line := Option.some.inj (given'.symm.trans given)
      obtain ⟨t, e, done⟩ := going.seenDone q member
      exact ⟨t, e, mem_processed.mpr done⟩
  · exact fun q member => absurd member List.not_mem_nil
  · intro T
    refine iff_of_false (Nat.not_lt_zero T) ?_
    rintro ⟨q, t, e, member, _⟩
    rcases going.processed (i + 1) q t e (mem_processed.mp member) with ⟨below, _⟩ | ⟨same, _⟩
    · omega
    · omega
  · have summed : pr.errstat + failed.toNat ≠ 0 ↔ pr.errstat ≠ 0 ∨ failed = true := by
      cases failed <;> simp
    rw [summed, going.errstat_iff]
    constructor
    · rintro ((⟨j, member⟩ | ⟨j, q, t, e, member, bad⟩) | rfl)
      · exact Or.inl ⟨j, List.mem_cons_of_mem _ member⟩
      · exact Or.inr ⟨j, q, t, e, List.mem_cons_of_mem _ member, bad⟩
      · exact Or.inl ⟨i, List.mem_cons_self⟩
    · rintro (⟨j, member⟩ | ⟨j, q, t, e, member, bad⟩)
      · rcases List.mem_cons.mp member with same | member
        · cases same
          exact Or.inr rfl
        · exact Or.inl (Or.inl ⟨j, member⟩)
      · exact Or.inl (Or.inr ⟨j, q, t, e, mem_processed.mp member, bad⟩)
  · exact fun colon => absurd colons colon
  · intro _
    obtain ⟨explicit, tdep, ran⟩ := going.double colons
    refine ⟨explicit, tdep, fun j line' below given' => ?_⟩
    rw [sameDue]
    rcases Nat.lt_succ_iff_lt_or_eq.mp below with below | rfl
    · rw [← ran j line' below given']
      refine exists_congr fun failed' => List.mem_cons.trans (or_iff_right ?_)
      rintro ⟨⟩
      exact Nat.lt_irrefl i below
    · obtain rfl : line' = line := Option.some.inj (given'.symm.trans given)
      exact iff_of_true ⟨failed, List.mem_cons_self⟩ ⟨commands, due⟩

theorem explicitLine_take_succ {lines : List (Line ν κ)} {line : Line ν κ}
    (given : lines[i]? = some line) : explicitLine (lines.take (i + 1)) =
      (explicitLine (lines.take i)).or (if line.shp.isEmpty then none else some i) := by
  have bound : i ≤ lines.length := Nat.le_of_lt (List.getElem?_eq_some_iff.mp given).1
  rw [List.take_add_one, given, Option.toList_some, explicitLine, explicitLine,
    List.findIdx?_append, List.length_take_of_le bound, List.findIdx?_singleton]
  refine congrArg (Option.or _) ?_
  cases line.shp.isEmpty with
  | true => rfl
  | false => exact congrArg some (Nat.zero_add i)

/-! At the end of the lines `i` is past the last one, and no line is under way. -/

theorem not_noneFailed : ¬NoneFailed acts ↔ ∃ i q t e, Act.processed i q t e ∈ acts ∧ e ≠ 0 := by
  simp only [NoneFailed, not_forall, exists_prop]

theorem Going.dep_of_processed (going : Going M p ptime i [] 0 pr acts) {j q t e}
    (member : Act.processed j q t e ∈ acts) :
    j < i ∧ ∃ line, (M.lines p)[j]? = some line ∧ q ∈ line.deps :=
  (going.processed j q t e member).resolve_right fun none => List.not_mem_nil none.2

theorem Going.errstat_single (going : Going M p ptime i [] 0 pr acts)
    (colon : M.septype p ≠ .someDeps) : pr.errstat = 0 ↔ NoneFailed acts := by
  rw [← not_iff_not, not_noneFailed, ← ne_eq, going.errstat_iff]
  refine or_iff_right ?_
  rintro ⟨j, member⟩
  exact colon (going.ranBelow j true member).2

theorem Going.outOfDate_iff (going : Going M p ptime i [] 0 pr acts)
    (colon : M.septype p ≠ .someDeps) :
    OutOfDate acts ↔ ptime < pr.tdep ∨ (ptime = 0 ∧ pr.tdep = 0) := by
  have later : ptime < pr.tdep ↔ ∃ j q t e, Act.processed j q t e ∈ acts ∧ ptime < t := by
    rw [(going.single colon).1 ptime]
    constructor
    · rintro ⟨j, q, t, e, _, rest⟩
      exact ⟨j, q, t, e, rest⟩
    · rintro ⟨j, q, t, e, member, newer⟩
      exact ⟨j, q, t, e, (going.dep_of_processed member).1, member, newer⟩
  have missing : OutOfDate acts ↔ ptime = 0 ∨ ptime < pr.tdep := by
    rw [later]
    constructor
    · rintro ⟨t, entered, due⟩
      obtain rfl := (going.entered t).mp entered
      exact due
    · exact fun due => ⟨ptime, (going.entered ptime).mpr rfl, due⟩
  rw [missing]
  omega

theorem Going.accountOf (going : Going M p ptime i [] 0 pr acts) (all : (M.lines p).length ≤ i)
    (upToDate : M.septype p ≠ .someDeps → explicitLine (M.lines p) ≠ none →
      ¬(NoneFailed acts ∧ OutOfDate acts)) : Account M p acts (pr.errstat ≠ 0) := by
  have within : ∀ {j line}, (M.lines p)[j]? = some line → j < i :=
    fun given => Nat.lt_of_lt_of_le (List.getElem?_eq_some_iff.mp given).1 all
  constructor
  · exact going.inOrder
  · exact fun j line given => going.complete j line (within given) given
  · exact fun j q t e member => (going.dep_of_processed member).2
  · exact fun colon j failed member => absurd (going.ranBelow j failed member).2 colon
  · intro colon j explicit
    refine iff_of_false ?_ (upToDate colon (by rw [explicit]; exact Option.some_ne_none j))
    rintro ⟨failed, member⟩
    exact colon (going.ranBelow j failed member).2
  · exact fun colons j line given => (going.double colons).2.2 j line (within given) given
  · rw [going.errstat_iff, not_noneFailed]
    exact or_congr_right (or_iff_right going.gaveUp).symm

theorem Going.gaveUpAccount (going : Going M p ptime i [] 0 pr acts)
    (all : (M.lines p).length ≤ i)
    (colon : M.septype p ≠ .someDeps) (explicit : explicitLine (M.lines p) = none) :
    Account M p (.gaveUp :: acts) (1 ≠ 0) := by
  have account := going.accountOf all fun _ some => absurd explicit some
  have mem_processed : ∀ {j q t e}, Act.processed j q t e ∈ Act.gaveUp :: acts ↔
      Act.processed j q t e ∈ acts := List.mem_cons.trans (or_iff_right nofun)
  constructor
  · exact account.inOrder
  · intro j line given q listed
    obtain ⟨t, e, member⟩ := account.complete j line given q listed
    exact ⟨t, e, mem_processed.mpr member⟩
  · exact fun j q t e member => account.processed j q t e (mem_processed.mp member)
  · intro _ j failed member
    exact absurd (going.ranBelow j failed ((List.mem_cons.mp member).resolve_left nofun)).2 colon
  · exact fun _ j some => absurd (explicit.symm.trans some) nofun
  · exact fun colons => absurd colons colon
  · exact iff_of_true nofun (Or.inr (Or.inl List.mem_cons_self))

theorem Going.ranAccount (going : Going M p ptime i [] 0 pr acts)
    (all : (M.lines p).length ≤ i)
    (colon : M.septype p ≠ .someDeps) {k : Nat} (explicit : explicitLine (M.lines p) = some k)
    (clean : NoneFailed acts) (outOfDate : OutOfDate acts) (failed : Bool) :
    Account M p (.ran k failed :: acts) (failed.toNat ≠ 0) := by
  have within : ∀ {j line}, (M.lines p)[j]? = some line → j < i :=
    fun given => Nat.lt_of_lt_of_le (List.getElem?_eq_some_iff.mp given).1 all
  have mem_processed : ∀ {j q t e}, Act.processed j q t e ∈ Act.ran k failed :: acts ↔
      Act.processed j q t e ∈ acts := List.mem_cons.trans (or_iff_right nofun)
  have unrun : ∀ j failed', Act.ran j failed' ∉ acts :=
    fun j failed' member => colon (going.ranBelow j failed' member).2
  have clean' : NoneFailed (.ran k failed :: acts) :=
    fun j q t e member => clean j q t e (mem_processed.mp member)
  have outOfDate' : OutOfDate (.ran k failed :: acts) := by
    obtain ⟨t, entered, due⟩ := outOfDate
    refine ⟨t, List.mem_cons_of_mem _ entered, due.imp_right ?_⟩
    rintro ⟨j, q, t', e, member, newer⟩
    exact ⟨j, q, t', e, mem_processed.mpr member, newer⟩
  constructor
  · obtain ⟨bound, _⟩ := List.findIdx?_eq_some_iff_getElem.mp explicit
    refine ⟨unrun k, ⟨(M.lines p)[k], List.getElem?_eq_getElem bound, ?_⟩, going.inOrder⟩
    exact going.complete k _ (Nat.lt_of_lt_of_le bound all) (List.getElem?_eq_getElem bound)
  · intro j line given q listed
    obtain ⟨t, e, member⟩ := going.complete j line (within given) given q listed
    exact ⟨t, e, mem_processed.mpr member⟩
  · exact fun j q t e member => (going.dep_of_processed (mem_processed.mp member)).2
  · intro _ j failed' member
    rcases List.mem_cons.mp member with same | member
    · cases same
      exact explicit
    · exact absurd member (unrun j failed')
  · intro _ j same
    obtain rfl : k = j := Option.some.inj (explicit.symm.trans same)
    exact iff_of_true ⟨failed, List.mem_cons_self⟩ ⟨clean', outOfDate'⟩
  · exact fun colons => absurd colons colon
  · have own : (∃ j, Act.ran j true ∈ Act.ran k failed :: acts) ↔ failed = true := by
      constructor
      · rintro ⟨j, member⟩
        rcases List.mem_cons.mp member with same | member
        · cases same
          rfl
        · exact absurd member (unrun j true)
      · rintro rfl
        exact ⟨k, List.mem_cons_self⟩
    have known : Act.gaveUp ∉ Act.ran k failed :: acts :=
      List.not_mem_cons_of_ne_of_not_mem nofun going.gaveUp
    rw [own, or_iff_left (not_or.mpr ⟨known, not_not.mpr clean'⟩)]
    cases failed <;> decide

end Account

/-! ## The states of a run -/

section Runs

variable {M : Makefile ν κ} {S : System ν κ σ} {p : ν} {ptime : Nat} {st st' : State ν σ}

/-- What is known of the marks with which line `j` of `a` was decided: what is settled stays as
it was, and `doname` returned no errors for a dependency that was not marked as failed. -/
structure Marks (M : Makefile ν κ) (st : State ν σ) (a : ν) (j : Nat) (marks : List (ν × Done)) :
    Prop where
  line : ∃ line, (M.lines a)[j]? = some line ∧ marks.map Prod.fst = line.deps
  done : ∀ q m, (q, m) ∈ marks → st.done q ≠ .unknown ∧ (m ≠ .inProcess → st.done q = m)
  cyclic : ∀ q, (q, Done.inProcess) ∈ marks → TransGen (Dep M) q a
  answer : ∀ q m, (q, m) ∈ marks → ∀ t e, Act.processed j q t e ∈ st.acts a →
    (e ≠ 0 ↔ m = .failed)

/-- The lines before `i` have been decided, and no others. -/
def Looked (M : Makefile ν κ) (p : ν) (i : Nat) (acts : List (Act ν)) : Prop :=
  (∀ j marks, Act.decided j marks ∈ acts → j < i) ∧
    ∀ j line, j < i → (M.lines p)[j]? = some line → ∃ marks, Act.decided j marks ∈ acts

/-- The invariant between activations. -/
structure Inv (M : Makefile ν κ) (st : State ν σ) : Prop where
  settled : ∀ p, Settled st p → Account M p (st.acts p) (st.done p = .failed)
  fresh : ∀ p, st.done p = .unknown → st.acts p = []
  marked : ∀ p j marks, Act.decided j marks ∈ st.acts p → Marks M st p j marks
  looked : ∀ p, Settled st p → ∀ i line, (M.lines p)[i]? = some line →
    ∃ marks, Act.decided i marks ∈ st.acts p

/-- What an activation leaves of the targets that were begun before. -/
structure Extends (st st' : State ν σ) : Prop where
  kept : ∀ q, st.done q ≠ .unknown → st'.done q = st.done q ∧ st'.acts q = st.acts q
  opened : ∀ q, st'.done q = .inProcess → st.done q = .inProcess

/-- The states during the activation for `p`, which was entered in the state `st`. -/
structure During (p : ν) (st now : State ν σ) : Prop where
  unknown : st.done p = .unknown
  inProcess : now.done p = .inProcess
  kept : ∀ q, st.done q ≠ .unknown → now.done q = st.done q ∧ now.acts q = st.acts q
  opened : ∀ q, now.done q = .inProcess → st.done q = .inProcess ∨ q = p
  answers : ∀ i q t e, Act.processed i q t e ∈ now.acts p →
    now.done q ≠ .unknown ∧ (e ≠ 0 ↔ now.done q = .failed)

/-- Only the account of the target has changed, and the file system. -/
structure Own (p : ν) (st st' : State ν σ) : Prop where
  done : st'.done = st.done
  others : ∀ q, q ≠ p → st'.acts q = st.acts q

/-- What is known of a call of `doname` for `q`. -/
structure Returned (M : Makefile ν κ) (q : ν) (st : State ν σ) (e : Nat) (st' : State ν σ) :
    Prop where
  inv : Inv M st'
  beyond : Extends st st'
  answer : (Settled st' q ∧ (e ≠ 0 ↔ st'.done q = .failed)) ∨ (e = 0 ∧ st.done q = .inProcess)

/-- A routine that answers correctly for every target that all targets in process depend on. -/
def Correctly (M : Makefile ν κ) (recur : ν → State ν σ → Option (Answer ν σ)) : Prop :=
  ∀ q st e t st', Inv M st → (∀ r, st.done r = .inProcess → TransGen (Dep M) r q) →
    recur q st = some (e, t, st') → Returned M q st e st'

theorem Own.refl (p : ν) (st : State ν σ) : Own p st st := ⟨rfl, fun _ _ => rfl⟩

theorem Own.trans {later : State ν σ} (first : Own p st st') (second : Own p st' later) :
    Own p st later :=
  ⟨second.done.trans first.done, fun q other => (second.others q other).trans (first.others q other)⟩

theorem Extends.refl (st : State ν σ) : Extends st st := ⟨fun _ _ => ⟨rfl, rfl⟩, fun _ => id⟩

theorem Extends.trans {later : State ν σ} (first : Extends st st') (second : Extends st' later) :
    Extends st later := by
  refine ⟨fun q known => ?_, fun q opened => first.opened q (second.opened q opened)⟩
  obtain ⟨done, acts⟩ := first.kept q known
  obtain ⟨done', acts'⟩ := second.kept q (done ▸ known)
  exact ⟨done'.trans done, acts'.trans acts⟩

theorem Settled.ne_unknown {q : ν} (settled : Settled st q) : st.done q ≠ .unknown := by
  rcases settled with done | done <;> rw [done] <;> decide

theorem Settled.ne_inProcess {q : ν} (settled : Settled st q) : st.done q ≠ .inProcess := by
  rcases settled with done | done <;> rw [done] <;> decide

/-- What has been begun stays known, and what is settled as it is. -/
def Kept (st st' : State ν σ) : Prop := ∀ q, st.done q ≠ .unknown →
  st'.done q ≠ .unknown ∧ (st.done q ≠ .inProcess → st'.done q = st.done q)

theorem Own.keeps (own : Own p st st') : Kept st st' := fun q known => by
  rw [own.done]
  exact ⟨known, fun _ => rfl⟩

theorem Marks.extend {a : ν} {j : Nat} {marks : List (ν × Done)} (given : Marks M st a j marks)
    (kept : Kept st st')
    (known : ∀ q t e, Act.processed j q t e ∈ st'.acts a → Act.processed j q t e ∈ st.acts a) :
    Marks M st' a j marks := by
  refine ⟨given.line, fun q m mark => ?_, given.cyclic, fun q m mark t e member =>
    given.answer q m mark t e (known q t e member)⟩
  obtain ⟨some, same⟩ := given.done q m mark
  refine ⟨(kept q some).1, fun closed => ?_⟩
  rw [(kept q some).2 (same closed ▸ closed), same closed]

theorem During.extend {now next : State ν σ} (during : During p st now)
    (extend : Extends now next) : During p st next := by
  have begun : now.done p ≠ .unknown := by
    rw [during.inProcess]
    decide
  refine ⟨during.unknown, (extend.kept p begun).1.trans during.inProcess, fun q known => ?_,
    fun q opened => during.opened q (extend.opened q opened), fun i q t e member => ?_⟩
  · obtain ⟨done, acts⟩ := during.kept q known
    obtain ⟨done', acts'⟩ := extend.kept q (done ▸ known)
    exact ⟨done'.trans done, acts'.trans acts⟩
  · rw [(extend.kept p begun).2] at member
    obtain ⟨known, answer⟩ := during.answers i q t e member
    rw [(extend.kept q known).1]
    exact ⟨known, answer⟩

/-- Every target in process depends on every dependency of the target that is being done. -/
theorem During.stack {now : State ν σ} {q : ν} (during : During p st now)
    (stack : ∀ r, st.done r = .inProcess → TransGen (Dep M) r p) (dep : Dep M p q) :
    ∀ r, now.done r = .inProcess → TransGen (Dep M) r q := by
  intro r opened
  rcases during.opened r opened with before | rfl
  · exact (stack r before).tail dep
  · exact .single dep

theorem During.cycle {now : State ν σ} {q : ν} (during : During p st now)
    (stack : ∀ r, st.done r = .inProcess → TransGen (Dep M) r p) (dep : Dep M p q)
    (opened : now.done q = .inProcess) : TransGen (Dep M) q p := by
  rcases during.opened q opened with before | rfl
  · exact stack q before
  · exact .single dep

/-- The target's own acts leave the invariant, when its dependencies are accounted for. -/
theorem Inv.own {now next : State ν σ} (inv : Inv M now) (inProcess : now.done p = .inProcess)
    (own : Own p now next)
    (marked : ∀ j marks, Act.decided j marks ∈ next.acts p → Marks M next p j marks) :
    Inv M next := by
  have other : ∀ r, Settled next r → r ≠ p := by
    rintro r settled rfl
    rw [Settled, own.done] at settled
    exact Settled.ne_inProcess settled inProcess
  refine ⟨fun r settled => ?_, fun r unknown => ?_, fun r j marks member => ?_,
    fun r settled => ?_⟩
  · rw [own.others r (other r settled), own.done]
    rw [Settled, own.done] at settled
    exact inv.settled r settled
  · rw [own.done] at unknown
    have other : r ≠ p := by
      rintro rfl
      exact absurd (inProcess.symm.trans unknown) (by decide)
    rw [own.others r other]
    exact inv.fresh r unknown
  · by_cases target : r = p
    · subst target
      exact marked j marks member
    · rw [own.others r target] at member
      refine (inv.marked r j marks member).extend own.keeps ?_
      rw [own.others r target]
      exact fun _ _ _ => id
  · rw [own.others r (other r settled)]
    rw [Settled, own.done] at settled
    exact inv.looked r settled

theorem During.own {now next : State ν σ} (during : During p st now) (own : Own p now next)
    (answers : ∀ i q t e, Act.processed i q t e ∈ next.acts p →
      now.done q ≠ .unknown ∧ (e ≠ 0 ↔ now.done q = .failed)) : During p st next := by
  refine ⟨during.unknown, ?_, fun q known => ?_, fun q opened => ?_, fun i q t e member => ?_⟩
  · rw [own.done]
    exact during.inProcess
  · have other : q ≠ p := by
      rintro rfl
      exact known during.unknown
    rw [own.done, own.others q other]
    exact during.kept q known
  · rw [own.done] at opened
    exact during.opened q opened
  · rw [own.done]
    exact answers i q t e member

/-- The marks of a line whose dependencies have been done. -/
theorem During.marks {now next : State ν σ} (during : During p st now)
    (stack : ∀ r, st.done r = .inProcess → TransGen (Dep M) r p) {i : Nat}
    {line : Line ν κ} (given : (M.lines p)[i]? = some line)
    (seen : ∀ q ∈ line.deps, ∃ t e, Act.processed i q t e ∈ now.acts p)
    (same : next.done = now.done)
    (known : ∀ j q t e, Act.processed j q t e ∈ next.acts p → Act.processed j q t e ∈ now.acts p) :
    Marks M next p i (line.deps.map fun q => (q, now.done q)) := by
  refine ⟨⟨line, given, ?_⟩, fun q m mark => ?_, fun q mark => ?_, fun q m mark t e member => ?_⟩
  · rw [List.map_map]
    exact List.map_id _
  · obtain ⟨_, listed, same'⟩ := List.mem_map.mp mark
    cases same'
    obtain ⟨t, e, member⟩ := seen q listed
    rw [same]
    exact ⟨(during.answers i q t e member).1, fun _ => rfl⟩
  · obtain ⟨r, listed, same'⟩ := List.mem_map.mp mark
    obtain ⟨rfl, opened⟩ := Prod.mk.inj same'
    exact during.cycle stack ⟨line, List.mem_of_getElem? given, listed⟩ opened
  · obtain ⟨_, _, same'⟩ := List.mem_map.mp mark
    cases same'
    exact (during.answers i q t e (known i q t e member)).2

theorem Looked.next {i : Nat} {acts acts' : List (Act ν)} (looked : Looked M p i acts)
    {marks : List (ν × Done)}
    (kept : ∀ j marks, Act.decided j marks ∈ acts' ↔ Act.decided j marks ∈ acts) :
    Looked M p (i + 1) (.decided i marks :: acts') := by
  refine ⟨fun j marks' member => ?_, fun j line below given => ?_⟩
  · rcases List.mem_cons.mp member with same | member
    · cases same
      exact Nat.lt_succ_self i
    · exact Nat.lt_succ_of_lt (looked.1 j marks' ((kept j marks').mp member))
  · rcases Nat.lt_succ_iff_lt_or_eq.mp below with below | rfl
    · obtain ⟨marks', member⟩ := looked.2 j line below given
      exact ⟨marks', List.mem_cons_of_mem _ ((kept j marks').mpr member)⟩
    · exact ⟨marks, List.mem_cons_self⟩

end Runs

/-! ## The activation for one target -/

section Activation

variable [DecidableEq ν] {M : Makefile ν κ} {S : System ν κ σ} {p : ν} {ptime : Nat}
  {st st' now next : State ν σ}

theorem own_note (st : State ν σ) (p : ν) (act : Act ν) (world : σ) :
    Own p st ({ st with world := world }.note p act) :=
  ⟨rfl, fun _ other => Function.update_of_ne other _ _⟩

theorem acts_note (st : State ν σ) (p : ν) (act : Act ν) :
    (st.note p act).acts p = act :: st.acts p := Function.update_self _ _ _

theorem Going.decideLine {i td : Nat} {line : Line ν κ} {pr : Progress ν κ}
    (going : Going M p ptime i line.deps td pr (st.acts p))
    (given : (M.lines p)[i]? = some line) :
    Going M p ptime (i + 1) [] 0 (Make.decideLine M S p i ptime line td pr st).1
        ((Make.decideLine M S p i ptime line td pr st).2.acts p) ∧
      Own p st (Make.decideLine M S p i ptime line td pr st).2 ∧
      (∀ j q t e, Act.processed j q t e ∈ (Make.decideLine M S p i ptime line td pr st).2.acts p →
        Act.processed j q t e ∈ st.acts p) ∧
      ∀ j marks, Act.decided j marks ∈ (Make.decideLine M S p i ptime line td pr st).2.acts p ↔
        Act.decided j marks ∈ st.acts p := by
  rw [Make.decideLine]
  split
  next colon =>
    refine ⟨going.next given rfl (fun _ => ?_) (fun colons => absurd colons colon), Own.refl p st,
      fun _ _ _ _ => id, fun _ _ => Iff.rfl⟩
    obtain ⟨tdep, explicit⟩ := going.single colon
    constructor
    · intro T
      rw [lt_max_iff, tdep T, going.td_iff T]
      constructor
      · rintro (⟨j, q, t, e, below, rest⟩ | ⟨q, t, e, rest⟩)
        · exact ⟨j, q, t, e, Nat.lt_succ_of_lt below, rest⟩
        · exact ⟨i, q, t, e, Nat.lt_succ_self i, rest⟩
      · rintro ⟨j, q, t, e, below, rest⟩
        rcases Nat.lt_succ_iff_lt_or_eq.mp below with below | rfl
        · exact Or.inl ⟨j, q, t, e, below, rest⟩
        · exact Or.inr ⟨q, t, e, rest⟩
    · rw [explicitLine_take_succ given, ← explicit]
      cases line.shp.isEmpty with
      | true => simp
      | false => cases pr.explcom <;> rfl
  next colon =>
    have colons : M.septype p = .someDeps := not_not.mp colon
    have due_iff := going.lineDue_iff
    split
    next due =>
      have due' := due_iff.mpr (due.2.imp_right (Or.imp_right List.isEmpty_iff.mp))
      have ran := going.ran given colons (List.isEmpty_eq_false_iff.mp due.1) due'
      cases docom S ⟨p, pr.achain, pr.qchain⟩ line.shp st.world with
      | mk failed world =>
          refine ⟨?_, own_note st p _ _, fun j q t e member => ?_, fun j marks => ?_⟩
          · rw [acts_note]
            exact ran failed _
          · rw [acts_note] at member
            exact (List.mem_cons.mp member).resolve_left nofun
          · rw [acts_note]
            exact List.mem_cons.trans (or_iff_right nofun)
    next idle =>
      obtain ⟨explicit, tdep, _⟩ := going.double colons
      refine ⟨going.next given rfl (fun colon => absurd colons colon) fun _ => ?_, Own.refl p st,
        fun _ _ _ _ => id, fun _ _ => Iff.rfl⟩
      refine ⟨explicit, tdep, ?_⟩
      by_cases empty : line.shp = []
      · exact Or.inl empty
      · refine Or.inr fun due => idle ⟨List.isEmpty_eq_false_iff.mpr empty, ?_⟩
        exact (due_iff.mp due).imp_right (Or.imp_right List.isEmpty_iff.mpr)

theorem doDeps_spec {recur : ν → State ν σ → Option (Answer ν σ)} (correctly : Correctly M recur)
    (stack : ∀ r, st.done r = .inProcess → TransGen (Dep M) r p) {i : Nat} {line : Line ν κ}
    (given : (M.lines p)[i]? = some line) {rest seen : List ν} (split : seen ++ rest = line.deps)
    {td td' : Nat} {pr pr' : Progress ν κ} (inv : Inv M now)
    (during : During p st now) (going : Going M p ptime i seen td pr (now.acts p))
    (looked : Looked M p i (now.acts p))
    (ran : doDeps recur p i ptime rest td pr now = some (td', pr', next)) :
    Inv M next ∧ During p st next ∧ Going M p ptime i line.deps td' pr' (next.acts p) ∧
      Looked M p i (next.acts p) := by
  induction rest generalizing seen td pr now with
  | nil =>
      obtain ⟨rfl, rfl, rfl⟩ : td = td' ∧ pr = pr' ∧ now = next := by
        simpa [doDeps] using ran
      rw [← split, List.append_nil]
      exact ⟨inv, during, going, looked⟩
  | cons q rest ih =>
      obtain ⟨⟨e, t, middle⟩, called, ran⟩ := Option.bind_eq_some_iff.mp ran
      have listed : q ∈ line.deps := split ▸ List.mem_append_right seen List.mem_cons_self
      have dep : Dep M p q := ⟨line, List.mem_of_getElem? given, listed⟩
      have returned := correctly q now e t middle inv (during.stack stack dep) called
      have during' := during.extend returned.beyond
      have begun : now.done p ≠ .unknown := by
        rw [during.inProcess]
        decide
      rw [← (returned.beyond.kept p begun).2] at going looked
      have own := own_note middle p (.processed i q t e) middle.world
      have looked' : Looked M p i ((middle.note p (.processed i q t e)).acts p) := by
        simpa only [Looked, acts_note, List.mem_cons, reduceCtorEq, false_or] using looked
      have marked : ∀ j marks, Act.decided j marks ∈ (middle.note p (.processed i q t e)).acts p →
          Marks M (middle.note p (.processed i q t e)) p j marks := by
        intro j marks member
        have below := looked'.1 j marks member
        rw [acts_note] at member
        refine (returned.inv.marked p j marks ((List.mem_cons.mp member).resolve_left
          (fun other => by cases other))).extend own.keeps fun q' t' e' known => ?_
        rw [acts_note] at known
        refine (List.mem_cons.mp known).resolve_left ?_
        rintro ⟨⟩
        exact Nat.lt_irrefl _ below
      have answers : ∀ j q' t' e', Act.processed j q' t' e' ∈
          (middle.note p (.processed i q t e)).acts p →
            middle.done q' ≠ .unknown ∧ (e' ≠ 0 ↔ middle.done q' = .failed) := by
        intro j q' t' e' member
        rw [acts_note] at member
        rcases List.mem_cons.mp member with same | member
        · cases same
          rcases returned.answer with ⟨settled, answer⟩ | ⟨zero, opened⟩
          · exact ⟨settled.ne_unknown, answer⟩
          · have known : now.done q ≠ .unknown := opened ▸ (by decide)
            rw [(returned.beyond.kept q known).1, opened, zero]
            decide
        · exact during'.answers j q' t' e' member
      have split' : (seen ++ [q]) ++ rest = line.deps := by
        rw [List.append_assoc]
        exact split
      refine ih split' (returned.inv.own during'.inProcess own marked)
        (during'.own own answers) ?_ looked' ran
      rw [acts_note]
      exact going.dep q t e _ _

theorem doLines_spec {recur : ν → State ν σ → Option (Answer ν σ)} (correctly : Correctly M recur)
    (stack : ∀ r, st.done r = .inProcess → TransGen (Dep M) r p) {i : Nat}
    {rest : List (Line ν κ)} (split : (M.lines p).drop i = rest) {pr pr' : Progress ν κ}
    (inv : Inv M now) (during : During p st now)
    (going : Going M p ptime i [] 0 pr (now.acts p)) (looked : Looked M p i (now.acts p))
    (ran : doLines M S recur p ptime rest i pr now = some (pr', next)) :
    Inv M next ∧ During p st next ∧ ∃ n, (M.lines p).length ≤ n ∧
      Going M p ptime n [] 0 pr' (next.acts p) ∧ Looked M p n (next.acts p) := by
  induction rest generalizing i pr now with
  | nil =>
      obtain ⟨rfl, rfl⟩ := Prod.mk.inj (Option.some.inj ran)
      exact ⟨inv, during, i, List.drop_eq_nil_iff.mp split, going, looked⟩
  | cons line rest ih =>
      have given : (M.lines p)[i]? = some line := by
        rw [← List.head?_drop, split, List.head?_cons]
      obtain ⟨⟨td, middle, after⟩, deps, ran⟩ := Option.bind_eq_some_iff.mp ran
      obtain ⟨inv', during', going', looked'⟩ :=
        doDeps_spec correctly stack given (List.nil_append line.deps) inv during going looked deps
      obtain ⟨decided, own, known, kept⟩ := going'.decideLine (S := S) given
      change doLines M S recur p ptime rest (i + 1)
        (Make.decideLine M S p i ptime line td middle after).1
        ((Make.decideLine M S p i ptime line td middle after).2.note p _) = _ at ran
      generalize Make.decideLine M S p i ptime line td middle after = decision at *
      have own' : Own p after (decision.2.note p
          (.decided i (line.deps.map fun q => (q, after.done q)))) :=
        own.trans (own_note decision.2 p _ decision.2.world)
      have known' : ∀ j q t e, Act.processed j q t e ∈ (decision.2.note p
          (.decided i (line.deps.map fun q => (q, after.done q)))).acts p →
            Act.processed j q t e ∈ after.acts p := by
        intro j q t e member
        rw [acts_note] at member
        exact known j q t e ((List.mem_cons.mp member).resolve_left nofun)
      refine ih ?_ (inv'.own during'.inProcess own' ?_) (during'.own own' ?_) ?_ ?_ ran
      · rw [← List.drop_drop, split]
        rfl
      · intro j marks member
        rw [acts_note] at member
        rcases List.mem_cons.mp member with same | member
        · cases same
          exact during'.marks stack given going'.seenDone own'.done known'
        · exact (inv'.marked p j marks ((kept j marks).mp member)).extend own'.keeps
            fun q t e => known' j q t e
      · exact fun j q t e member => during'.answers j q t e (known' j q t e member)
      · rw [acts_note]
        exact decided.look i _
      · rw [acts_note]
        exact looked'.next kept

theorem Going.account {n : Nat} {pr : Progress ν κ} (all : (M.lines p).length ≤ n)
    (going : Going M p ptime n [] 0 pr (now.acts p)) {e t : Nat}
    (decided : decideTarget M S p ptime pr now = (e, t, next)) :
    Own p now next ∧ Account M p (next.acts p) (e ≠ 0) ∧
      (∀ i q t e, Act.processed i q t e ∈ next.acts p → Act.processed i q t e ∈ now.acts p) ∧
      ∀ i marks, Act.decided i marks ∈ next.acts p ↔ Act.decided i marks ∈ now.acts p := by
  have whole : (M.lines p).take n = M.lines p := List.take_of_length_le all
  rw [decideTarget] at decided
  split at decided
  next due =>
    simp only at decided
    split at decided
    next i shp explicit =>
      have colon : M.septype p ≠ .someDeps :=
        fun colons => absurd ((going.double colons).1.symm.trans explicit) nofun
      have line : explicitLine (M.lines p) = some i := by
        rw [← whole, ← (going.single colon).2, explicit]
        rfl
      have account := going.ranAccount all colon line ((going.errstat_single colon).mp due.1)
        ((going.outOfDate_iff colon).mpr due.2)
      cases result : docom S ⟨p, pr.achain, pr.qchain⟩ shp now.world with
      | mk failed world =>
          rw [result] at decided
          obtain ⟨rfl, _, rfl⟩ : failed.toNat = e ∧ _ = t ∧
              { now with world := world }.note p (.ran i failed) = next := by
            simpa only [Prod.mk.injEq] using decided
          refine ⟨own_note now p _ world, ?_, fun j q t' e' member => ?_, fun j marks => ?_⟩
          · rw [acts_note]
            exact account failed
          · rw [acts_note] at member
            exact (List.mem_cons.mp member).resolve_left nofun
          · rw [acts_note]
            exact List.mem_cons.trans (or_iff_right nofun)
    next explicit =>
      have none : M.septype p ≠ .someDeps → explicitLine (M.lines p) = none := by
        intro colon
        rw [← whole, ← (going.single colon).2, explicit]
        rfl
      split at decided
      next ruleless =>
        have colon : M.septype p ≠ .someDeps := by
          rw [ruleless]
          decide
        obtain ⟨rfl, _, rfl⟩ : 1 = e ∧ _ = t ∧ now.note p .gaveUp = next := by
          simpa only [Prod.mk.injEq] using decided
        refine ⟨own_note now p _ now.world, ?_, fun j q t' e' member => ?_, fun j marks => ?_⟩
        · rw [acts_note]
          exact going.gaveUpAccount all colon (none colon)
        · rw [acts_note] at member
          exact (List.mem_cons.mp member).resolve_left nofun
        · rw [acts_note]
          exact List.mem_cons.trans (or_iff_right nofun)
      next =>
        obtain ⟨rfl, _, rfl⟩ : 0 = e ∧ _ = t ∧ now = next := by
          simpa only [Prod.mk.injEq] using decided
        refine ⟨Own.refl p now, ?_, fun _ _ _ _ => id, fun _ _ => Iff.rfl⟩
        have account := going.accountOf all fun colon some => absurd (none colon) some
        rwa [due.1] at account
  next idle =>
    obtain ⟨rfl, _, rfl⟩ : pr.errstat = e ∧ ptime = t ∧ now = next := by
      simpa only [Prod.mk.injEq] using decided
    refine ⟨Own.refl p now, going.accountOf all fun colon _ both => idle ?_, fun _ _ _ _ => id,
      fun _ _ => Iff.rfl⟩
    exact ⟨(going.errstat_single colon).mpr both.1, (going.outOfDate_iff colon).mp both.2⟩

theorem Inv.enter (inv : Inv M st) (unknown : st.done p = .unknown) (ptime : Nat) :
    Inv M (st.enter p ptime) := by
  have self : (st.enter p ptime).done p = .inProcess := Function.update_self _ _ _
  have other : ∀ q, q ≠ p → (st.enter p ptime).done q = st.done q ∧
      (st.enter p ptime).acts q = st.acts q :=
    fun q ne => ⟨Function.update_of_ne ne _ _, Function.update_of_ne ne _ _⟩
  have before : ∀ {q act}, act ∈ (st.enter p ptime).acts q → act ≠ .entered ptime →
      act ∈ st.acts q := by
    intro q act member neutral
    by_cases target : q = p
    · subst target
      rw [State.enter, acts_note] at member
      exact (List.mem_cons.mp member).resolve_left neutral
    · rwa [(other q target).2] at member
  have outside : ∀ {q}, Settled (st.enter p ptime) q → q ≠ p ∧ Settled st q := by
    intro q settled
    have ne : q ≠ p := by
      rintro rfl
      exact settled.ne_inProcess self
    rw [Settled, (other q ne).1] at settled
    exact ⟨ne, settled⟩
  refine ⟨fun q settled => ?_, fun q fresh => ?_, fun q j marks member => ?_,
    fun q settled => ?_⟩
  · obtain ⟨ne, settled'⟩ := outside settled
    rw [(other q ne).2, (other q ne).1]
    exact inv.settled q settled'
  · have ne : q ≠ p := by
      rintro rfl
      exact absurd (self.symm.trans fresh) (by decide)
    rw [(other q ne).2]
    rw [(other q ne).1] at fresh
    exact inv.fresh q fresh
  · refine (inv.marked q j marks (before member nofun)).extend (fun r known => ?_)
      fun r t e given => before given nofun
    have ne : r ≠ p := by
      rintro rfl
      exact known unknown
    rw [(other r ne).1]
    exact ⟨known, fun _ => rfl⟩
  · obtain ⟨ne, settled'⟩ := outside settled
    rw [(other q ne).2]
    exact inv.looked q settled'

theorem During.enter (inv : Inv M st) (unknown : st.done p = .unknown) (ptime : Nat) :
    During p st (st.enter p ptime) := by
  refine ⟨unknown, Function.update_self _ _ _, fun q known => ?_, fun q opened => ?_,
    fun i q t e member => ?_⟩
  · have ne : q ≠ p := by
      rintro rfl
      exact known unknown
    exact ⟨Function.update_of_ne ne _ _, Function.update_of_ne ne _ _⟩
  · by_cases target : q = p
    · exact Or.inr target
    · exact Or.inl ((Function.update_of_ne target _ _).symm.trans opened)
  · rw [State.enter, acts_note, inv.fresh p unknown] at member
    exact absurd (List.mem_singleton.mp member) nofun

theorem Inv.settle (inv : Inv M now) (during : During p st now) {e : Nat}
    (account : Account M p (now.acts p) (e ≠ 0))
    (looked : ∀ i line, (M.lines p)[i]? = some line → ∃ marks, Act.decided i marks ∈ now.acts p)
    (time : Nat) (pr : Progress ν κ) :
    Returned M p st e (Make.settle p pr (e, time, now)).2.2 := by
  set after := (Make.settle p pr (e, time, now)).2.2
  have self : after.done p = if e = 0 then .current else .failed := Function.update_self _ _ _
  have other : ∀ q, q ≠ p → after.done q = now.done q := fun q ne => Function.update_of_ne ne _ _
  have settled_self : Settled after p := by
    rw [Settled, self]
    split
    · exact Or.inl rfl
    · exact Or.inr rfl
  have failed_self : e ≠ 0 ↔ after.done p = .failed := by
    rw [self]
    split
    next zero => exact iff_of_false (not_not.mpr zero) (by decide)
    next nonzero => exact iff_of_true nonzero rfl
  refine ⟨⟨fun q settled => ?_, fun q fresh => ?_, fun q j marks member => ?_,
      fun q settled => ?_⟩,
    ⟨fun q known => ?_, fun q opened => ?_⟩, Or.inl ⟨settled_self, failed_self⟩⟩
  · by_cases target : q = p
    · subst target
      rw [← failed_self]
      exact account
    · rw [other q target]
      rw [Settled, other q target] at settled
      exact inv.settled q settled
  · have ne : q ≠ p := by
      rintro rfl
      exact settled_self.ne_unknown fresh
    rw [other q ne] at fresh
    exact inv.fresh q fresh
  · refine (inv.marked q j marks member).extend (fun r known => ?_) fun _ _ _ => id
    by_cases target : r = p
    · subst target
      exact ⟨settled_self.ne_unknown, fun closed => absurd during.inProcess closed⟩
    · rw [other r target]
      exact ⟨known, fun _ => rfl⟩
  · by_cases target : q = p
    · subst target
      exact looked
    · rw [Settled, other q target] at settled
      exact inv.looked q settled
  · have ne : q ≠ p := by
      rintro rfl
      exact known during.unknown
    rw [other q ne]
    exact during.kept q known
  · have ne : q ≠ p := by
      rintro rfl
      exact settled_self.ne_inProcess opened
    rw [other q ne] at opened
    exact (during.opened q opened).resolve_right ne

theorem doname_correctly (fuel : Nat) : Correctly M (doname M S fuel) := by
  induction fuel with
  | zero =>
      intro q st e t st' _ _ ran
      exact absurd ran nofun
  | succ fuel ih =>
      intro q st e t st' inv stack ran
      have answered : ∀ {n time}, some (n, time, st) = some (e, t, st') → n = e ∧ st = st' :=
        fun same => ⟨congrArg Prod.fst (Option.some.inj same),
          congrArg (fun a => a.2.2) (Option.some.inj same)⟩
      rw [doname] at ran
      cases known : st.done q with
      | unknown =>
          rw [known] at ran
          obtain ⟨⟨pr, now⟩, lines, ended⟩ := Option.map_eq_some_iff.mp ran
          have going : Going M q (S.mtime q st.world) 0 [] 0 (⟨0, 0, none, [], [], 0⟩ : Progress ν κ)
              ((st.enter q (S.mtime q st.world)).acts q) := by
            rw [State.enter, acts_note, inv.fresh q known]
            exact Going.start
          have looked : Looked M q 0 ((st.enter q (S.mtime q st.world)).acts q) := by
            rw [State.enter, acts_note, inv.fresh q known]
            exact ⟨fun j marks member => absurd (List.mem_singleton.mp member) nofun,
              fun j line below => absurd below (Nat.not_lt_zero j)⟩
          obtain ⟨inv', during, n, all, going', looked'⟩ := doLines_spec ih stack List.drop_zero
            (inv.enter known _) (During.enter inv known _) going looked lines
          cases decided : decideTarget M S q (S.mtime q st.world) pr now with
          | mk e' rest =>
              obtain ⟨own, account, processed, same⟩ := going'.account all decided
              have inv'' := inv'.own during.inProcess own fun j marks member =>
                (inv'.marked q j marks ((same j marks).mp member)).extend own.keeps
                  fun r t' e'' => processed j r t' e''
              have during' := during.own own fun i r t' e'' member =>
                during.answers i r t' e'' (processed i r t' e'' member)
              have returned := inv''.settle during' account (fun i line given => by
                have below := (List.getElem?_eq_some_iff.mp given).1
                obtain ⟨marks, member⟩ := looked'.2 i line (Nat.lt_of_lt_of_le below all) given
                exact ⟨marks, (same i marks).mpr member⟩) rest.1 pr
              change settle q pr (decideTarget M S q (S.mtime q st.world) pr now) = _ at ended
              rw [decided] at ended
              cases ended
              exact returned
      | inProcess =>
          rw [known] at ran
          obtain ⟨rfl, rfl⟩ := answered ran
          exact ⟨inv, Extends.refl st, Or.inr ⟨rfl, known⟩⟩
      | current =>
          rw [known] at ran
          obtain ⟨rfl, rfl⟩ := answered ran
          refine ⟨inv, Extends.refl st, Or.inl ⟨Or.inl known, iff_of_false (not_not.mpr rfl) ?_⟩⟩
          rw [known]
          decide
      | failed =>
          rw [known] at ran
          obtain ⟨rfl, rfl⟩ := answered ran
          exact ⟨inv, Extends.refl st, Or.inl ⟨Or.inr known, iff_of_true Nat.one_ne_zero known⟩⟩

end Activation

/-! ## Every activation returns -/

section Termination

variable [DecidableEq ν] {M : Makefile ν κ} {S : System ν κ σ} {p : ν} {st st' : State ν σ}

/-- How many names have not been entered. -/
def remaining (M : Makefile ν κ) (st : State ν σ) : Nat :=
  M.names.countP fun q => st.done q = .unknown

/-- A routine that returns when fewer than `n` names have not been entered. -/
def Returns (M : Makefile ν κ) (n : Nat) (recur : ν → State ν σ → Option (Answer ν σ)) : Prop :=
  ∀ q ∈ M.names, ∀ st, remaining M st < n →
    ∃ answer, recur q st = some answer ∧ remaining M answer.2.2 ≤ remaining M st

theorem remaining_mark (p : ν) {d : Done} (marked : d ≠ .unknown)
    (done : st'.done = Function.update st.done p d) : remaining M st' ≤ remaining M st := by
  refine List.countP_mono_left fun q _ fresh => ?_
  have unknown := of_decide_eq_true fresh
  have ne : q ≠ p := by
    rintro rfl
    rw [done, Function.update_self] at unknown
    exact marked unknown
  rw [done, Function.update_of_ne ne] at unknown
  exact decide_eq_true unknown

theorem remaining_enter (listed : p ∈ M.names) (unknown : st.done p = .unknown) (ptime : Nat) :
    remaining M (st.enter p ptime) < remaining M st := by
  have done : (st.enter p ptime).done = Function.update st.done p .inProcess := rfl
  obtain ⟨before, after, split⟩ := List.append_of_mem listed
  have each : ∀ l : List ν, l.countP (fun q => (st.enter p ptime).done q = .unknown) ≤
      l.countP fun q => st.done q = .unknown :=
    fun l => remaining_mark (M := ⟨l, fun _ => .none, fun _ => [], nofun⟩) (κ := κ) p
      (by decide : Done.inProcess ≠ .unknown) done
  have entered : (st.enter p ptime).done p ≠ .unknown := by
    rw [done, Function.update_self]
    decide
  rw [remaining, remaining, split, List.countP_append, List.countP_append, List.countP_cons,
    List.countP_cons, if_neg (by simpa using entered), if_pos (decide_eq_true unknown)]
  have := each before
  have := each after
  omega

theorem doDeps_returns {recur : ν → State ν σ → Option (Answer ν σ)} {n : Nat}
    (returns : Returns M n recur) {i ptime : Nat} {deps : List ν} (listed : ∀ q ∈ deps, q ∈ M.names)
    (td : Nat) (pr : Progress ν κ) (few : remaining M st < n) :
    ∃ result, doDeps recur p i ptime deps td pr st = some result ∧
      remaining M result.2.2 ≤ remaining M st := by
  induction deps generalizing td pr st with
  | nil => exact ⟨_, rfl, Nat.le_refl _⟩
  | cons q deps ih =>
      obtain ⟨⟨e, t, now⟩, called, fewer⟩ := returns q (listed q List.mem_cons_self) st few
      have fewer' : remaining M (now.note p (.processed i q t e)) < n :=
        Nat.lt_of_le_of_lt fewer few
      obtain ⟨result, ran, less⟩ :=
        ih (fun r member => listed r (List.mem_cons_of_mem q member)) (max td t) _ fewer'
      refine ⟨result, ?_, Nat.le_trans less fewer⟩
      rw [doDeps, called]
      exact ran

theorem decideLine_done (p : ν) (i ptime : Nat) (line : Line ν κ) (td : Nat) (pr : Progress ν κ)
    (st : State ν σ) : (decideLine M S p i ptime line td pr st).2.done = st.done := by
  rw [decideLine]
  split
  · rfl
  · split <;> rfl

theorem decideTarget_done (p : ν) (ptime : Nat) (pr : Progress ν κ) (st : State ν σ) :
    (decideTarget M S p ptime pr st).2.2.done = st.done := by
  rw [decideTarget]
  split
  · simp only
    split
    · rfl
    · split <;> rfl
  · rfl

theorem doLines_returns {recur : ν → State ν σ → Option (Answer ν σ)} {n : Nat}
    (returns : Returns M n recur) {i ptime : Nat} {lines : List (Line ν κ)}
    (listed : ∀ line ∈ lines, ∀ q ∈ line.deps, q ∈ M.names) (pr : Progress ν κ)
    (few : remaining M st < n) :
    ∃ result, doLines M S recur p ptime lines i pr st = some result ∧
      remaining M result.2 ≤ remaining M st := by
  induction lines generalizing i pr st with
  | nil => exact ⟨_, rfl, Nat.le_refl _⟩
  | cons line lines ih =>
      obtain ⟨⟨td, pr', now⟩, deps, fewer⟩ := doDeps_returns (p := p) (i := i) returns
        (listed line List.mem_cons_self) 0 pr few
      have same : remaining M ((decideLine M S p i ptime line td pr' now).2.note p
          (.decided i (line.deps.map fun q => (q, now.done q)))) = remaining M now := by
        rw [remaining, State.note, decideLine_done, remaining]
      obtain ⟨result, ran, less⟩ := ih (i := i + 1)
        (fun line' member => listed line' (List.mem_cons_of_mem line member))
        (decideLine M S p i ptime line td pr' now).1
        (Nat.lt_of_le_of_lt (same ▸ fewer : remaining M _ ≤ _) few)
      refine ⟨result, ?_, Nat.le_trans less (same ▸ fewer)⟩
      rw [doLines, deps]
      exact ran

theorem doname_returns (fuel : Nat) : Returns M fuel (doname M S fuel) := by
  induction fuel with
  | zero => exact fun q _ st few => absurd few (Nat.not_lt_zero _)
  | succ fuel ih =>
      intro q listed st few
      rw [doname]
      cases known : st.done q with
      | unknown =>
          have entered := remaining_enter listed known (S.mtime q st.world)
          obtain ⟨⟨pr, now⟩, ran, fewer⟩ := doLines_returns (S := S) (p := q) (i := 0) ih
            (M.closed q listed) ⟨0, 0, none, [], [], 0⟩
            (Nat.lt_of_lt_of_le entered (Nat.le_of_lt_succ few))
          refine ⟨_, congrArg (Option.map _) ran, ?_⟩
          have marked : (if (decideTarget M S q (S.mtime q st.world) pr now).1 = 0 then Done.current
              else .failed) ≠ .unknown := by
            split <;> decide
          have same := decideTarget_done (M := M) (S := S) q (S.mtime q st.world) pr now
          refine Nat.le_trans (remaining_mark q marked ?_)
            (Nat.le_trans fewer (Nat.le_of_lt entered))
          exact congrArg (Function.update · q _) same
      | inProcess => exact ⟨_, rfl, Nat.le_refl _⟩
      | current => exact ⟨_, rfl, Nat.le_refl _⟩
      | failed => exact ⟨_, rfl, Nat.le_refl _⟩

end Termination

/-! ## Whole runs -/

section WholeRuns

variable {M : Makefile ν κ} {S : System ν κ σ} {p q : ν} {st st' : State ν σ}

theorem OutsideCycles.dep (outside : OutsideCycles M p) (dep : Dep M p q) : OutsideCycles M q :=
  fun r reached => outside r (.head dep reached)

theorem Inv.dep (inv : Inv M st) (settled : Settled st p) {i t e : Nat}
    (member : Act.processed i q t e ∈ st.acts p) : Dep M p q := by
  obtain ⟨line, given, listed⟩ := (inv.settled p settled).processed i q t e member
  exact ⟨line, List.mem_of_getElem? given, listed⟩

/-- A dependency on a line was marked when the line was decided. -/
theorem Inv.mark (inv : Inv M st) (settled : Settled st p) {i : Nat} {line : Line ν κ}
    (given : (M.lines p)[i]? = some line) (listed : q ∈ line.deps) :
    ∃ marks m, Act.decided i marks ∈ st.acts p ∧ (q, m) ∈ marks := by
  obtain ⟨marks, member⟩ := inv.looked p settled i line given
  obtain ⟨line', given', same⟩ := (inv.marked p i marks member).line
  obtain rfl : line = line' := Option.some.inj (given.symm.trans given')
  rw [← same] at listed
  obtain ⟨⟨_, m⟩, mark, rfl⟩ := List.mem_map.mp listed
  exact ⟨marks, m, member, mark⟩

theorem Marks.listed {i : Nat} {marks : List (ν × Done)} (known : Marks M st p i marks) {m : Done}
    (mark : (q, m) ∈ marks) : ∃ line, (M.lines p)[i]? = some line ∧ q ∈ line.deps := by
  obtain ⟨line, given, same⟩ := known.line
  exact ⟨line, given, same ▸ List.mem_map_of_mem mark⟩

theorem Inv.errors_of_failed (inv : Inv M st) (settled : Settled st p) {i : Nat}
    {marks : List (ν × Done)} (member : Act.decided i marks ∈ st.acts p)
    (mark : (q, Done.failed) ∈ marks) : ∃ t e, Act.processed i q t e ∈ st.acts p ∧ e ≠ 0 := by
  obtain ⟨line, given, listed⟩ := (inv.marked p i marks member).listed mark
  obtain ⟨t, e, done⟩ := (inv.settled p settled).complete i line given q listed
  exact ⟨t, e, done, ((inv.marked p i marks member).answer q _ mark t e done).mpr rfl⟩

theorem Inv.marked_of_errors (inv : Inv M st) (settled : Settled st p) {i t e : Nat}
    (done : Act.processed i q t e ∈ st.acts p) (bad : e ≠ 0) :
    ∃ marks, Act.decided i marks ∈ st.acts p ∧ (q, Done.failed) ∈ marks := by
  obtain ⟨line, given, listed⟩ := (inv.settled p settled).processed i q t e done
  obtain ⟨marks, m, member, mark⟩ := inv.mark settled given listed
  have failed := ((inv.marked p i marks member).answer q m mark t e done).mp bad
  exact ⟨marks, member, failed ▸ mark⟩

/-- Outside cycles a dependency was settled when its line was decided. -/
theorem Inv.answered (inv : Inv M st) (settled : Settled st p) {i t e : Nat}
    (done : Act.processed i q t e ∈ st.acts p) (outside : OutsideCycles M q) :
    e ≠ 0 ↔ st.done q = .failed := by
  obtain ⟨line, given, listed⟩ := (inv.settled p settled).processed i q t e done
  obtain ⟨marks, m, member, mark⟩ := inv.mark settled given listed
  have known := inv.marked p i marks member
  have closed : m ≠ .inProcess := by
    rintro rfl
    exact outside q .refl ((known.cyclic q mark).tail (inv.dep settled done))
  rw [known.answer q m mark t e done, (known.done q m mark).2 closed]

theorem Inv.dep_of_loops (inv : Inv M st) {i : Nat} (loops : Loops st p i q) :
    ∃ line, (M.lines p)[i]? = some line ∧ q ∈ line.deps := by
  obtain ⟨marks, member, mark⟩ := loops
  exact (inv.marked p i marks member).listed mark

/-- A failure comes up to a target unless one in between was in process. -/
theorem Inv.failed_or_loops (inv : Inv M st) {r : ν} (path : ReflTransGen (Dep M) p r)
    (settled : Settled st p) (own : OwnFailure st r) : st.done p = .failed ∨
      ∃ a, ReflTransGen (Dep M) p a ∧ ∃ j b, Loops st a j b ∧ ReflTransGen (Dep M) b r := by
  induction path using ReflTransGen.head_induction_on with
  | refl => exact Or.inl ((inv.settled r settled).failed_iff.mpr (own.imp_right Or.inl))
  | @head a b dep rest ih =>
      obtain ⟨line, given, listed⟩ := dep
      obtain ⟨j, at_j⟩ := List.getElem?_of_mem given
      obtain ⟨marks, m, member, mark⟩ := inv.mark settled at_j listed
      obtain ⟨known, same⟩ := (inv.marked a j marks member).done b m mark
      cases m with
      | unknown => exact absurd (same nofun) known
      | inProcess => exact Or.inr ⟨a, .refl, j, b, ⟨marks, member, mark⟩, rest⟩
      | failed =>
          obtain ⟨t, e, done, bad⟩ := inv.errors_of_failed settled member mark
          exact Or.inl ((inv.settled a settled).failed_iff.mpr
            (Or.inr (Or.inr fun none => bad (none j b t e done))))
      | current =>
          have current : st.done b = .current := same nofun
          rcases ih (Or.inl current) with failed | ⟨c, below, loop⟩
          · exact absurd (current.symm.trans failed) nofun
          · exact Or.inr ⟨c, .head ⟨line, given, listed⟩ below, loop⟩

theorem Inv.failed_of_below (inv : Inv M st) {r : ν} (path : ReflTransGen (Dep M) p r)
    (settled : Settled st p) (outside : OutsideCycles M p) (own : OwnFailure st r) :
    st.done p = .failed := by
  refine (inv.failed_or_loops path settled own).resolve_right ?_
  rintro ⟨a, below, j, b, ⟨marks, member, mark⟩, _⟩
  obtain ⟨line, given, listed⟩ := (inv.marked a j marks member).listed mark
  exact outside a below
    (.head ⟨line, List.mem_of_getElem? given, listed⟩ ((inv.marked a j marks member).cyclic b mark))

theorem dep_induction {motive : ν → Prop}
    (step : ∀ p ∈ M.names, OutsideCycles M p → (∀ q, Dep M p q → motive q) → motive p) :
    ∀ p ∈ M.names, OutsideCycles M p → motive p := by
  let nodes : Set ν := { p | p ∈ M.names ∧ OutsideCycles M p }
  have finite : nodes.Finite := (List.finite_toSet M.names).subset fun p node => node.1
  let Node := nodes.Elem
  have : Finite Node := finite.to_subtype
  let Below : Node → Node → Prop := fun a b => TransGen (Dep M) b.1 a.1
  have : IsTrans Node Below := ⟨fun _ _ _ first second => second.trans first⟩
  have : Std.Irrefl Below := ⟨fun a loop => a.2.2 a.1 .refl loop⟩
  have founded : WellFounded Below := Finite.wellFounded_of_trans_of_irrefl Below
  have all : ∀ n : Node, motive n.1 := by
    intro n
    induction n using founded.induction with
    | _ n ih =>
        refine step n.1 n.2.1 n.2.2 fun q dep => ?_
        obtain ⟨line, given, listed⟩ := dep
        have inside : q ∈ M.names := M.closed n.1 n.2.1 line given q listed
        exact ih ⟨q, inside, n.2.2.dep ⟨line, given, listed⟩⟩ (.single ⟨line, given, listed⟩)
  exact fun p inside outside => all ⟨p, inside, outside⟩

theorem Inv.below_of_failed (inv : Inv M st) (inside : p ∈ M.names) (outside : OutsideCycles M p) :
    st.done p = .failed → ∃ r, ReflTransGen (Dep M) p r ∧ OwnFailure st r := by
  refine dep_induction (motive := fun p => st.done p = .failed →
    ∃ r, ReflTransGen (Dep M) p r ∧ OwnFailure st r) ?_ p inside outside
  intro p _ outside below failed
  rcases (inv.settled p (Or.inr failed)).failed_iff.mp failed with ran | gaveUp | some
  · exact ⟨p, .refl, Or.inl ran⟩
  · exact ⟨p, .refl, Or.inr gaveUp⟩
  · obtain ⟨i, q, t, e, member, bad⟩ := not_noneFailed.mp some
    have dep := inv.dep (Or.inr failed) member
    have answer := inv.answered (Or.inr failed) member (outside.dep dep)
    obtain ⟨r, path, own⟩ := below q dep (answer.mp bad)
    exact ⟨r, .head dep path, own⟩

theorem InOrder.line {acts : List (Act ν)} (ordered : InOrder M p acts) {i : Nat} {failed : Bool}
    (ran : Act.ran i failed ∈ acts) : ∃ line, (M.lines p)[i]? = some line := by
  induction acts with
  | nil => exact absurd ran List.not_mem_nil
  | cons act acts ih =>
      rcases List.mem_cons.mp ran with rfl | earlier
      · obtain ⟨_, ⟨line, given, _⟩, _⟩ := ordered
        exact ⟨line, given⟩
      · cases act with
        | ran j failed' => exact ih ordered.2.2 earlier
        | entered ptime => exact ih ordered earlier
        | processed j q t e => exact ih ordered earlier
        | decided j marks => exact ih ordered earlier
        | gaveUp => exact ih ordered earlier

/-- `errstat` says whether a dependency was marked as failed. -/
theorem Inv.noneFailed_iff (inv : Inv M st) (settled : Settled st p) : NoneFailed (st.acts p) ↔
    ∀ j marks q, Act.decided j marks ∈ st.acts p → (q, Done.failed) ∉ marks := by
  constructor
  · intro none j marks q member mark
    obtain ⟨t, e, done, bad⟩ := inv.errors_of_failed settled member mark
    exact bad (none j q t e done)
  · intro unmarked i q t e done
    by_contra bad
    obtain ⟨marks, member, mark⟩ := inv.marked_of_errors settled done bad
    exact unmarked i marks q member mark

/-- The commands of a line are run exactly when they are due. -/
theorem Inv.ran_iff (inv : Inv M st) (settled : Settled st p) {i : Nat} {line : Line ν κ}
    (given : (M.lines p)[i]? = some line) :
    (∃ failed, Act.ran i failed ∈ st.acts p) ↔ Due M st p i line := by
  have account := inv.settled p settled
  by_cases colons : M.septype p = .someDeps
  · rw [account.double colons i line given]
    exact ⟨fun h => Or.inl ⟨colons, h⟩, fun h => h.elim And.right fun other => absurd colons other.1⟩
  · constructor
    · rintro ⟨failed, ran⟩
      have explicit := account.single colons i failed ran
      obtain ⟨none, outOfDate⟩ := (account.decided colons i explicit).mp ⟨failed, ran⟩
      exact Or.inr ⟨colons, explicit, outOfDate, (inv.noneFailed_iff settled).mp none⟩
    · rintro (⟨single, _⟩ | ⟨_, explicit, outOfDate, unmarked⟩)
      · exact absurd single colons
      · exact (account.decided colons i explicit).mpr
          ⟨(inv.noneFailed_iff settled).mpr unmarked, outOfDate⟩

/-- Nothing fails below a line that is run, if the target is spared. -/
theorem Inv.cleanBelow (inv : Inv M st) (settled : Settled st p) (spared : Spared M st p)
    {i : Nat} {line : Line ν κ} (given : (M.lines p)[i]? = some line) (due : Due M st p i line)
    (listed : q ∈ line.deps) {r : ν} (path : ReflTransGen (Dep M) q r) : ¬OwnFailure st r := by
  intro own
  obtain ⟨marks, m, member, mark⟩ := inv.mark settled given listed
  obtain ⟨known, same⟩ := (inv.marked p i marks member).done q m mark
  cases m with
  | unknown => exact known (same nofun)
  | inProcess => exact spared.loop i line given due q ⟨marks, member, mark⟩ r path own
  | failed => exact spared.unmarked i line given due marks q member mark
  | current =>
      have current : st.done q = .current := same nofun
      rcases inv.failed_or_loops path (Or.inl current) own with failed | ⟨a, below, j, b, loop, rest⟩
      · exact absurd (current.symm.trans failed) nofun
      · exact spared.loopBelow i line given due q listed a below j b loop r rest own

theorem Inv.settled_correct_iff (inv : Inv M st) (inside : p ∈ M.names) (settled : Settled st p) :
    Correct M st p ↔ Spared M st p := by
  have account := inv.settled p settled
  constructor
  · intro correct
    refine ⟨fun i line given due marks q member mark => ?_, fun i line given due b loop r path => ?_,
      fun i line given due q listed a below j b loop r path => ?_⟩
    · obtain ⟨failed, ran⟩ := (inv.ran_iff settled given).mpr due
      obtain ⟨t, e, done, bad⟩ := inv.errors_of_failed settled member mark
      exact bad (correct.clean i failed ran q t e done)
    · obtain ⟨failed, ran⟩ := (inv.ran_iff settled given).mpr due
      obtain ⟨line', given', listed⟩ := inv.dep_of_loops loop
      exact correct.cleanBelow i failed ran line' given' b listed r path
    · obtain ⟨failed, ran⟩ := (inv.ran_iff settled given).mpr due
      obtain ⟨line', given', listed'⟩ := inv.dep_of_loops loop
      have dep : Dep M a b := ⟨line', List.mem_of_getElem? given', listed'⟩
      exact correct.cleanBelow i failed ran line given q listed r ((below.tail dep).trans path)
  · intro spared
    constructor
    case inOrder => exact account.inOrder
    case clean =>
      intro i failed ran q t e done
      by_contra bad
      obtain ⟨line, given⟩ := account.inOrder.line ran
      obtain ⟨marks, member, mark⟩ := inv.marked_of_errors settled done bad
      have due := (inv.ran_iff settled given).mp ⟨failed, ran⟩
      exact spared.unmarked i line given due marks q member mark
    case cleanBelow =>
      intro i failed ran line given q listed r path
      have due := (inv.ran_iff settled given).mp ⟨failed, ran⟩
      exact inv.cleanBelow settled spared given due listed path
    case decided =>
      intro colon i explicit
      exact account.decided (colon ▸ (by decide)) i explicit
    case answered => exact fun i q t e member outside => inv.answered settled member outside
    case failed_iff =>
      intro outside
      constructor
      · exact inv.below_of_failed inside outside
      · rintro ⟨r, path, own⟩
        exact inv.failed_of_below path settled outside own

/-- When nothing is in process, all that a settled target depends on is settled. -/
theorem Inv.settled_of_path (inv : Inv M st) (idle : ∀ r, st.done r ≠ .inProcess)
    (path : ReflTransGen (Dep M) p q) (settled : Settled st p) : Settled st q := by
  induction path with
  | refl => exact settled
  | @tail a b _ dep ih =>
      obtain ⟨line, given, listed⟩ := dep
      obtain ⟨i, at_i⟩ := List.getElem?_of_mem given
      obtain ⟨marks, m, member, mark⟩ := inv.mark ih at_i listed
      have known := ((inv.marked a i marks member).done b m mark).1
      cases done : st.done b with
      | unknown => exact absurd done known
      | inProcess => exact absurd done (idle b)
      | current => exact Or.inl done
      | failed => exact Or.inr done

theorem Inv.start (M : Makefile ν κ) (world : σ) : Inv M (start world : State ν σ) := by
  refine ⟨fun p settled => absurd rfl settled.ne_unknown, fun p _ => rfl,
    fun p j marks member => ?_, fun p settled => absurd rfl settled.ne_unknown⟩
  exact absurd member List.not_mem_nil

variable [DecidableEq ν]

theorem doGoals_spec {fuel : Nat} {goals : List ν} (listed : ∀ p ∈ goals, p ∈ M.names)
    (inv : Inv M st) (idle : ∀ r, st.done r ≠ .inProcess) (few : remaining M st < fuel) :
    ∃ es st', doGoals M S fuel goals st = some (es, st') ∧ Inv M st' ∧ Extends st st' ∧
      (∀ p ∈ goals, Settled st' p) ∧
      List.Forall₂ (fun p e => e ≠ 0 ↔ st'.done p = .failed) goals es := by
  induction goals generalizing st with
  | nil => exact ⟨[], st, rfl, inv, Extends.refl st, nofun, .nil⟩
  | cons p goals ih =>
      obtain ⟨⟨e, t, now⟩, called, fewer⟩ :=
        doname_returns (S := S) fuel p (listed p List.mem_cons_self) st few
      have returned :=
        doname_correctly fuel p st e t now inv (fun r opened => absurd opened (idle r)) called
      have idle' : ∀ r, now.done r ≠ .inProcess :=
        fun r opened => idle r (returned.beyond.opened r opened)
      obtain ⟨es, after, ran, inv', beyond, settled, answers⟩ :=
        ih (fun q member => listed q (List.mem_cons_of_mem p member)) returned.inv idle'
          (Nat.lt_of_le_of_lt fewer few)
      obtain ⟨settled_now, answer⟩ := returned.answer.resolve_right fun both => idle p both.2
      have same : after.done p = now.done p := (beyond.kept p settled_now.ne_unknown).1
      refine ⟨e :: es, after, ?_, inv', returned.beyond.trans beyond, ?_, .cons ?_ answers⟩
      · rw [doGoals, called, Option.bind_some]
        exact congrArg (Option.map _) ran
      · intro q member
        rcases List.mem_cons.mp member with rfl | member
        · rw [Settled, same]
          exact settled_now
        · exact settled q member
      · rw [same]
        exact answer

/-- Every run returns and settles everything that the goals depend on, and a settled target has
been brought up to date correctly exactly when it was spared. -/
theorem doGoals_correct_iff (M : Makefile ν κ) (S : System ν κ σ) (world : σ) (goals : List ν)
    (listed : ∀ p ∈ goals, p ∈ M.names) :
    ∃ es st, doGoals M S (M.names.length + 1) goals (start world) = some (es, st) ∧
      List.Forall₂ (fun p e => e ≠ 0 ↔ st.done p = .failed) goals es ∧
      (∀ p ∈ goals, ∀ q, ReflTransGen (Dep M) p q → Settled st q) ∧
      ∀ p ∈ M.names, Settled st p → (Correct M st p ↔ Spared M st p) := by
  have few : remaining M (start world : State ν σ) < M.names.length + 1 :=
    Nat.lt_succ_of_le List.countP_le_length
  obtain ⟨es, st, ran, inv, beyond, settled, answers⟩ :=
    doGoals_spec (S := S) listed (Inv.start M world) (fun r => by simp [Make.start]) few
  have idle : ∀ r, st.done r ≠ .inProcess := fun r opened => absurd (beyond.opened r opened) nofun
  exact ⟨es, st, ran, answers, fun p goal q path => inv.settled_of_path idle path (settled p goal),
    fun p inside settled => inv.settled_correct_iff inside settled⟩

end WholeRuns

/-! ## A double-colon target over a target with a command, and a cycle -/

/-- Target 0 is a double-colon target with a command and depends on target 1, a single-colon
target with a command. -/
def twoTargets : Makefile Nat Nat where
  names := [0, 1]
  septype p := if p = 0 then .someDeps else .allDeps
  lines p := if p = 0 then [⟨[1], [0]⟩] else [⟨[], [1]⟩]
  closed := by decide

/-- Target 0 depends on target 1, which has a command, and on target 2, which has one and depends
on target 0. -/
def cycle : Makefile Nat Nat where
  names := [0, 1, 2]
  septype _ := .allDeps
  lines p := if p = 0 then [⟨[1, 2], []⟩] else if p = 1 then [⟨[], [1]⟩] else [⟨[0], [0]⟩]
  closed := by decide

/-- No file exists, and no command makes one. -/
def noFiles (fails : Nat → Bool) : System Nat Nat Unit where
  mtime _ _ := 0
  prestime _ := 1
  docom1 _ q _ := (fails q, ())
  ignored _ _ := false
  blank _ := false

theorem doGoals_correct_twoTargets : ∃ es st,
    doGoals twoTargets (noFiles fun _ => false) 3 [0] (start ()) = some (es, st) ∧
      Settled st 0 ∧ Correct twoTargets st 0 := by
  obtain ⟨es, st, ran, _, settled, correct⟩ :=
    doGoals_correct_iff twoTargets (noFiles fun _ => false) () [0] (by decide)
  have acts : st.acts 0 = [.decided 0 [(1, .current)], .ran 0 false, .processed 0 1 1 0,
      .entered 0] := by
    have whole := congrArg (Option.map fun result => result.2.acts 0) ran
    exact Option.some.inj (whole.symm.trans rfl)
  have acts' : st.acts 1 = [.ran 0 false, .decided 0 [], .entered 0] := by
    have whole := congrArg (Option.map fun result => result.2.acts 1) ran
    exact Option.some.inj (whole.symm.trans rfl)
  have marks : ∀ {i marks}, Act.decided i marks ∈ st.acts 0 → marks = [(1, .current)] := by
    intro i marks member
    have found : i = 0 ∧ marks = [(1, .current)] := by simpa [acts] using member
    exact found.2
  have unlooped : ∀ i b, ¬Loops st 0 i b := by
    rintro i b ⟨seen, member, mark⟩
    simp [marks member] at mark
  have spared : Spared twoTargets st 0 := by
    refine ⟨fun i line _ _ seen q member => ?_, fun i line _ _ b loop => absurd loop (unlooped i b),
      fun i line given _ q listed a path j b loop => ?_⟩
    · simp [marks member]
    · obtain rfl : line = ⟨[1], [0]⟩ := by
        simpa [twoTargets] using List.mem_of_getElem? given
      obtain rfl := List.mem_singleton.mp listed
      rcases path.cases_head with rfl | ⟨c, ⟨line, given, below⟩, _⟩
      · obtain ⟨seen, member, mark⟩ := loop
        have found : j = 0 ∧ seen = [] := by simpa [acts'] using member
        simp [found.2] at mark
      · obtain rfl : line = ⟨[], [1]⟩ := by simpa [twoTargets] using given
        exact absurd below List.not_mem_nil
  have settled' := settled 0 List.mem_cons_self 0 .refl
  exact ⟨es, st, ran, settled', (correct 0 (by decide) settled').mpr spared⟩

/-- The command of the dependency fails, and the command of the double-colon line is run; and
the target on the cycle is made though a target below the one in process has failed. -/
theorem doubleColon_runs_after_failure :
    (∃ es st, doGoals twoTargets (noFiles fun q => q = 1) 3 [0] (start ()) = some (es, st) ∧
      Settled st 0 ∧ OwnFailure st 1 ∧ ¬Correct twoTargets st 0) ∧
    ∃ es st, doGoals cycle (noFiles fun q => q = 1) 4 [0] (start ()) = some (es, st) ∧
      Settled st 2 ∧ OwnFailure st 1 ∧ ¬Correct cycle st 2 := by
  constructor
  · obtain ⟨es, st, ran, done, acts, below⟩ : ∃ es st,
        doGoals twoTargets (noFiles fun q => q = 1) 3 [0] (start ()) = some (es, st) ∧
        st.done 0 = .failed ∧
        st.acts 0 = [.decided 0 [(1, .failed)], .ran 0 false, .processed 0 1 1 1, .entered 0] ∧
        st.acts 1 = [.ran 0 true, .decided 0 [], .entered 0] := ⟨_, _, rfl, rfl, rfl, rfl⟩
    refine ⟨es, st, ran, Or.inr done, Or.inl ⟨0, ?_⟩, fun correct => ?_⟩
    · rw [below]
      exact List.mem_cons_self
    · have clean := correct.clean 0 false (by simp [acts]) 1 1 1 (by simp [acts])
      exact absurd clean Nat.one_ne_zero
  · obtain ⟨es, st, ran, done, acts, below⟩ : ∃ es st,
        doGoals cycle (noFiles fun q => q = 1) 4 [0] (start ()) = some (es, st) ∧
        st.done 2 = .current ∧
        st.acts 2 = [.ran 0 false, .decided 0 [(0, .inProcess)], .processed 0 0 0 0, .entered 0] ∧
        st.acts 1 = [.ran 0 true, .decided 0 [], .entered 0] := ⟨_, _, rfl, rfl, rfl, rfl⟩
    have own : OwnFailure st 1 := Or.inl ⟨0, by rw [below]; exact List.mem_cons_self⟩
    refine ⟨es, st, ran, Or.inl done, own, fun correct => ?_⟩
    have dep : Dep cycle 0 1 := ⟨⟨[1, 2], []⟩, List.mem_cons_self, List.mem_cons_self⟩
    exact correct.cleanBelow 0 false (by rw [acts]; exact List.mem_cons_self) ⟨[0], [0]⟩ rfl 0
      List.mem_cons_self 1 (.single dep) own

end MachFormal.Make
