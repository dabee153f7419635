import MachFormal.Library.Balanced
import MachFormal.Sup.Stree

/-!
# The trees of names stay balanced

`Tinsertavl` recurses through pointers to child pointers, hands the change of height up
through an argument that it leaves unset when it returns NULL, and patches the factors by
hand in four rotations.  Here a rotation of a missing child and a read of the unset
argument are faults; no sequence of insertions meets one.
-/

namespace MachFormal.Sup.Stree

open Library

/-- A `TREE *`.  A node holds its name, the rest of its fields and its factor. -/
abbrev Tree (α : Type) := Avl CString α

def SCMOK : Int := 1

section Code

variable {α σ : Type}

/-! ## Rotations -/

/-- `Trotll (tp, tp->Tlo)`. -/
def Trotll : Tree α → Option (Tree α)
  | .node (.node ll lk la _ lh) k a _ hi => some (.node ll lk la 0 (.node lh k a 0 hi))
  | _ => none

/-- `Trotlh (tp, tp->Tlo)`. -/
def Trotlh : Tree α → Option (Tree α)
  | .node (.node ll lk la _ (.node ml mk ma mb mh)) k a _ hi =>
      some (.node (.node ll lk la (if mb = -1 then 1 else 0) ml) mk ma 0
        (.node mh k a (if mb = 1 then -1 else 0) hi))
  | _ => none

/-- `Trothl (tp, tp->Thi)`. -/
def Trothl : Tree α → Option (Tree α)
  | .node lo k a _ (.node (.node ml mk ma mb mh) hk ha _ hh) =>
      some (.node (.node lo k a (if mb = -1 then 1 else 0) ml) mk ma 0
        (.node mh hk ha (if mb = 1 then -1 else 0) hh))
  | _ => none

/-- `Trothh (tp, tp->Thi)`. -/
def Trothh : Tree α → Option (Tree α)
  | .node lo k a _ (.node hl hk ha _ hh) => some (.node (.node lo k a 0 hl) hk ha 0 hh)
  | _ => none

/-- `Tbalance`; following a null pointer is a fault. -/
def Tbalance : Tree α → Option (Tree α)
  | .nil => none
  | .node lo k a bf hi =>
      if bf < 2 ∧ -2 < bf then some (.node lo k a bf hi)
      else if 0 < bf then
        match lo with
        | .nil => none
        | .node ll lk la lb lh =>
            if 0 < lb then Trotll (.node (.node ll lk la lb lh) k a bf hi)
            else Trotlh (.node (.node ll lk la lb lh) k a bf hi)
      else
        match hi with
        | .nil => none
        | .node hl hk ha hb hh =>
            if 0 < hb then Trothl (.node lo k a bf (.node hl hk ha hb hh))
            else Trothh (.node lo k a bf (.node hl hk ha hb hh))

/-! ## Insertion -/

/-- `Tinsertavl`: the node it returns, the tree, and what it has put in `*dh`.  `new` is
what `Tmake` would make the node of. -/
def Tinsertavl (p : CString) (find : Bool) (new : α) :
    Tree α → Option (Option α × Tree α × Option Int)
  | .nil => some (some new, .node .nil p new 0 .nil, some 1)
  | .node lo k a bf hi =>
      if strcmp p.data k.data = 0 then
        if !find then some (none, .node lo k a bf hi, none)
        else some (some a, .node lo k a bf hi, some 0)
      else if strcmp p.data k.data < 0 then do
        let (newt, lo', dh) ← Tinsertavl p find new lo
        match newt with
        | none => some (none, .node lo' k a bf hi, none)
        | some newt => do
            let deltah ← dh
            let t ← Tbalance (.node lo' k a (bf + deltah) hi)
            some (some newt, t, some (if t.factor = 0 then 0 else deltah))
      else do
        let (newt, hi', dh) ← Tinsertavl p find new hi
        match newt with
        | none => some (none, .node lo k a bf hi', none)
        | some newt => do
            let deltah ← dh
            let t ← Tbalance (.node lo k a (bf - deltah) hi')
            some (some newt, t, some (if t.factor = 0 then 0 else deltah))

/-- `Tinsert`: the node it returns and the tree. -/
def Tinsert (t : Tree α) (p : CString) (find : Bool) (new : α) : Option (Option α × Tree α) :=
  (Tinsertavl (strip p) find new t).map fun r => (r.1, r.2.1)

def Tsearch : Tree α → CString → Option α
  | .nil, _ => none
  | .node lo k a _ hi, p =>
      if strcmp p.data k.data = 0 then some a
      else if strcmp p.data k.data < 0 then Tsearch lo p
      else Tsearch hi p

/-! ## Visits -/

/-- `Tsubprocess`.  The function may change the state it works on; a missing child is not
visited. -/
def Tsubprocess (reverse : Bool) (f : CString × α → σ → Int × σ) : Tree α → σ → Int × σ
  | .nil, s => (SCMOK, s)
  | .node lo k a _ hi, s =>
      let (x, s) := if reverse then Tsubprocess reverse f hi s else Tsubprocess reverse f lo s
      if x = SCMOK then
        let (x, s) := f (k, a) s
        if x = SCMOK then
          if reverse then Tsubprocess reverse f lo s else Tsubprocess reverse f hi s
        else (x, s)
      else (x, s)

def Tprocess (t : Tree α) (f : CString × α → σ → Int × σ) (s : σ) : Int × σ :=
  Tsubprocess false f t s

def Trprocess (t : Tree α) (f : CString × α → σ → Int × σ) (s : σ) : Int × σ :=
  Tsubprocess true f t s

end Code

/-! ## Insertion into a balanced tree -/

section Insertion

variable {α : Type} {lo lo' hi hi' : Tree α} {bf d : Int}

theorem strcmp_eq_zero_iff {p k : CString} : strcmp p.data k.data = 0 ↔ p = k := by
  have forth : strcmp p.data k.data < 0 ↔ p < k := Iff.rfl
  have back : strcmp k.data p.data < 0 ↔ k < p := Iff.rfl
  have turned := strcmp_neg k.data p.data
  constructor
  · intro zero
    exact le_antisymm (not_lt.mp fun less => by have := back.mpr less; omega)
      (not_lt.mp fun less => by have := forth.mpr less; omega)
  · rintro rfl
    omega

theorem Tsearch_eq (t : Tree α) (p : CString) : Tsearch t p = t.search p := by
  induction t with
  | nil => rfl
  | node lo k a bf hi lowIh highIh =>
      have equal : (strcmp p.data k.data = 0) = (p = k) := propext strcmp_eq_zero_iff
      have less : (strcmp p.data k.data < 0) = (p < k) := rfl
      simp only [Tsearch, Avl.search, equal, less, lowIh, highIh]

theorem Tbalance_low (k : CString) (a : α) (factor_eq : bf = (lo.height : Int) - hi.height)
    (lower : -1 ≤ bf) (upper : bf ≤ 1) (low : Avl.Grown lo lo' d) :
    Tbalance (.node lo' k a (bf + d) hi) = some (Avl.balance (.node lo' k a (bf + d) hi)) := by
  obtain ⟨balanced, height_eq, grew, leans⟩ := low
  unfold Tbalance Avl.balance
  dsimp only
  by_cases small : bf + d < 2 ∧ -2 < bf + d
  · rw [if_pos small, if_pos small]
  · rw [if_neg small, if_neg small, if_pos (by omega), if_pos (by omega)]
    cases lo' with
    | nil =>
        simp only [Avl.height] at height_eq
        omega
    | node ll lk la lb lh =>
        have factor : (Avl.node ll lk la lb lh).factor = lb := rfl
        dsimp only
        by_cases positive : 0 < lb
        · rw [if_pos positive, if_pos (factor ▸ positive)]
          rfl
        · rw [if_neg positive, if_neg (factor ▸ positive)]
          have sided := leans (by omega) (by omega)
          cases lh with
          | nil =>
              simp only [Avl.Balanced, Avl.height] at balanced
              simp only [Avl.factor] at sided
              omega
          | node ml mk ma mb mh => rfl

theorem Tbalance_high (k : CString) (a : α) (factor_eq : bf = (lo.height : Int) - hi.height)
    (lower : -1 ≤ bf) (upper : bf ≤ 1) (high : Avl.Grown hi hi' d) :
    Tbalance (.node lo k a (bf - d) hi') = some (Avl.balance (.node lo k a (bf - d) hi')) := by
  obtain ⟨balanced, height_eq, grew, leans⟩ := high
  unfold Tbalance Avl.balance
  dsimp only
  by_cases small : bf - d < 2 ∧ -2 < bf - d
  · rw [if_pos small, if_pos small]
  · rw [if_neg small, if_neg small, if_neg (by omega), if_neg (by omega)]
    cases hi' with
    | nil =>
        simp only [Avl.height] at height_eq
        omega
    | node hl hk ha hb hh =>
        have factor : (Avl.node hl hk ha hb hh).factor = hb := rfl
        dsimp only
        by_cases positive : 0 < hb
        · rw [if_pos positive, if_pos (factor ▸ positive)]
          cases hl with
          | nil =>
              simp only [Avl.Balanced, Avl.height] at balanced
              omega
          | node ml mk ma mb mh => rfl
        · rw [if_neg positive, if_neg (factor ▸ positive)]
          rfl

theorem Tbalance_self {k : CString} {a : α} (lower : -1 ≤ bf) (upper : bf ≤ 1) :
    Tbalance (.node lo k a bf hi) = some (.node lo k a bf hi) := by
  unfold Tbalance
  exact if_pos (by omega)

/-- A name that is there: without `find` nothing is returned, with `find` its node is,
and the tree stays as it is. -/
theorem Tinsertavl_present {t : Tree α} (balanced : t.Balanced) {p : CString} {a : α}
    (present : t.search p = some a) (find : Bool) (new : α) :
    Tinsertavl p find new t = if find then some (some a, t, some 0) else some (none, t, none) := by
  induction t with
  | nil => exact absurd present nofun
  | node lo k b bf hi lowIh highIh =>
      obtain ⟨-, lower, upper, low, high⟩ := balanced
      have equal : (strcmp p.data k.data = 0) = (p = k) := propext strcmp_eq_zero_iff
      have less : (strcmp p.data k.data < 0) = (p < k) := rfl
      rw [Avl.search] at present
      simp only [Tinsertavl, equal, less]
      by_cases same : p = k
      · rw [if_pos same] at present
        rw [if_pos same, Option.some.inj present]
        cases find <;> rfl
      · rw [if_neg same] at present
        rw [if_neg same]
        by_cases small : p < k
        · rw [if_pos small] at present
          rw [if_pos small, lowIh low present]
          cases find with
          | false => rfl
          | true =>
              change (Tbalance (.node lo k b (bf + 0) hi)).bind _ = _
              rw [Int.add_zero, Tbalance_self lower upper]
              simp only [Option.bind_some, ite_self, if_true]
        · rw [if_neg small] at present
          rw [if_neg small, highIh high present]
          cases find with
          | false => rfl
          | true =>
              change (Tbalance (.node lo k b (bf - 0) hi)).bind _ = _
              rw [Int.sub_zero, Tbalance_self lower upper]
              simp only [Option.bind_some, ite_self, if_true]

/-- A name that is new: its node is returned, and the tree is balanced around it. -/
theorem Tinsertavl_absent {t : Tree α} (balanced : t.Balanced) {p : CString}
    (absent : t.search p = none) (find : Bool) (new : α) :
    Tinsertavl p find new t =
      some (some new, (t.insert p new).1, some (t.insert p new).2) := by
  induction t with
  | nil => rfl
  | node lo k b bf hi lowIh highIh =>
      obtain ⟨factor_eq, lower, upper, low, high⟩ := balanced
      have equal : (strcmp p.data k.data = 0) = (p = k) := propext strcmp_eq_zero_iff
      have less : (strcmp p.data k.data < 0) = (p < k) := rfl
      rw [Avl.search] at absent
      simp only [Tinsertavl, Avl.insert, equal, less]
      by_cases same : p = k
      · rw [if_pos same] at absent
        cases absent
      · rw [if_neg same] at absent
        rw [if_neg same, if_neg same]
        by_cases small : p < k
        · rw [if_pos small] at absent
          rw [if_pos small, if_pos small, lowIh low absent]
          simp only [bind, Option.bind_some,
            Tbalance_low k b factor_eq lower upper (low.insert p new)]
        · rw [if_neg small] at absent
          rw [if_neg small, if_neg small, highIh high absent]
          simp only [bind, Option.bind_some,
            Tbalance_high k b factor_eq lower upper (high.insert p new)]

end Insertion

/-! ## Visits in order -/

section Order

variable {α σ : Type}

/-- The entries are visited one after the other, up to the end or up to the first that is
not answered `SCMOK`. -/
inductive Visits (f : CString × α → σ → Int × σ) : List (CString × α) → σ → Int × σ → Prop where
  | done (s : σ) : Visits f [] s (SCMOK, s)
  | next {e : CString × α} {rest : List (CString × α)} {s s' : σ} {result : Int × σ}
      (answer : f e s = (SCMOK, s')) (others : Visits f rest s' result) :
      Visits f (e :: rest) s result
  | stop {e : CString × α} {rest : List (CString × α)} {s s' : σ} {x : Int}
      (answer : f e s = (x, s')) (refused : x ≠ SCMOK) : Visits f (e :: rest) s (x, s')

namespace Visits

variable {f : CString × α → σ → Int × σ} {first : List (CString × α)} {s : σ}
  {result : Int × σ}

theorem append (visits : Visits f first s result) (second : List (CString × α)) :
    (result.1 = SCMOK → ∀ {result'}, Visits f second result.2 result' →
      Visits f (first ++ second) s result') ∧
    (result.1 ≠ SCMOK → Visits f (first ++ second) s result) := by
  induction visits with
  | done s => exact ⟨fun _ _ others => others, fun refused => absurd rfl refused⟩
  | next answer _ ih =>
      exact ⟨fun accepted _ others => .next answer (ih.1 accepted others),
        fun refused => .next answer (ih.2 refused)⟩
  | stop answer refused =>
      exact ⟨fun accepted => absurd accepted refused, fun _ => .stop answer refused⟩

end Visits

/-- The order of a visit. -/
def order (reverse : Bool) (t : Tree α) : List (CString × α) :=
  if reverse then t.toList.reverse else t.toList

theorem Tsubprocess_visits (reverse : Bool) (f : CString × α → σ → Int × σ) (t : Tree α) (s : σ) :
    Visits f (order reverse t) s (Tsubprocess reverse f t s) := by
  induction t generalizing s with
  | nil => cases reverse <;> exact .done s
  | node lo k a bf hi lowIh highIh =>
      -- the side that comes first, the node, and the other side
      obtain ⟨one, two, oneIh, twoIh, split, code⟩ : ∃ one two : Tree α,
          (∀ s, Visits f (order reverse one) s (Tsubprocess reverse f one s)) ∧
          (∀ s, Visits f (order reverse two) s (Tsubprocess reverse f two s)) ∧
          order reverse (.node lo k a bf hi) = order reverse one ++ (k, a) :: order reverse two ∧
          Tsubprocess reverse f (.node lo k a bf hi) s =
            (let (x, s) := Tsubprocess reverse f one s
            if x = SCMOK then
              let (x, s) := f (k, a) s
              if x = SCMOK then Tsubprocess reverse f two s else (x, s)
            else (x, s)) := by
        cases reverse with
        | false => exact ⟨lo, hi, lowIh, highIh, rfl, rfl⟩
        | true =>
            refine ⟨hi, lo, highIh, lowIh, ?_, rfl⟩
            simp only [order, if_true, Avl.toList, List.reverse_append, List.reverse_cons,
              List.append_assoc, List.singleton_append]
      have begun := (oneIh s).append ((k, a) :: order reverse two)
      rw [split, code]
      dsimp only
      by_cases accepted : (Tsubprocess reverse f one s).1 = SCMOK
      · rw [if_pos accepted]
        refine begun.1 accepted ?_
        generalize Tsubprocess reverse f one s = mid
        by_cases agreed : (f (k, a) mid.2).1 = SCMOK
        · rw [if_pos agreed]
          exact .next (Prod.ext agreed rfl) (twoIh _)
        · rw [if_neg agreed]
          exact .stop rfl agreed
      · rw [if_neg accepted]
        exact begun.2 accepted

/-- The names of the low side are smaller and those of the high side greater, everywhere. -/
def Ordered : Tree α → Prop
  | .nil => True
  | .node lo k _ _ hi =>
      (∀ e ∈ lo.toList, e.1 < k) ∧ (∀ e ∈ hi.toList, k < e.1) ∧ Ordered lo ∧ Ordered hi

theorem ordered_of_sorted {t : Tree α} (sorted : Table.Sorted t.toList) : Ordered t := by
  induction t with
  | nil => trivial
  | node lo k a bf hi lowIh highIh =>
      obtain ⟨low, high, below, above⟩ := Table.sorted_append.mp sorted
      exact ⟨below, above, lowIh low, highIh high⟩

end Order

/-! ## Sequences of insertions -/

section Runs

variable {α : Type}

/-- A call of `Tinsert`, with what a new node would be made of. -/
structure Call (α : Type) where
  name : CString
  find : Bool
  new : α

/-- The tree after the calls. -/
def inserts (calls : List (Call α)) : Option (Tree α) :=
  calls.foldlM (fun t c => (Tinsert t c.name c.find c.new).map Prod.snd) .nil

/-- The node that stands for a name after the calls: that of the first that named it. -/
def nodeOf (calls : List (Call α)) (q : CString) : Option α :=
  (calls.find? fun c => strip c.name = q).map Call.new

/-- What one more call gives, `t` being the tree before it. -/
structure Answers (t : Tree α) (c : Call α) (result : Option α) (t' : Tree α) : Prop where
  null : result = none ↔ c.find = false ∧ (Tsearch t (strip c.name)).isSome
  unchanged : result = none → t' = t
  node : ∀ n, result = some n → Tsearch t' (strip c.name) = some n

/-- What holds of the tree after the calls. -/
structure Sound (calls : List (Call α)) (t : Tree α) : Prop where
  sorted : t.toList.Pairwise fun a b => strcmp a.1.data b.1.data < 0
  ordered : Ordered t
  balanced : t.Balanced
  found : ∀ q, Tsearch t q = nodeOf calls q
  answers : ∀ c : Call α, ∃ result t', Tinsert t c.name c.find c.new = some (result, t') ∧
    Answers t c result t'
  increasing : ∀ {σ : Type} (f : CString × α → σ → Int × σ) (s : σ),
    Visits f t.toList s (Tprocess t f s)
  decreasing : ∀ {σ : Type} (f : CString × α → σ → Int × σ) (s : σ),
    Visits f t.toList.reverse s (Trprocess t f s)

theorem Tinsert_spec {t : SearchTree CString α} (balanced : t.root.Balanced) (c : Call α) :
    ∃ result t', Tinsert t.root c.name c.find c.new = some (result, SearchTree.root t') ∧
      Answers t.root c result t'.root ∧ t'.root.Balanced ∧
      ∀ q, t'.search q =
        if q = strip c.name then some ((t.search q).getD c.new) else t.search q := by
  cases there : t.search (strip c.name) with
  | some a =>
      have code := Tinsertavl_present balanced there c.find c.new
      have same : ∀ q, t.search q =
          if q = strip c.name then some ((t.search q).getD c.new) else t.search q := by
        intro q
        split
        next equal => rw [equal, there, Option.getD_some]
        next => rfl
      have found : Tsearch t.root (strip c.name) = some a := (Tsearch_eq _ _).trans there
      refine ⟨if c.find then some a else none, t, ?_, ⟨?_, ?_, ?_⟩, balanced, same⟩
      · rw [Tinsert, code]
        cases c.find <;> rfl
      · rw [found]
        cases c.find <;> simp
      · exact fun _ => rfl
      · intro n returned
        rw [found]
        cases finds : c.find with
        | false =>
            rw [finds] at returned
            exact absurd returned nofun
        | true =>
            rw [finds] at returned
            exact returned
  | none =>
      have code := Tinsertavl_absent balanced there c.find c.new
      have after := SearchTree.search_insert t (strip c.name)
      refine ⟨some c.new, t.insert (strip c.name) c.new, ?_, ⟨?_, nofun, ?_⟩,
        (balanced.insert (strip c.name) c.new).balanced, ?_⟩
      · rw [Tinsert, code]
        rfl
      · rw [Tsearch_eq]
        refine iff_of_false nofun fun present => ?_
        have absent : t.root.search (strip c.name) = none := there
        rw [absent] at present
        exact absurd present.2 nofun
      · intro n returned
        rw [Tsearch_eq, ← returned]
        have found := after (strip c.name) c.new
        rw [if_pos rfl, there] at found
        exact found
      · intro q
        rw [after]
        split
        next equal => rw [equal]
        next => rfl

theorem nodeOf_append (calls : List (Call α)) (c : Call α) (q : CString) :
    nodeOf (calls ++ [c]) q =
      if q = strip c.name then some ((nodeOf calls q).getD c.new) else nodeOf calls q := by
  simp only [nodeOf, List.find?_append, List.find?_cons, List.find?_nil]
  cases calls.find? fun c => strip c.name = q with
  | some first => simp
  | none =>
      by_cases same : strip c.name = q
      · simp [same]
      · simp [same, Ne.symm same]

theorem inserts_spec (calls : List (Call α)) :
    ∃ t : SearchTree CString α, inserts calls = some t.root ∧ t.root.Balanced ∧
      ∀ q, t.search q = nodeOf calls q := by
  induction calls using List.reverseRecOn with
  | nil => exact ⟨.empty, rfl, trivial, fun _ => rfl⟩
  | append_singleton calls c ih =>
      obtain ⟨t, ran, balanced, found⟩ := ih
      obtain ⟨result, t', inserted, -, balanced', found'⟩ := Tinsert_spec balanced c
      refine ⟨t', ?_, balanced', fun q => ?_⟩
      · have last : inserts (calls ++ [c]) = (inserts calls).bind fun t =>
            (Tinsert t c.name c.find c.new).map Prod.snd := by
          rw [inserts, List.foldlM_append]
          simp only [List.foldlM_cons, List.foldlM_nil, bind_pure]
          rfl
        rw [last, ran, Option.bind_some, inserted]
        rfl
      · rw [found', found, nodeOf_append]

/-- Every sequence of insertions leaves a search tree that is balanced, finds exactly the
names that were inserted, answers the next insertion, and is visited in order. -/
theorem sound_of_inserts (calls : List (Call α)) : ∃ t, inserts calls = some t ∧ Sound calls t := by
  obtain ⟨t, ran, balanced, found⟩ := inserts_spec calls
  refine ⟨t.root, ran, t.ordered, ordered_of_sorted t.ordered, balanced,
    fun q => (Tsearch_eq _ _).trans (found q), fun c => ?_, ?_, ?_⟩
  · obtain ⟨result, t', inserted, answers, -⟩ := Tinsert_spec balanced c
    exact ⟨result, t'.root, inserted, answers⟩
  · exact fun f s => Tsubprocess_visits false f t.root s
  · exact fun f s => Tsubprocess_visits true f t.root s

end Runs

end MachFormal.Sup.Stree
