import MachFormal.EnvMgr.Contexts
import Mathlib.Data.Set.Basic

/-!
# The names of environment variables

`FindHashEntry` upper-cases the name it is given, adds its characters up to find
the chain, and compares the name with those of the chain by `StrEqCase`, a loop
that runs from the end of the names towards their beginning.  The loops on
characters are written out here and tied to the functions of the tables; then
the entry that a name stands for is compared with the entry that is found.
-/

namespace MachFormal.EnvMgr

def envNameSize : Nat := 80

/-- A zero-terminated string that fits into an `env_name_t`. -/
abbrev EnvName := { s : Name // s.length < envNameSize ∧ 0 ∉ s }

/-! ## The loops on characters -/

/-- `S[i]`, with the final zero. -/
def charAt (s : Name) (i : Nat) : UInt8 :=
  s.getD i 0

/-- The first loop of `StrEqCase`: the position of the first zero, `env_name_size` at
most. -/
def boundedLength (s : Name) (i : Nat) : Nat → Nat
  | 0 => i
  | left + 1 => if charAt s i = 0 then i else boundedLength s (i + 1) left

/-- The second loop of `StrEqCase`: from position `i` down to position 1. -/
def sameDown (s1 s2 : Name) : Nat → Bool
  | 0 => true
  | i + 1 => charAt s1 (i + 1) == upperChar (charAt s2 (i + 1)) && sameDown s1 s2 i

/-- `StrEqCase` with its loops. -/
def strEqCaseLoops (s1 s2 : Name) : Bool :=
  let i := boundedLength s1 0 envNameSize
  s2.length == i && sameDown s1 s2 i

/-- The loop of `Hash`; a `char` has a sign. -/
def hashLoop (n : Int) : Name → Int
  | [] => n
  | c :: rest => hashLoop (n + c.toInt8.toInt) rest

theorem boundedLength_eq {s : Name} (solid : 0 ∉ s) {i left : Nat} (before : i ≤ s.length)
    (room : s.length ≤ i + left) : boundedLength s i left = s.length := by
  induction left generalizing i with
  | zero =>
      rw [boundedLength]
      omega
  | succ left ih =>
      rw [boundedLength]
      by_cases inside : i < s.length
      · have hne : charAt s i ≠ 0 := by
          rw [charAt, List.getD_eq_getElem _ _ inside]
          exact fun zero => solid (zero ▸ List.getElem_mem inside)
        rw [if_neg hne]
        exact ih inside (by omega)
      · have hzero : charAt s i = 0 := by
          rw [charAt, List.getD_eq_default _ _ (by omega)]
        rw [if_pos hzero]
        omega

theorem charAt_convUpper (s : Name) (i : Nat) : charAt (convUpper s) i = upperChar (charAt s i) := by
  simp only [charAt, convUpper, List.getD_eq_getElem?_getD, List.getElem?_map]
  cases s[i]? <;> rfl

theorem sameDown_iff (s1 s2 : Name) (n : Nat) :
    sameDown s1 s2 n = true ↔ ∀ i, 0 < i → i ≤ n → charAt s1 i = charAt (convUpper s2) i := by
  induction n with
  | zero => exact ⟨fun _ i _ _ => by omega, fun _ => rfl⟩
  | succ n ih =>
      rw [sameDown, Bool.and_eq_true, beq_iff_eq, ih, ← charAt_convUpper]
      constructor
      · rintro ⟨last, rest⟩ i hpos hle
        rcases Nat.lt_or_eq_of_le hle with hlt | rfl
        · exact rest i hpos (by omega)
        · exact last
      · exact fun all => ⟨all (n + 1) (by omega) (Nat.le_refl _),
          fun i hpos hle => all i hpos (by omega)⟩

theorem strEqCase_eq_loops {s1 : Name} (short : s1.length < envNameSize) (solid : 0 ∉ s1)
    (s2 : Name) : strEqCase s1 s2 = strEqCaseLoops s1 s2 := by
  unfold strEqCase strEqCaseLoops
  rw [boundedLength_eq solid (Nat.zero_le _) (by omega), Bool.beq_comm]
  dsimp only
  by_cases same : s2.length = s1.length
  · have upper : (convUpper s2).length = s1.length := by rw [convUpper, List.length_map, same]
    rw [beq_iff_eq.mpr same, Bool.true_and, Bool.true_and, Bool.eq_iff_iff, beq_iff_eq,
      sameDown_iff]
    constructor
    · intro tails i hpos _
      obtain ⟨j, rfl⟩ : ∃ j, i = j + 1 := ⟨i - 1, by omega⟩
      simpa [charAt, List.getD_eq_getElem?_getD] using congrArg (fun t => t[j]?.getD 0) tails
    · intro all
      refine List.ext_getElem (by simp [upper]) (fun j hj hj' => ?_)
      simp only [List.length_tail] at hj hj'
      have here := all (j + 1) (by omega) (by omega)
      rw [charAt, charAt, List.getD_eq_getElem _ _ (by omega),
        List.getD_eq_getElem _ _ (by omega)] at here
      simpa using here
  · rw [beq_eq_false_iff_ne.mpr same, Bool.false_and, Bool.false_and]

theorem toInt_emod_size (c : UInt8) : c.toInt8.toInt % 32 = (c.toNat : Int) % 32 := by
  have value : c.toInt8.toInt = (c.toNat : Int).bmod 256 := by
    rw [← UInt8.toNat_toBitVec, ← BitVec.toInt_eq_toNat_bmod]
    rfl
  rw [value, Int.bmod]
  split <;> omega

theorem hash_eq_loop (s : Name) : (hash s : Int) = hashLoop 0 s % 32 := by
  have general : ∀ (s : Name) (n : Int),
      hashLoop n s % 32 = (n + ((s.map UInt8.toNat).sum : Nat)) % 32 := by
    intro s
    induction s with
    | nil => intro n; simp [hashLoop]
    | cons c rest ih =>
        intro n
        have here := toInt_emod_size c
        rw [hashLoop, ih, List.map_cons, List.sum_cons]
        push_cast
        omega
  rw [general, hash, hashTableSize]
  push_cast
  omega

/-! ## Entries and their names -/

/-- One call on a context. -/
inductive NameOp where
  | create (name : EnvName) (envval : EnvVal)
  | delete (name : EnvName) (vt : EnvType)

def NameOp.name : NameOp → EnvName
  | .create name _ => name
  | .delete name _ => name

/-- The table and the ports after one call. -/
def callOp (deallocOk : Nat → Bool) (state : Table × Ports) : NameOp → Table × Ports
  | .create name envval => (createHashEntry state.1 name.val envval, state.2)
  | .delete name vt =>
      ((deleteHashEntry deallocOk state.1 state.2 name.val vt).table,
        (deleteHashEntry deallocOk state.1 state.2 name.val vt).ports)

/-- The table of a new context after a sequence of calls. -/
def tableAfter (deallocOk : Nat → Bool) (ports : Ports) (ops : List NameOp) : Table :=
  (ops.foldl (callOp deallocOk) (emptyTable, ports)).1

/-- Two names are one name when they are equal after upper-casing. -/
def SameName (s t : Name) : Prop :=
  convUpper s = convUpper t

/-- The names differ in the first character alone, and by a multiple of the table size. -/
def Confused (s t : Name) : Prop :=
  ∃ c d rest, convUpper s = c :: rest ∧ convUpper t = d :: rest ∧ c ≠ d ∧
    c.toNat % hashTableSize = d.toNat % hashTableSize

/-- A name finds the entry that is stored under it, and what is done with one name does not
touch what another one finds. -/
structure MatchesExactly (deallocOk : Nat → Bool) (names : Set EnvName) (table : Table) :
    Prop where
  found_iff : ∀ s ∈ names, (findHashEntry table s.val).isSome ↔
    ∃ entry ∈ table.flatten, SameName entry.name s.val
  found_named : ∀ s ∈ names, ∀ entry, findHashEntry table s.val = some entry →
    entry ∈ table.flatten ∧ SameName entry.name s.val
  string_apart : ∀ s ∈ names, ∀ t ∈ names, ¬SameName s.val t.val → ∀ ports value,
    findHashEntry (setString table ports s.val value).table t.val = findHashEntry table t.val
  port_apart : ∀ s ∈ names, ∀ t ∈ names, ¬SameName s.val t.val → ∀ ports value,
    findHashEntry (setPort deallocOk table ports s.val value).table t.val =
      findHashEntry table t.val
  delete_apart : ∀ s ∈ names, ∀ t ∈ names, ¬SameName s.val t.val → ∀ ports vt,
    findHashEntry (deleteHashEntry deallocOk table ports s.val vt).table t.val =
      findHashEntry table t.val

/-- The entries are in the chains of their names. -/
structure Placed (names : Set EnvName) (table : Table) : Prop where
  length : table.length = hashTableSize
  chain : ∀ hi, ∀ entry ∈ table.getD hi [], hash (convUpper entry.name) = hi
  known : ∀ hi, ∀ entry ∈ table.getD hi [], ∃ s ∈ names, entry.name = s.val

section Names

variable {names : Set EnvName} {table : Table} {s t : Name}

theorem strEqCase_iff (s t : Name) : strEqCase (convUpper s) t = true ↔
    SameName s t ∨ ∃ c d rest, convUpper s = c :: rest ∧ convUpper t = d :: rest := by
  rw [strEqCase, Bool.and_eq_true, beq_iff_eq, beq_iff_eq, SameName]
  have upper : (convUpper t).length = t.length := List.length_map _
  rw [← upper]
  cases convUpper s with
  | nil =>
      cases convUpper t with
      | nil => simp
      | cons d rest => simp
  | cons c rest =>
      cases convUpper t with
      | nil => simp
      | cons d rest' =>
          simp only [List.length_cons, List.tail_cons, List.cons.injEq]
          constructor
          · rintro ⟨-, rfl⟩
            exact Or.inr ⟨c, d, rest, ⟨rfl, rfl⟩, rfl, rfl⟩
          · rintro (⟨-, rfl⟩ | ⟨_, _, _, ⟨-, rfl⟩, -, rfl⟩) <;> exact ⟨rfl, rfl⟩

/-- Names of one chain that `StrEqCase` takes for one are the same, unless they are
confused. -/
theorem sameName_of_strEqCase (chain : hash (convUpper s) = hash (convUpper t))
    (clear : ¬Confused s t) : strEqCase (convUpper s) t = true ↔ SameName s t := by
  rw [strEqCase_iff]
  refine ⟨?_, Or.inl⟩
  rintro (same | ⟨c, d, rest, hs, ht⟩)
  · exact same
  · by_contra differ
    rw [SameName, hs, ht] at differ
    refine clear ⟨c, d, rest, hs, ht, fun eq => differ (by rw [eq]), ?_⟩
    rw [hs, ht, hash, hash, List.map_cons, List.map_cons, List.sum_cons, List.sum_cons] at chain
    rw [hashTableSize] at chain ⊢
    omega

theorem mem_flatten_getD (table : Table) {entry : HashEntry} :
    entry ∈ table.flatten ↔ ∃ hi, entry ∈ table.getD hi [] := by
  rw [List.mem_flatten]
  constructor
  · rintro ⟨chain, hchain, hentry⟩
    obtain ⟨hi, hlt, rfl⟩ := List.getElem_of_mem hchain
    exact ⟨hi, by rwa [List.getD_eq_getElem _ _ hlt]⟩
  · rintro ⟨hi, hentry⟩
    by_cases hlt : hi < table.length
    · rw [List.getD_eq_getElem _ _ hlt] at hentry
      exact ⟨_, List.getElem_mem hlt, hentry⟩
    · rw [List.getD_eq_default _ _ (by omega)] at hentry
      cases hentry

theorem Placed.set (placed : Placed names table) {chain : List HashEntry}
    (hchain : ∀ entry ∈ chain, hash (convUpper entry.name) = hash (convUpper s) ∧
      ∃ s' ∈ names, entry.name = s'.val) :
    Placed names (table.set (hash (convUpper s)) chain) := by
  refine ⟨List.length_set.trans placed.length, fun hi => ?_, fun hi => ?_⟩
  · rw [getD_set placed.length]
    split
    · next heq =>
        rw [heq]
        exact fun entry hentry => (hchain entry hentry).1
    · exact placed.chain hi
  · rw [getD_set placed.length]
    split
    · exact fun entry hentry => (hchain entry hentry).2
    · exact placed.known hi

theorem Placed.createHashEntry (placed : Placed names table) {s : EnvName} (hs : s ∈ names)
    (envval : EnvVal) : Placed names (createHashEntry table s.val envval) := by
  refine placed.set (fun entry hentry => ?_)
  cases hentry with
  | head => exact ⟨rfl, s, hs, rfl⟩
  | tail _ htail => exact ⟨placed.chain _ entry htail, placed.known _ entry htail⟩

theorem Placed.deleteHashEntry (placed : Placed names table) (deallocOk : Nat → Bool)
    (ports : Ports) (s : Name) (vt : EnvType) :
    Placed names (deleteHashEntry deallocOk table ports s vt).table := by
  have shorter : Placed names (table.set (hash (convUpper s))
      (removeFirst (convUpper s) (chainOf table s))) := by
    refine placed.set (fun entry hentry => ?_)
    have hold := (removeFirst_sublist (convUpper s) (chainOf table s)).subset hentry
    exact ⟨placed.chain _ entry hold, placed.known _ entry hold⟩
  unfold EnvMgr.deleteHashEntry
  split
  · exact placed
  · split
    · split <;> exact shorter
    · exact placed

theorem Placed.find_eq (placed : Placed names table)
    (clear : ∀ s ∈ names, ∀ t ∈ names, ¬Confused s.val t.val) {s : EnvName} (hs : s ∈ names)
    {entry : HashEntry} (hentry : entry ∈ chainOf table s.val) :
    strEqCase (convUpper s.val) entry.name = true ↔ SameName s.val entry.name := by
  obtain ⟨t, ht, hname⟩ := placed.known _ entry hentry
  refine sameName_of_strEqCase (placed.chain _ entry hentry).symm ?_
  rw [hname]
  exact clear s hs t ht

/-- An entry that does not answer to a name may change or go; the search for the name does not
see it. -/
theorem find?_updateFirst {p : HashEntry → Bool} (byName : ∀ e e' : HashEntry, e.name = e'.name →
    p e = p e') (s : Name) (envval : EnvVal) {chain : List HashEntry}
    (blind : ∀ entry ∈ chain, strEqCase s entry.name = true → p entry = false) :
    (updateFirst s envval chain).find? p = chain.find? p := by
  induction chain with
  | nil => rfl
  | cons entry rest ih =>
      unfold updateFirst
      split
      · next hit =>
          have off := blind entry List.mem_cons_self hit
          have off' : p { entry with envval := envval } = false :=
            (byName ⟨entry.name, envval⟩ entry rfl).trans off
          rw [List.find?_cons, off', List.find?_cons, off]
      · rw [List.find?_cons, List.find?_cons,
          ih (fun e he => blind e (List.mem_cons_of_mem _ he))]

theorem find?_removeFirst {p : HashEntry → Bool} (s : Name) {chain : List HashEntry}
    (blind : ∀ entry ∈ chain, strEqCase s entry.name = true → p entry = false) :
    (removeFirst s chain).find? p = chain.find? p := by
  induction chain with
  | nil => rfl
  | cons entry rest ih =>
      unfold removeFirst
      split
      · next hit =>
          have off := blind entry List.mem_cons_self hit
          rw [List.find?_cons_of_neg (by simp [off])]
      · rw [List.find?_cons, List.find?_cons,
          ih (fun e he => blind e (List.mem_cons_of_mem _ he))]

/-- Replacing the chain of one name is not seen by the search for another, when the search
in the new chain is the one in the old. -/
theorem find_set (htable : table.length = hashTableSize) (chain : List HashEntry)
    (same : hash (convUpper t) = hash (convUpper s) →
      chain.find? (fun entry => strEqCase (convUpper t) entry.name) =
        (chainOf table s).find? (fun entry => strEqCase (convUpper t) entry.name)) :
    findHashEntry (table.set (hash (convUpper s)) chain) t = findHashEntry table t := by
  unfold findHashEntry
  rw [show chainOf (table.set (hash (convUpper s)) chain) t = _ from getD_set htable s chain _]
  split
  · next heq =>
      rw [same heq, chainOf, chainOf, heq]
  · rfl

section Clear

variable (placed : Placed names table)
  (clear : ∀ s ∈ names, ∀ t ∈ names, ¬Confused s.val t.val)
  {s t : EnvName} (hs : s ∈ names) (ht : t ∈ names)
include placed clear hs ht

theorem Placed.blind (differ : ¬SameName s.val t.val)
    (chain : hash (convUpper t.val) = hash (convUpper s.val)) :
    ∀ entry ∈ chainOf table s.val, strEqCase (convUpper s.val) entry.name = true →
      strEqCase (convUpper t.val) entry.name = false := by
  intro entry hentry hit
  have same := (placed.find_eq clear hs hentry).mp hit
  have here : entry ∈ chainOf table t.val := by rwa [chainOf, chain]
  refine Bool.eq_false_iff.mpr (fun hit' => differ ?_)
  exact same.trans ((placed.find_eq clear ht here).mp hit').symm

theorem Placed.create_apart (differ : ¬SameName s.val t.val) (envval : EnvVal) :
    findHashEntry (EnvMgr.createHashEntry table s.val envval) t.val =
      findHashEntry table t.val := by
  refine find_set placed.length _ (fun chain => ?_)
  have off : strEqCase (convUpper t.val) s.val = false := by
    refine Bool.eq_false_iff.mpr (fun hit => differ ?_)
    exact ((sameName_of_strEqCase chain (clear t ht s hs)).mp hit).symm
  rw [List.find?_cons_of_neg (by simp [off])]

theorem Placed.set_apart (differ : ¬SameName s.val t.val) (envval : EnvVal) :
    findHashEntry (EnvMgr.setHashEntry table s.val envval) t.val =
      findHashEntry table t.val :=
  find_set placed.length _ (fun chain => find?_updateFirst (fun _ _ heq => by rw [heq]) _ _
    (placed.blind clear hs ht differ chain))

theorem Placed.remove_apart (differ : ¬SameName s.val t.val) :
    findHashEntry (table.set (hash (convUpper s.val))
      (removeFirst (convUpper s.val) (chainOf table s.val))) t.val =
      findHashEntry table t.val :=
  find_set placed.length _ (fun chain => find?_removeFirst _
    (placed.blind clear hs ht differ chain))

end Clear

theorem Placed.matchesExactly (placed : Placed names table) (deallocOk : Nat → Bool)
    (clear : ∀ s ∈ names, ∀ t ∈ names, ¬Confused s.val t.val) :
    MatchesExactly deallocOk names table := by
  refine ⟨fun s hs => ?_, fun s hs entry found => ?_, fun s hs t ht differ ports value => ?_,
    fun s hs t ht differ ports value => ?_, fun s hs t ht differ ports vt => ?_⟩
  · rw [findHashEntry, List.find?_isSome]
    constructor
    · rintro ⟨entry, hentry, hit⟩
      exact ⟨entry, (mem_flatten_getD table).mpr ⟨_, hentry⟩,
        ((placed.find_eq clear hs hentry).mp hit).symm⟩
    · rintro ⟨entry, hentry, same⟩
      obtain ⟨hi, hchain⟩ := (mem_flatten_getD table).mp hentry
      have here : entry ∈ chainOf table s.val := by
        rw [chainOf, ← same, placed.chain hi entry hchain]
        exact hchain
      exact ⟨entry, here, (placed.find_eq clear hs here).mpr same.symm⟩
  · have hentry := List.mem_of_find?_eq_some found
    have hit : strEqCase (convUpper s.val) entry.name = true := by
      simpa using List.find?_some found
    exact ⟨(mem_flatten_getD table).mpr ⟨_, hentry⟩,
      ((placed.find_eq clear hs hentry).mp hit).symm⟩
  · unfold setString
    split
    · rfl
    · exact placed.set_apart clear hs ht differ _
    · exact placed.create_apart clear hs ht differ _
  · unfold setPort
    split
    · rfl
    · split
      · rfl
      · split
        · rfl
        · exact placed.set_apart clear hs ht differ _
    · split
      · rfl
      · exact placed.create_apart clear hs ht differ _
  · unfold EnvMgr.deleteHashEntry
    split
    · rfl
    · split
      · split <;> exact placed.remove_apart clear hs ht differ
      · rfl

/-- The entries stay in the chains of their names through every sequence of calls. -/
theorem tableAfter_placed (deallocOk : Nat → Bool) (ports : Ports) (ops : List NameOp)
    (known : ∀ op ∈ ops, op.name ∈ names) : Placed names (tableAfter deallocOk ports ops) := by
  have general : ∀ state : Table × Ports, Placed names state.1 →
      Placed names (ops.foldl (callOp deallocOk) state).1 := by
    induction ops with
    | nil => exact fun _ placed => placed
    | cons op rest ih =>
        intro state placed
        refine ih (fun op' hop' => known op' (List.mem_cons_of_mem _ hop')) _ ?_
        cases op with
        | create name envval => exact placed.createHashEntry (known _ List.mem_cons_self) envval
        | delete name vt => exact placed.deleteHashEntry deallocOk state.2 name.val vt
  have empty : ∀ hi, emptyTable.getD hi [] = [] := by
    intro hi
    simp only [emptyTable, List.getD_eq_getElem?_getD, List.getElem?_replicate]
    split <;> rfl
  refine general (emptyTable, ports) ⟨List.length_replicate, ?_, ?_⟩ <;>
    · intro hi entry hentry
      rw [empty] at hentry
      cases hentry

end Names

/-! ## Which sets of names are safe -/

/-- Every sequence of calls with names of the set keeps the names apart exactly when no two of
them are confused. -/
theorem matchesExactly_iff (deallocOk : Nat → Bool) (ports : Ports) (names : Set EnvName) :
    (∀ ops : List NameOp, (∀ op ∈ ops, op.name ∈ names) →
      MatchesExactly deallocOk names (tableAfter deallocOk ports ops)) ↔
    ∀ s ∈ names, ∀ t ∈ names, ¬Confused s.val t.val := by
  constructor
  · intro sound s hs t ht confused
    -- one entry is enough: the other name finds it
    have matched := sound [.create s (.str [])] (by simpa [NameOp.name] using hs)
    obtain ⟨c, d, rest, upperS, upperT, differ, congruent⟩ := confused
    have chain : hash (convUpper t.val) = hash (convUpper s.val) := by
      rw [upperS, upperT, hash, hash, List.map_cons, List.map_cons, List.sum_cons, List.sum_cons]
      rw [hashTableSize] at congruent ⊢
      omega
    have hit : strEqCase (convUpper t.val) s.val = true :=
      (strEqCase_iff _ _).mpr (Or.inr ⟨d, c, rest, upperT, upperS⟩)
    have found : findHashEntry (tableAfter deallocOk ports [.create s (.str [])]) t.val =
        some ⟨s.val, .str []⟩ := by
      have here : chainOf (createHashEntry emptyTable s.val (.str [])) t.val =
          ⟨s.val, .str []⟩ :: chainOf emptyTable s.val := by
        rw [chainOf, createHashEntry,
          getD_set (show emptyTable.length = hashTableSize from List.length_replicate),
          if_pos chain]
      rw [tableAfter, List.foldl_cons, List.foldl_nil, callOp, findHashEntry, here,
        List.find?_cons, hit]
    have same := (matched.found_named t ht _ found).2
    rw [SameName, upperS, upperT] at same
    exact differ (List.cons.inj same).1
  · intro clear ops known
    exact (tableAfter_placed deallocOk ports ops known).matchesExactly deallocOk clear

/-- The variable `1A` is not set, and `Q` and `1` differ by 32. -/
theorem digit_finds_letter :
    ¬∀ (names : Set EnvName) (ops : List NameOp), (∀ op ∈ ops, op.name ∈ names) →
      MatchesExactly (fun _ => true) names (tableAfter (fun _ => true) [] ops) := by
  intro sound
  have matched := sound Set.univ [.create ⟨[81, 65], by decide⟩ (.str [66])]
    (fun _ _ => Set.mem_univ _)
  have named := (matched.found_named ⟨[49, 65], by decide⟩ (Set.mem_univ _)
    ⟨[81, 65], .str [66]⟩ (by decide)).2
  exact absurd named (by unfold SameName; decide)

end MachFormal.EnvMgr
