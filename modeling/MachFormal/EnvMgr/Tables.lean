import MachFormal.Library.Lists

/-!
# Hash tables and the port table of the environment manager

A context stores its variables in a hash table of 32 chains.  A port variable
holds an index into one port table that all contexts share; an entry of the
port table counts the variables that refer to it.  The routines of this module
work on one hash table and the port table.  What `port_deallocate` answers for
a port is an input.
-/

namespace MachFormal.EnvMgr

/-- A C string without its final zero. -/
abbrev Name := List UInt8

inductive EnvVal where
  | str (value : Name)
  | port (pi : Nat)
  deriving DecidableEq, Repr

inductive EnvType where
  | envstr
  | envport
  deriving DecidableEq, Repr

def EnvVal.vartype : EnvVal → EnvType
  | .str _ => .envstr
  | .port _ => .envport

structure HashEntry where
  name : Name
  envval : EnvVal
  deriving DecidableEq, Repr

/-- The chains of a hash table. -/
abbrev Table := List (List HashEntry)

/-- An entry of `pt_table`; the port 0 is `PORT_NULL`. -/
structure PortEnt where
  pt : Nat
  refcnt : Int
  deriving DecidableEq, Repr

abbrev Ports := List PortEnt

/-- Return codes; `kern` is a code of a kernel call. -/
inductive Code where
  | success
  | varNotFound
  | wrongVarType
  | unknownPort
  | readOnly
  | noMoreConn
  | portTableFull
  | portNull
  | kern (code : Nat)
  deriving DecidableEq, Repr

def hashTableSize : Nat := 32

def maxPortEnt : Nat := 1000

/-! ## Names -/

def upperChar (c : UInt8) : UInt8 :=
  if 97 ≤ c ∧ c ≤ 122 then c - 32 else c

def convUpper (s : Name) : Name :=
  s.map upperChar

/-- `StrEqCase` of an upper-case and a mixed-case string.  Its loop counts the position
down to 1, so the first characters are not compared. -/
def strEqCase (s1 s2 : Name) : Bool :=
  s1.length == s2.length && s1.tail == (convUpper s2).tail

/-- `Hash` adds the characters up and masks the sum. -/
def hash (s : Name) : Nat :=
  (s.map UInt8.toNat).sum % hashTableSize

/-! ## Hash table entries -/

/-- The chain a name belongs to. -/
def chainOf (table : Table) (name : Name) : List HashEntry :=
  table.getD (hash (convUpper name)) []

def findHashEntry (table : Table) (name : Name) : Option HashEntry :=
  (chainOf table name).find? (fun entry => strEqCase (convUpper name) entry.name)

/-- `CreateHashEntry` and the assignments its callers make to the new entry. -/
def createHashEntry (table : Table) (name : Name) (envval : EnvVal) : Table :=
  table.set (hash (convUpper name)) (⟨name, envval⟩ :: chainOf table name)

/-- Change the value of the first entry of a chain that has the name. -/
def updateFirst (s : Name) (envval : EnvVal) : List HashEntry → List HashEntry
  | [] => []
  | entry :: rest =>
      if strEqCase s entry.name then { entry with envval := envval } :: rest
      else entry :: updateFirst s envval rest

/-- Assign to the entry that `FindHashEntry` returned. -/
def setHashEntry (table : Table) (name : Name) (envval : EnvVal) : Table :=
  table.set (hash (convUpper name)) (updateFirst (convUpper name) envval (chainOf table name))

/-- Unlink the first entry of a chain that has the name. -/
def removeFirst (s : Name) : List HashEntry → List HashEntry
  | [] => []
  | entry :: rest => if strEqCase s entry.name then rest else entry :: removeFirst s rest

/-! ## The port table -/

def ptAt (ports : Ports) (pi : Nat) : Nat :=
  (ports.map PortEnt.pt).getD pi 0

def refAt (ports : Ports) (pi : Nat) : Int :=
  (ports.map PortEnt.refcnt).getD pi 0

/-- `add_port`; `none` stands for `-1`. -/
def addPort (ports : Ports) (newPort : Nat) : Option (Nat × Ports) :=
  match ports.findIdx? (fun entry => entry.pt == newPort) with
  | some i => some (i, ports.modify i (fun entry => { entry with refcnt := entry.refcnt + 1 }))
  | none =>
      match ports.findIdx? (fun entry => entry.refcnt == 0) with
      | none => none
      | some i => some (i, ports.modify i (fun entry => ⟨newPort, entry.refcnt + 1⟩))

/-- `del_port`; `deallocOk` says for which ports `port_deallocate` succeeds. -/
def delPort (deallocOk : Nat → Bool) (ports : Ports) (pi : Nat) : Ports :=
  ports.modify pi (fun entry =>
    if entry.refcnt - 1 = 0 ∧ deallocOk entry.pt then ⟨0, entry.refcnt - 1⟩
    else { entry with refcnt := entry.refcnt - 1 })

def removeDeadPort (ports : Ports) (oldPort : Nat) : Ports :=
  match ports.findIdx? (fun entry => entry.pt == oldPort) with
  | none => ports
  | some i => ports.modify i (fun entry => { entry with pt := 0 })

/-! ## Operations on the variables of one table -/

/-- What an operation leaves behind. -/
structure Outcome where
  code : Code
  table : Table
  ports : Ports
  deriving DecidableEq, Repr

def deleteHashEntry (deallocOk : Nat → Bool) (table : Table) (ports : Ports) (name : Name)
    (vt : EnvType) : Outcome :=
  match findHashEntry table name with
  | none => ⟨.varNotFound, table, ports⟩
  | some entry =>
      if entry.envval.vartype = vt then
        let table' := table.set (hash (convUpper name))
          (removeFirst (convUpper name) (chainOf table name))
        match entry.envval with
        | .str _ => ⟨.success, table', ports⟩
        | .port pi => ⟨.success, table', delPort deallocOk ports pi⟩
      else ⟨.wrongVarType, table, ports⟩

/-- `env_set_string` behind its checks. -/
def setString (table : Table) (ports : Ports) (name value : Name) : Outcome :=
  match findHashEntry table name with
  | some ⟨_, .port _⟩ => ⟨.wrongVarType, table, ports⟩
  | some ⟨_, .str _⟩ => ⟨.success, setHashEntry table name (.str value), ports⟩
  | none => ⟨.success, createHashEntry table name (.str value), ports⟩

/-- `env_set_port` behind its checks. -/
def setPort (deallocOk : Nat → Bool) (table : Table) (ports : Ports) (name : Name)
    (value : Nat) : Outcome :=
  match findHashEntry table name with
  | some ⟨_, .str _⟩ => ⟨.wrongVarType, table, ports⟩
  | some ⟨_, .port old⟩ =>
      if ptAt ports old = value then ⟨.success, table, ports⟩
      else
        match addPort ports value with
        | none => ⟨.portTableFull, table, ports⟩
        | some (pi, ports') =>
            ⟨.success, setHashEntry table name (.port pi), delPort deallocOk ports' old⟩
  | none =>
      match addPort ports value with
      | none => ⟨.portTableFull, table, ports⟩
      | some (pi, ports') => ⟨.success, createHashEntry table name (.port pi), ports'⟩

/-- `env_get_string` behind its check. -/
def getString (table : Table) (name : Name) : Code × Name :=
  match findHashEntry table name with
  | none => (.varNotFound, [])
  | some ⟨_, .port _⟩ => (.wrongVarType, [])
  | some ⟨_, .str value⟩ => (.success, value)

/-- `env_get_port` behind its check; a variable whose port is dead is removed. -/
def getPort (deallocOk : Nat → Bool) (table : Table) (ports : Ports) (name : Name) :
    Outcome × Nat :=
  match findHashEntry table name with
  | none => (⟨.varNotFound, table, ports⟩, 0)
  | some ⟨_, .str _⟩ => (⟨.wrongVarType, table, ports⟩, 0)
  | some ⟨_, .port pi⟩ =>
      if ptAt ports pi = 0 then
        ({ deleteHashEntry deallocOk table ports name .envport with code := .varNotFound }, 0)
      else (⟨.success, table, ports⟩, ptAt ports pi)

/-- The string variables in the order of the chains. -/
def strings (table : Table) : List (Name × Name) :=
  table.flatten.filterMap (fun entry =>
    match entry.envval with
    | .str value => some (entry.name, value)
    | .port _ => none)

/-- The port variables in the order of the chains. -/
def portVars (table : Table) (ports : Ports) : List (Name × Nat) :=
  table.flatten.filterMap (fun entry =>
    match entry.envval with
    | .str _ => none
    | .port pi => some (entry.name, ptAt ports pi))

/-- One entry of the counting loop of `env_list_ports`: remove the variable if its port is
dead, else count it.  The next entry of the chain is fetched before. -/
def sweepEntry (deallocOk : Nat → Bool) (acc : Outcome × Nat) (entry : HashEntry) :
    Outcome × Nat :=
  match entry.envval with
  | .str _ => acc
  | .port pi =>
      if ptAt acc.1.ports pi = 0 then
        (deleteHashEntry deallocOk acc.1.table acc.1.ports entry.name .envport, acc.2)
      else (acc.1, acc.2 + 1)

def sweepChain (deallocOk : Nat → Bool) (acc : Outcome × Nat) (hi : Nat) : Outcome × Nat :=
  (acc.1.table.getD hi []).foldl (sweepEntry deallocOk) acc

/-- The counting loop of `env_list_ports`. -/
def sweep (deallocOk : Nat → Bool) (table : Table) (ports : Ports) : Outcome × Nat :=
  (List.range hashTableSize).foldl (sweepChain deallocOk) (⟨.success, table, ports⟩, 0)

/-- The number of variables that refer to an entry of the port table. -/
def uses (table : Table) (pi : Nat) : Nat :=
  table.flatten.countP (fun entry => decide (entry.envval = .port pi))

/-! ## Counting the variables that refer to a port -/

section Uses

variable {table : Table} {name : Name} {entry : HashEntry} {chain : List HashEntry} {pi : Nat}

theorem hash_lt (s : Name) : hash s < hashTableSize :=
  Nat.mod_lt _ (by decide)

/-- One variable refers to the port, or none. -/
def refers (envval : EnvVal) (pi : Nat) : Nat :=
  if envval = .port pi then 1 else 0

@[simp] theorem refers_str (value : Name) (pi : Nat) : refers (.str value) pi = 0 := by
  simp [refers]

@[simp] theorem refers_port_self (pi : Nat) : refers (.port pi) pi = 1 := by
  simp [refers]

def chainUses (chain : List HashEntry) (pi : Nat) : Nat :=
  chain.countP (fun entry => decide (entry.envval = .port pi))

@[simp] theorem chainUses_cons (entry : HashEntry) (chain : List HashEntry) (pi : Nat) :
    chainUses (entry :: chain) pi = chainUses chain pi + refers entry.envval pi := by
  simp [chainUses, refers, List.countP_cons]

theorem uses_eq_sum (table : Table) (pi : Nat) :
    uses table pi = (table.map (fun chain => chainUses chain pi)).sum := by
  simp only [uses, List.countP_flatten]
  rfl

/-- Replacing the chain of a name changes the count by the entries of that chain. -/
theorem uses_set (htable : table.length = hashTableSize) (name : Name) (chain : List HashEntry)
    (pi : Nat) :
    uses (table.set (hash (convUpper name)) chain) pi + chainUses (chainOf table name) pi =
      uses table pi + chainUses chain pi := by
  have hlt : hash (convUpper name) < table.length := htable ▸ hash_lt _
  have hchain : table[hash (convUpper name)]? = some (chainOf table name) := by
    simp [chainOf, List.getD_eq_getElem?_getD, List.getElem?_eq_getElem hlt]
  rw [uses_eq_sum, uses_eq_sum]
  exact Library.sum_map_set (fun chain => chainUses chain pi) hchain

theorem chainUses_updateFirst {s : Name} (envval : EnvVal)
    (hfind : chain.find? (fun e => strEqCase s e.name) = some entry) (pi : Nat) :
    chainUses (updateFirst s envval chain) pi + refers entry.envval pi =
      chainUses chain pi + refers envval pi := by
  induction chain with
  | nil => cases hfind
  | cons first rest ih =>
      by_cases hname : strEqCase s first.name = true
      · simp only [List.find?_cons, hname, Option.some.injEq] at hfind
        subst hfind
        simp only [updateFirst, hname, if_true, chainUses_cons]
        omega
      · simp only [List.find?_cons, hname] at hfind
        have hrest := ih hfind
        simp only [updateFirst, hname, Bool.false_eq_true, if_false, chainUses_cons]
        omega

theorem chainUses_removeFirst {s : Name}
    (hfind : chain.find? (fun e => strEqCase s e.name) = some entry) (pi : Nat) :
    chainUses (removeFirst s chain) pi + refers entry.envval pi = chainUses chain pi := by
  induction chain with
  | nil => cases hfind
  | cons first rest ih =>
      by_cases hname : strEqCase s first.name = true
      · simp only [List.find?_cons, hname, Option.some.injEq] at hfind
        subst hfind
        simp only [removeFirst, hname, if_true, chainUses_cons]
      · simp only [List.find?_cons, hname] at hfind
        have hrest := ih hfind
        simp only [removeFirst, hname, Bool.false_eq_true, if_false, chainUses_cons]
        omega

theorem uses_createHashEntry (htable : table.length = hashTableSize) (name : Name)
    (envval : EnvVal) (pi : Nat) :
    uses (createHashEntry table name envval) pi = uses table pi + refers envval pi := by
  have hset := uses_set htable name (⟨name, envval⟩ :: chainOf table name) pi
  simp only [chainUses_cons] at hset
  simp only [createHashEntry]
  omega

theorem uses_setHashEntry (htable : table.length = hashTableSize)
    (hfind : findHashEntry table name = some entry) (envval : EnvVal) (pi : Nat) :
    uses (setHashEntry table name envval) pi + refers entry.envval pi =
      uses table pi + refers envval pi := by
  have hset := uses_set htable name
    (updateFirst (convUpper name) envval (chainOf table name)) pi
  have hchain := chainUses_updateFirst envval hfind pi
  simp only [setHashEntry]
  omega

theorem uses_remove (htable : table.length = hashTableSize)
    (hfind : findHashEntry table name = some entry) (pi : Nat) :
    uses (table.set (hash (convUpper name)) (removeFirst (convUpper name) (chainOf table name))) pi +
      refers entry.envval pi = uses table pi := by
  have hset := uses_set htable name (removeFirst (convUpper name) (chainOf table name)) pi
  have hchain := chainUses_removeFirst hfind pi
  omega

end Uses

/-! ## The counts of the port table -/

section PortTable

variable {ports : Ports} {i pi : Nat}

theorem refAt_modify (f : PortEnt → PortEnt) (hi : i < ports.length) (pi : Nat) :
    refAt (ports.modify i f) pi =
      if pi = i then (f ports[i]).refcnt else refAt ports pi := by
  unfold refAt
  by_cases hpi : pi = i
  · subst hpi
    simp [List.getD_eq_getElem?_getD, hi]
  · simp [List.getD_eq_getElem?_getD, Ne.symm hpi, hpi]

theorem refAt_modify_of_length_le (f : PortEnt → PortEnt) (hi : ports.length ≤ i) :
    ports.modify i f = ports :=
  List.modify_eq_self hi

theorem refAt_eq (hi : i < ports.length) : refAt ports i = ports[i].refcnt := by
  simp [refAt, List.getD_eq_getElem?_getD, hi]

/-- `add_port` counts one more reference to the entry it returns. -/
theorem addPort_spec {newPort : Nat} {ports' : Ports} (hadd : addPort ports newPort = some (pi, ports')) :
    pi < ports.length ∧ ports'.length = ports.length ∧
      ∀ k < ports.length, refAt ports' k = refAt ports k + refers (.port pi) k := by
  unfold addPort at hadd
  split at hadd
  · next i hfound =>
      obtain ⟨hi, -⟩ := List.findIdx?_eq_some_iff_getElem.mp hfound
      cases hadd
      refine ⟨hi, List.length_modify _ _ _, fun k hk => ?_⟩
      rw [refAt_modify _ hi]
      by_cases hki : k = pi
      · subst hki
        simp [refAt_eq hi]
      · simp [hki, refers, Ne.symm hki]
  · split at hadd
    · cases hadd
    · next i hfound =>
        obtain ⟨hi, -⟩ := List.findIdx?_eq_some_iff_getElem.mp hfound
        cases hadd
        refine ⟨hi, List.length_modify _ _ _, fun k hk => ?_⟩
        rw [refAt_modify _ hi]
        by_cases hki : k = pi
        · subst hki
          simp [refAt_eq hi]
        · simp [hki, refers, Ne.symm hki]

theorem delPort_spec (deallocOk : Nat → Bool) (ports : Ports) (pi : Nat) :
    (delPort deallocOk ports pi).length = ports.length ∧
      ∀ k < ports.length, refAt (delPort deallocOk ports pi) k + refers (.port pi) k =
        refAt ports k := by
  refine ⟨List.length_modify _ _ _, fun k hk => ?_⟩
  by_cases hpi : pi < ports.length
  · rw [delPort, refAt_modify _ hpi]
    by_cases hki : k = pi
    · subst hki
      simp only [if_true, refers_port_self, refAt_eq hpi]
      split <;> simp
    · simp [hki, refers, Ne.symm hki]
  · have hne : pi ≠ k := by omega
    rw [delPort, refAt_modify_of_length_le _ (by omega)]
    simp [refers, hne]

theorem removeDeadPort_spec (ports : Ports) (oldPort : Nat) :
    (removeDeadPort ports oldPort).length = ports.length ∧
      ∀ k, refAt (removeDeadPort ports oldPort) k = refAt ports k := by
  unfold removeDeadPort
  split
  · exact ⟨rfl, fun _ => rfl⟩
  · next i hfound =>
      obtain ⟨hi, -⟩ := List.findIdx?_eq_some_iff_getElem.mp hfound
      refine ⟨List.length_modify _ _ _, fun k => ?_⟩
      rw [refAt_modify _ hi]
      by_cases hki : k = i
      · subst hki
        simp [refAt_eq hi]
      · simp [hki]

end PortTable

/-! ## Names

Every name is in its chain, and no two names of a chain are the same to
`StrEqCase`. -/

structure Tidy (table : Table) : Prop where
  length : table.length = hashTableSize
  placed : ∀ hi, ∀ entry ∈ table.getD hi [], hash (convUpper entry.name) = hi
  distinct : ∀ hi, ((table.getD hi []).map HashEntry.name).Pairwise
    (fun a b => strEqCase (convUpper a) b = false)

section Names

variable {table : Table} {name : Name}

theorem getD_set (htable : table.length = hashTableSize) (name : Name) (chain : List HashEntry)
    (hi : Nat) :
    (table.set (hash (convUpper name)) chain).getD hi [] =
      if hi = hash (convUpper name) then chain else table.getD hi [] := by
  have hlt : hash (convUpper name) < table.length := htable ▸ hash_lt _
  simp only [List.getD_eq_getElem?_getD, List.getElem?_set]
  by_cases heq : hi = hash (convUpper name)
  · subst heq
    simp [hlt]
  · simp [heq, Ne.symm heq]

/-- Replacing a chain by names that belong there. -/
theorem Tidy.set (ht : Tidy table) {chain : List HashEntry}
    (hplaced : ∀ entry ∈ chain, hash (convUpper entry.name) = hash (convUpper name))
    (hdistinct : (chain.map HashEntry.name).Pairwise
      (fun a b => strEqCase (convUpper a) b = false)) :
    Tidy (table.set (hash (convUpper name)) chain) := by
  refine ⟨List.length_set.trans ht.length, fun hi => ?_, fun hi => ?_⟩
  · rw [getD_set ht.length]
    split
    · next heq =>
        rw [heq]
        exact hplaced
    · exact ht.placed hi
  · rw [getD_set ht.length]
    split
    · exact hdistinct
    · exact ht.distinct hi

theorem Tidy.createHashEntry (ht : Tidy table) (hfind : findHashEntry table name = none)
    (envval : EnvVal) : Tidy (createHashEntry table name envval) := by
  refine ht.set ?_ ?_
  · intro entry hentry
    cases hentry with
    | head => rfl
    | tail _ htail => exact ht.placed _ entry htail
  · rw [List.map_cons, List.pairwise_cons]
    refine ⟨fun other hother => ?_, ht.distinct _⟩
    obtain ⟨entry, hentry, rfl⟩ := List.mem_map.mp hother
    have hnone := List.find?_eq_none.mp hfind entry hentry
    simpa using hnone

theorem map_name_updateFirst (s : Name) (envval : EnvVal) (chain : List HashEntry) :
    (updateFirst s envval chain).map HashEntry.name = chain.map HashEntry.name := by
  induction chain with
  | nil => rfl
  | cons entry rest ih =>
      unfold updateFirst
      split
      · rfl
      · rw [List.map_cons, List.map_cons, ih]

theorem Tidy.setHashEntry (ht : Tidy table) (name : Name) (envval : EnvVal) :
    Tidy (setHashEntry table name envval) := by
  refine ht.set ?_ ?_
  · intro entry hentry
    have hmem : entry.name ∈ (chainOf table name).map HashEntry.name := by
      rw [← map_name_updateFirst (convUpper name) envval]
      exact List.mem_map_of_mem hentry
    obtain ⟨old, hold, hname⟩ := List.mem_map.mp hmem
    rw [← hname]
    exact ht.placed _ old hold
  · rw [map_name_updateFirst]
    exact ht.distinct _

theorem removeFirst_sublist (s : Name) (chain : List HashEntry) :
    (removeFirst s chain).Sublist chain := by
  induction chain with
  | nil => exact List.Sublist.slnil
  | cons entry rest ih =>
      unfold removeFirst
      split
      · exact List.sublist_cons_self entry rest
      · exact ih.cons_cons entry

theorem Tidy.remove (ht : Tidy table) (name : Name) :
    Tidy (table.set (hash (convUpper name)) (removeFirst (convUpper name) (chainOf table name))) := by
  have hsub := removeFirst_sublist (convUpper name) (chainOf table name)
  refine ht.set ?_ ?_
  · intro entry hentry
    exact ht.placed _ entry (hsub.subset hentry)
  · exact (ht.distinct _).sublist (hsub.map _)

end Names

/-! ## What an operation depends on

An operation keeps, for every entry of the port table, the number of references
that do not come from its own table.  Two port tables agree on a hash table when
they name the same ports and have the same entries to which nothing but that
table refers; an operation cannot tell them apart. -/

/-- References from outside the table stay as they were. -/
structure Keeps (table : Table) (ports : Ports) (o : Outcome) : Prop where
  table_length : o.table.length = table.length
  ports_length : o.ports.length = ports.length
  tidy : Tidy table → Tidy o.table
  outside : ∀ i < ports.length,
    refAt o.ports i - uses o.table i = refAt ports i - uses table i

structure Agree (table : Table) (ports ports' : Ports) : Prop where
  pts : ports.map PortEnt.pt = ports'.map PortEnt.pt
  counted : ∀ i < ports.length,
    (uses table i : Int) ≤ refAt ports i ∧ (uses table i : Int) ≤ refAt ports' i
  outside : ∀ i < ports.length, refAt ports i = uses table i ↔ refAt ports' i = uses table i

structure Same (o o' : Outcome) : Prop where
  code : o.code = o'.code
  table : o.table = o'.table
  pts : o.ports.map PortEnt.pt = o'.ports.map PortEnt.pt

section Agreement

variable {table : Table} {ports ports' : Ports} {o o' : Outcome} {name : Name}

theorem Keeps.refl (code : Code) (table : Table) (ports : Ports) :
    Keeps table ports ⟨code, table, ports⟩ :=
  ⟨rfl, rfl, id, fun _ _ => rfl⟩

theorem Keeps.trans (h : Keeps table ports o) (h' : Keeps o.table o.ports o') :
    Keeps table ports o' :=
  ⟨h'.table_length.trans h.table_length, h'.ports_length.trans h.ports_length,
    fun ht => h'.tidy (h.tidy ht), fun i hi => (h'.outside i (h.ports_length.symm ▸ hi)).trans (h.outside i hi)⟩

theorem Agree.length_eq (h : Agree table ports ports') : ports.length = ports'.length := by
  have hlength := congrArg List.length h.pts
  simpa using hlength

theorem Agree.ptAt_eq (h : Agree table ports ports') (pi : Nat) :
    ptAt ports pi = ptAt ports' pi := by
  rw [ptAt, ptAt, h.pts]

theorem Agree.of_keeps (h : Agree table ports ports') (hk : Keeps table ports o)
    (hk' : Keeps table ports' o') (hsame : Same o o') : Agree o.table o.ports o'.ports := by
  have hlength := h.length_eq
  refine ⟨hsame.pts, fun i hi => ?_, fun i hi => ?_⟩
  all_goals
    rw [hk.ports_length] at hi
    have hcounted := h.counted i hi
    have houtside := h.outside i hi
    have hone := hk.outside i hi
    have htwo := hk'.outside i (hlength ▸ hi)
    rw [← hsame.table] at htwo
    omega

/-- Entries with references are the same in both port tables. -/
theorem Agree.unused_iff (h : Agree table ports ports') {i : Nat} (hi : i < ports.length) :
    refAt ports i = 0 ↔ refAt ports' i = 0 := by
  have hcounted := h.counted i hi
  have houtside := h.outside i hi
  omega

theorem findIdx?_congr {α β : Type} {p : α → Bool} {q : β → Bool} {xs : List α} {ys : List β}
    (h : xs.map p = ys.map q) : xs.findIdx? p = ys.findIdx? q := by
  have hone : xs.findIdx? p = (xs.map p).findIdx? id := by rw [List.findIdx?_map]; rfl
  have htwo : ys.findIdx? q = (ys.map q).findIdx? id := by rw [List.findIdx?_map]; rfl
  rw [hone, htwo, h]

theorem map_pt_modify (ports : Ports) (i : Nat) (f : PortEnt → PortEnt) (g : Nat → Nat)
    (hfg : ∀ hi : i < ports.length, (f ports[i]).pt = g ports[i].pt) :
    (ports.modify i f).map PortEnt.pt = (ports.map PortEnt.pt).modify i g := by
  refine List.ext_getElem (by simp) (fun k hk hk' => ?_)
  simp only [List.getElem_map, List.getElem_modify]
  by_cases hki : i = k
  · subst hki
    simp only [if_true]
    exact hfg _
  · simp [hki]

/-- `add_port` chooses the same entry. -/
theorem Agree.addPort (h : Agree table ports ports') (newPort : Nat) :
    (addPort ports newPort = none ∧ addPort ports' newPort = none) ∨
      ∃ pi P P', addPort ports newPort = some (pi, P) ∧ addPort ports' newPort = some (pi, P') ∧
        P.map PortEnt.pt = P'.map PortEnt.pt := by
  have hfound : ports.findIdx? (fun entry => entry.pt == newPort) =
      ports'.findIdx? (fun entry => entry.pt == newPort) := by
    refine findIdx?_congr ?_
    have hpts := congrArg (List.map (· == newPort)) h.pts
    simpa [List.map_map, Function.comp_def] using hpts
  have hempty : ports.findIdx? (fun entry => entry.refcnt == 0) =
      ports'.findIdx? (fun entry => entry.refcnt == 0) := by
    refine findIdx?_congr (List.ext_getElem (by simpa using h.length_eq) (fun i hi hi' => ?_))
    rw [List.length_map] at hi hi'
    have hunused := h.unused_iff hi
    rw [refAt_eq hi, refAt_eq hi'] at hunused
    simp only [List.getElem_map]
    rw [Bool.eq_iff_iff, beq_iff_eq, beq_iff_eq]
    exact hunused
  unfold EnvMgr.addPort
  rw [← hfound, ← hempty]
  cases ports.findIdx? (fun entry => entry.pt == newPort) with
  | some i =>
      refine Or.inr ⟨i, _, _, rfl, rfl, ?_⟩
      rw [map_pt_modify _ _ _ id (fun _ => rfl), map_pt_modify _ _ _ id (fun _ => rfl), h.pts]
  | none =>
      cases ports.findIdx? (fun entry => entry.refcnt == 0) with
      | none => exact Or.inl ⟨rfl, rfl⟩
      | some i =>
          refine Or.inr ⟨i, _, _, rfl, rfl, ?_⟩
          rw [map_pt_modify _ _ _ (fun _ => newPort) (fun _ => rfl),
            map_pt_modify _ _ _ (fun _ => newPort) (fun _ => rfl), h.pts]

/-- `del_port` gives a port back in both tables or in neither. -/
theorem delPort_pts {deallocOk : Nat → Bool} {pi : Nat}
    (hpts : ports.map PortEnt.pt = ports'.map PortEnt.pt)
    (hlast : pi < ports.length → (refAt ports pi = 1 ↔ refAt ports' pi = 1)) :
    (delPort deallocOk ports pi).map PortEnt.pt = (delPort deallocOk ports' pi).map PortEnt.pt := by
  have hlength : ports.length = ports'.length := by simpa using congrArg List.length hpts
  by_cases hpi : pi < ports.length
  · have hpi' : pi < ports'.length := hlength ▸ hpi
    have hpt : ports[pi].pt = ports'[pi].pt := by
      have hget := congrArg (fun pts : List Nat => pts[pi]?) hpts
      simpa [hpi, hpi'] using hget
    have hlast := hlast hpi
    rw [refAt_eq hpi, refAt_eq hpi'] at hlast
    have hzero : ports[pi].refcnt - 1 = 0 ↔ ports'[pi].refcnt - 1 = 0 := by omega
    unfold delPort
    by_cases hgone : ports[pi].refcnt - 1 = 0 ∧ deallocOk ports[pi].pt = true
    · have hgone' : ports'[pi].refcnt - 1 = 0 ∧ deallocOk ports'[pi].pt = true :=
        ⟨hzero.mp hgone.1, hpt ▸ hgone.2⟩
      rw [map_pt_modify _ _ _ (fun _ => 0) (fun _ => by rw [if_pos hgone]),
        map_pt_modify _ _ _ (fun _ => 0) (fun _ => by rw [if_pos hgone']), hpts]
    · have hgone' : ¬ (ports'[pi].refcnt - 1 = 0 ∧ deallocOk ports'[pi].pt = true) := by
        rw [← hzero, ← hpt]
        exact hgone
      rw [map_pt_modify _ _ _ id (fun _ => by rw [if_neg hgone]; rfl),
        map_pt_modify _ _ _ id (fun _ => by rw [if_neg hgone']; rfl), hpts]
  · rw [delPort, delPort, refAt_modify_of_length_le _ (by omega),
      refAt_modify_of_length_le _ (by omega)]
    exact hpts

theorem deleteHashEntry_keeps (htable : table.length = hashTableSize) (deallocOk : Nat → Bool)
    (ports : Ports) (name : Name) (vt : EnvType) :
    Keeps table ports (deleteHashEntry deallocOk table ports name vt) := by
  unfold deleteHashEntry
  cases hfind : findHashEntry table name with
  | none => exact Keeps.refl _ _ _
  | some entry =>
      dsimp only
      split
      · have hremove := uses_remove htable hfind
        cases hval : entry.envval with
        | str value =>
            refine ⟨List.length_set, rfl, fun ht => ht.remove name, fun i _ => ?_⟩
            have hi := hremove i
            simp only [hval, refers_str] at hi
            simp only
            omega
        | port pi =>
            obtain ⟨hlength, hdel⟩ := delPort_spec deallocOk ports pi
            refine ⟨List.length_set, hlength, fun ht => ht.remove name, fun i hi => ?_⟩
            have hri := hremove i
            have hdi := hdel i hi
            simp only [hval] at hri
            simp only
            omega
      · exact Keeps.refl _ _ _

theorem deleteHashEntry_same (htable : table.length = hashTableSize) (deallocOk : Nat → Bool)
    (h : Agree table ports ports') (name : Name) (vt : EnvType) :
    Same (deleteHashEntry deallocOk table ports name vt)
      (deleteHashEntry deallocOk table ports' name vt) := by
  unfold deleteHashEntry
  cases hfind : findHashEntry table name with
  | none => exact ⟨rfl, rfl, h.pts⟩
  | some entry =>
      dsimp only
      split
      · cases hval : entry.envval with
        | str value => exact ⟨rfl, rfl, h.pts⟩
        | port pi =>
            refine ⟨rfl, rfl, delPort_pts h.pts (fun hi => ?_)⟩
            -- the variable itself is one of the references
            have hremove := uses_remove htable hfind pi
            rw [hval, refers_port_self] at hremove
            have hcounted := h.counted pi hi
            have houtside := h.outside pi hi
            omega
      · exact ⟨rfl, rfl, h.pts⟩

theorem setString_keeps (htable : table.length = hashTableSize) (ports : Ports)
    (name value : Name) : Keeps table ports (setString table ports name value) := by
  unfold setString
  split
  · exact Keeps.refl _ _ _
  · next hfind =>
      refine ⟨List.length_set, rfl, fun ht => ht.setHashEntry name _, fun i _ => ?_⟩
      have hset := uses_setHashEntry htable hfind (.str value) i
      simp only [refers_str] at hset
      simp only
      omega
  · next hfind =>
      refine ⟨List.length_set, rfl, fun ht => ht.createHashEntry hfind _, fun i _ => ?_⟩
      have hcreate := uses_createHashEntry htable name (.str value) i
      simp only [refers_str] at hcreate
      simp only
      omega

theorem setString_same (h : Agree table ports ports') (name value : Name) :
    Same (setString table ports name value) (setString table ports' name value) := by
  unfold setString
  split <;> exact ⟨rfl, rfl, h.pts⟩

theorem setPort_keeps (htable : table.length = hashTableSize) (deallocOk : Nat → Bool)
    (ports : Ports) (name : Name) (value : Nat) :
    Keeps table ports (setPort deallocOk table ports name value) := by
  unfold setPort
  split
  · exact Keeps.refl _ _ _
  · next old hfind =>
      split
      · exact Keeps.refl _ _ _
      · split
        · exact Keeps.refl _ _ _
        · next pi ports' hadd =>
            obtain ⟨hpi, hlength, hcount⟩ := addPort_spec hadd
            obtain ⟨hlength', hdel⟩ := delPort_spec deallocOk ports' old
            refine ⟨List.length_set, hlength'.trans hlength, fun ht => ht.setHashEntry name _,
              fun i hi => ?_⟩
            have hset := uses_setHashEntry htable hfind (.port pi) i
            have hci := hcount i hi
            have hdi := hdel i (hlength.symm ▸ hi)
            simp only at hset ⊢
            omega
  · next hfind =>
      split
      · exact Keeps.refl _ _ _
      next pi ports' hadd =>
        obtain ⟨hpi, hlength, hcount⟩ := addPort_spec hadd
        refine ⟨List.length_set, hlength, fun ht => ht.createHashEntry hfind _, fun i hi => ?_⟩
        have hcreate := uses_createHashEntry htable name (.port pi) i
        have hci := hcount i hi
        simp only
        omega

theorem setPort_same (htable : table.length = hashTableSize) (deallocOk : Nat → Bool)
    (h : Agree table ports ports') (name : Name) (value : Nat) :
    Same (setPort deallocOk table ports name value) (setPort deallocOk table ports' name value) := by
  unfold setPort
  cases hfind : findHashEntry table name with
  | none =>
      rcases h.addPort value with ⟨hnone, hnone'⟩ | ⟨pi, P, P', hadd, hadd', hpts⟩
      · simp only [hnone, hnone']
        exact ⟨rfl, rfl, h.pts⟩
      · simp only [hadd, hadd']
        exact ⟨rfl, rfl, hpts⟩
  | some entry =>
      obtain ⟨entryName, envval⟩ := entry
      cases envval with
      | str value => exact ⟨rfl, rfl, h.pts⟩
      | port old =>
          dsimp only
          rw [h.ptAt_eq old]
          split
          · exact ⟨rfl, rfl, h.pts⟩
          · rcases h.addPort value with ⟨hnone, hnone'⟩ | ⟨pi, P, P', hadd, hadd', hpts⟩
            · simp only [hnone, hnone']
              exact ⟨rfl, rfl, h.pts⟩
            · simp only [hadd, hadd']
              refine ⟨rfl, rfl, delPort_pts hpts (fun hi => ?_)⟩
              obtain ⟨-, hlength, hcount⟩ := addPort_spec hadd
              obtain ⟨-, -, hcount'⟩ := addPort_spec hadd'
              have hold : old < ports.length := hlength ▸ hi
              have hone := hcount old hold
              have htwo := hcount' old (h.length_eq ▸ hold)
              have hset := uses_setHashEntry htable hfind (.str []) old
              simp only [refers_port_self, refers_str] at hset
              have hcounted := h.counted old hold
              have houtside := h.outside old hold
              omega

theorem getPort_keeps (htable : table.length = hashTableSize) (deallocOk : Nat → Bool)
    (ports : Ports) (name : Name) : Keeps table ports (getPort deallocOk table ports name).1 := by
  unfold getPort
  split
  · exact Keeps.refl _ _ _
  · exact Keeps.refl _ _ _
  · split
    · have hdelete := deleteHashEntry_keeps htable deallocOk ports name .envport
      exact ⟨hdelete.table_length, hdelete.ports_length, hdelete.tidy, hdelete.outside⟩
    · exact Keeps.refl _ _ _

theorem getPort_same (htable : table.length = hashTableSize) (deallocOk : Nat → Bool)
    (h : Agree table ports ports') (name : Name) :
    Same (getPort deallocOk table ports name).1 (getPort deallocOk table ports' name).1 ∧
      (getPort deallocOk table ports name).2 = (getPort deallocOk table ports' name).2 := by
  unfold getPort
  split
  · exact ⟨⟨rfl, rfl, h.pts⟩, rfl⟩
  · exact ⟨⟨rfl, rfl, h.pts⟩, rfl⟩
  · next pi hfind =>
      rw [h.ptAt_eq pi]
      split
      · have hdelete := deleteHashEntry_same htable deallocOk h name .envport
        exact ⟨⟨rfl, hdelete.table, hdelete.pts⟩, rfl⟩
      · exact ⟨⟨rfl, rfl, h.pts⟩, rfl⟩

end Agreement

/-! ## The counting loop -/

/-- Two counting loops that run side by side. -/
structure Twin (acc acc' : Outcome × Nat) : Prop where
  length : acc.1.table.length = hashTableSize
  same : Same acc.1 acc'.1
  agree : Agree acc.1.table acc.1.ports acc'.1.ports
  counted : acc.2 = acc'.2

section Sweep

variable {deallocOk : Nat → Bool} {acc acc' : Outcome × Nat}

theorem sweepEntry_keeps (htable : acc.1.table.length = hashTableSize) (entry : HashEntry) :
    Keeps acc.1.table acc.1.ports (sweepEntry deallocOk acc entry).1 := by
  unfold sweepEntry
  split
  · exact Keeps.refl _ _ _
  · split
    · exact deleteHashEntry_keeps htable deallocOk _ _ _
    · exact Keeps.refl _ _ _

theorem sweepEntry_twin (h : Twin acc acc') (entry : HashEntry) :
    Twin (sweepEntry deallocOk acc entry) (sweepEntry deallocOk acc' entry) := by
  have hkeeps := @sweepEntry_keeps deallocOk acc h.length entry
  have hkeeps' : Keeps acc'.1.table acc'.1.ports (sweepEntry deallocOk acc' entry).1 :=
    sweepEntry_keeps (h.same.table ▸ h.length) entry
  have hboth : Same (sweepEntry deallocOk acc entry).1 (sweepEntry deallocOk acc' entry).1 ∧
      (sweepEntry deallocOk acc entry).2 = (sweepEntry deallocOk acc' entry).2 := by
    unfold sweepEntry
    cases entry.envval with
    | str value => exact ⟨h.same, h.counted⟩
    | port pi =>
        dsimp only
        rw [h.agree.ptAt_eq pi, ← h.same.table]
        split
        · exact ⟨deleteHashEntry_same h.length deallocOk h.agree _ _, h.counted⟩
        · exact ⟨h.same, congrArg (· + 1) h.counted⟩
  rw [← h.same.table] at hkeeps'
  exact ⟨hkeeps.table_length.trans h.length, hboth.1,
    h.agree.of_keeps hkeeps hkeeps' hboth.1, hboth.2⟩

theorem sweepEntries_keeps (entries : List HashEntry)
    (htable : acc.1.table.length = hashTableSize) :
    Keeps acc.1.table acc.1.ports (entries.foldl (sweepEntry deallocOk) acc).1 := by
  induction entries generalizing acc with
  | nil => exact Keeps.refl _ _ _
  | cons entry entries ih =>
      have hentry := @sweepEntry_keeps deallocOk acc htable entry
      exact hentry.trans (ih (hentry.table_length.trans htable))

theorem sweepEntries_twin (entries : List HashEntry) (h : Twin acc acc') :
    Twin (entries.foldl (sweepEntry deallocOk) acc)
      (entries.foldl (sweepEntry deallocOk) acc') := by
  induction entries generalizing acc acc' with
  | nil => exact h
  | cons entry entries ih => exact ih (sweepEntry_twin h entry)

theorem sweepChains_keeps (his : List Nat) (htable : acc.1.table.length = hashTableSize) :
    Keeps acc.1.table acc.1.ports (his.foldl (sweepChain deallocOk) acc).1 := by
  induction his generalizing acc with
  | nil => exact Keeps.refl _ _ _
  | cons hi his ih =>
      have hchain := @sweepEntries_keeps deallocOk acc (acc.1.table.getD hi []) htable
      exact hchain.trans (ih (hchain.table_length.trans htable))

theorem sweepChains_twin (his : List Nat) (h : Twin acc acc') :
    Twin (his.foldl (sweepChain deallocOk) acc) (his.foldl (sweepChain deallocOk) acc') := by
  induction his generalizing acc acc' with
  | nil => exact h
  | cons hi his ih =>
      refine ih ?_
      unfold sweepChain
      rw [← h.same.table]
      exact sweepEntries_twin _ h

theorem sweep_keeps {table : Table} (htable : table.length = hashTableSize)
    (deallocOk : Nat → Bool) (ports : Ports) :
    Keeps table ports (sweep deallocOk table ports).1 :=
  @sweepChains_keeps deallocOk (⟨.success, table, ports⟩, 0) _ htable

theorem sweep_twin {table : Table} {ports ports' : Ports}
    (htable : table.length = hashTableSize) (deallocOk : Nat → Bool)
    (h : Agree table ports ports') :
    Twin (sweep deallocOk table ports) (sweep deallocOk table ports') :=
  sweepChains_twin _ ⟨htable, ⟨rfl, rfl, h.pts⟩, h, rfl⟩

end Sweep

end MachFormal.EnvMgr
