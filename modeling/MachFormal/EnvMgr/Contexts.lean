import MachFormal.EnvMgr.Tables

/-!
# Contexts of the environment manager

A context is reached through its read/write port or its read-only port.
`env_copy_conn` lets the new context share the hash table of the old one and
counts the contexts that use a table; a routine that changes a variable copies
a shared table first.  The flag `eager` turns `env_copy_conn` into the
reference implementation that copies the table at once.

The answers of the kernel are inputs of a call.  `malloc` does not fail, and
the buffer for the ports of `env_list_ports` is as large as needed.
-/

namespace MachFormal.EnvMgr

/-- A hash table with the number of contexts using it. -/
structure HashHead where
  refcnt : Int
  table : Table
  deriving DecidableEq, Repr

/-- A context that is in use; `head` is the address of its hash table. -/
structure Context where
  head : Nat
  rwport : Nat
  roport : Nat
  deriving DecidableEq, Repr

/-- The tables of the manager; a context or an address that is not in use is `none`. -/
structure State where
  contexts : List (Option Context)
  heads : List (Option HashHead)
  ports : Ports
  deriving DecidableEq, Repr

/-- What a call returns.  Arguments a call does not set keep their defaults. -/
structure Reply where
  code : Code
  string : Name := []
  port : Nat := 0
  strings : List (Name × Name) := []
  ports : List (Name × Nat) := []
  deriving DecidableEq, Repr

def maxConn : Nat := 256

def contextAt (s : State) (cx : Nat) : Context :=
  (s.contexts[cx]?.join).getD ⟨0, 0, 0⟩

def headAt (s : State) (head : Nat) : HashHead :=
  (s.heads[head]?.join).getD ⟨0, []⟩

def refcntOf (s : State) (cx : Nat) : Int :=
  (headAt s (contextAt s cx).head).refcnt

def tableOf (s : State) (cx : Nat) : Table :=
  (headAt s (contextAt s cx).head).table

/-- The context listens to the port. -/
def listens (servPort : Nat) : Option Context → Bool
  | none => false
  | some context => context.rwport == servPort || context.roport == servPort

/-- `PortToContext`: the context of a port, and whether the port is read-only. -/
def portToContext (s : State) (servPort : Nat) : Option (Nat × Bool) :=
  match s.contexts.findIdx? (listens servPort) with
  | none => none
  | some cx => some (cx, (contextAt s cx).rwport != servPort)

/-- Count a reference for every port variable of a copied table. -/
def addUses (entries : List HashEntry) (ports : Ports) : Ports :=
  entries.foldl (fun ports entry =>
    match entry.envval with
    | .str _ => ports
    | .port pi => ports.modify pi (fun e => { e with refcnt := e.refcnt + 1 })) ports

/-- `CopyHashTable`; the chains are copied in their order. -/
def copyHashTable (s : State) (cx : Nat) : State :=
  let context := contextAt s cx
  let oldHead := headAt s context.head
  { contexts := s.contexts.set cx (some { context with head := s.heads.length })
    heads := s.heads.set context.head (some { oldHead with refcnt := oldHead.refcnt - 1 }) ++
      [some ⟨1, oldHead.table⟩]
    ports := addUses oldHead.table.flatten s.ports }

/-- The test that precedes every change of a variable. -/
def copyIfShared (s : State) (cx : Nat) : State :=
  if 1 < refcntOf s cx then copyHashTable s cx else s

/-- Store what an operation made of the table of a context and of the port table. -/
def store (s : State) (cx : Nat) (o : Outcome) : State :=
  let context := contextAt s cx
  { s with
    heads := s.heads.set context.head (some { headAt s context.head with table := o.table })
    ports := o.ports }

/-! ## Calls that change variables -/

/-- The common form of the calls that set or delete one variable. -/
def change (s : State) (servPort : Nat) (op : Table → Ports → Outcome) : State × Reply :=
  match portToContext s servPort with
  | none => (s, { code := .unknownPort })
  | some (cx, restrict) =>
      if restrict then (s, { code := .readOnly })
      else
        let s' := copyIfShared s cx
        let o := op (tableOf s' cx) s'.ports
        (store s' cx o, { code := o.code })

def envSetString (s : State) (servPort : Nat) (name value : Name) : State × Reply :=
  change s servPort (fun table ports => setString table ports name value)

def envDelString (deallocOk : Nat → Bool) (s : State) (servPort : Nat) (name : Name) :
    State × Reply :=
  change s servPort (fun table ports => deleteHashEntry deallocOk table ports name .envstr)

/-- `env_set_port` refuses the null port before it looks at the context. -/
def envSetPort (deallocOk : Nat → Bool) (s : State) (servPort : Nat) (name : Name)
    (value : Nat) : State × Reply :=
  if value = 0 then (s, { code := .portNull })
  else change s servPort (fun table ports => setPort deallocOk table ports name value)

def envDelPort (deallocOk : Nat → Bool) (s : State) (servPort : Nat) (name : Name) :
    State × Reply :=
  change s servPort (fun table ports => deleteHashEntry deallocOk table ports name .envport)

/-- `env_set_stlist`; the code returned for an empty list is not initialised. -/
def envSetStlist (s : State) (servPort : Nat) (retcode : Code) :
    List (Name × Name) → State × Reply
  | [] => (s, { code := retcode })
  | (name, value) :: rest =>
      let result := envSetString s servPort name value
      if result.2.code = .success then envSetStlist result.1 servPort .success rest
      else (result.1, { code := result.2.code })

/-- `env_set_ptlist`; the code returned for an empty list is not initialised. -/
def envSetPtlist (deallocOk : Nat → Bool) (s : State) (servPort : Nat) (retcode : Code) :
    List (Name × Nat) → State × Reply
  | [] => (s, { code := retcode })
  | (name, value) :: rest =>
      let result := envSetPort deallocOk s servPort name value
      if result.2.code = .success then envSetPtlist deallocOk result.1 servPort .success rest
      else (result.1, { code := result.2.code })

/-! ## Calls that read variables -/

/-- The common form of the calls that read variables: no port is refused, and the table is
not copied. -/
def consult (s : State) (servPort : Nat) (op : Table → Ports → Outcome × Reply) :
    State × Reply :=
  match portToContext s servPort with
  | none => (s, { code := .unknownPort })
  | some (cx, _) =>
      let result := op (tableOf s cx) s.ports
      (store s cx result.1, result.2)

def getStringOp (name : Name) (table : Table) (ports : Ports) : Outcome × Reply :=
  let found := getString table name
  (⟨found.1, table, ports⟩, { code := found.1, string := found.2 })

def envGetString (s : State) (servPort : Nat) (name : Name) : State × Reply :=
  consult s servPort (getStringOp name)

def getPortOp (deallocOk : Nat → Bool) (name : Name) (table : Table) (ports : Ports) :
    Outcome × Reply :=
  let found := getPort deallocOk table ports name
  (found.1, { code := found.1.code, port := found.2 })

def envGetPort (deallocOk : Nat → Bool) (s : State) (servPort : Nat) (name : Name) :
    State × Reply :=
  consult s servPort (getPortOp deallocOk name)

/-- `env_list_strings` behind its check; two `vm_allocate` calls may fail with a code. -/
def listStringsOp (names values : Option Nat) (table : Table) (ports : Ports) :
    Outcome × Reply :=
  let reply : Reply :=
    if strings table = [] then { code := .success }
    else
      match names, values with
      | some code, _ => { code := .kern code }
      | none, some code => { code := .kern code }
      | none, none => { code := .success, strings := strings table }
  (⟨reply.code, table, ports⟩, reply)

def envListStrings (s : State) (servPort : Nat) (names values : Option Nat) : State × Reply :=
  consult s servPort (listStringsOp names values)

/-- `env_list_ports` behind its check; variables with dead ports are removed first. -/
def listPortsOp (deallocOk : Nat → Bool) (names : Option Nat) (table : Table) (ports : Ports) :
    Outcome × Reply :=
  let swept := sweep deallocOk table ports
  if swept.2 = 0 then (swept.1, { code := swept.1.code })
  else
    match names with
    | some code => (swept.1, { code := .kern code })
    | none =>
        (swept.1, { code := .success, ports := portVars swept.1.table swept.1.ports })

def envListPorts (deallocOk : Nat → Bool) (s : State) (servPort : Nat) (names : Option Nat) :
    State × Reply :=
  consult s servPort (listPortsOp deallocOk names)

/-! ## Connections -/

/-- Let the free context `ncx` share the table of `cx`. -/
def share (s : State) (cx ncx newPort : Nat) : State :=
  let head := (contextAt s cx).head
  let hashHead := headAt s head
  { s with
    contexts := s.contexts.set ncx (some ⟨head, newPort, 0⟩)
    heads := s.heads.set head (some { hashHead with refcnt := hashHead.refcnt + 1 }) }

/-- `env_copy_conn`; `newEnvPort` is the answer of `port_allocate`. -/
def envCopyConn (eager : Bool) (s : State) (servPort : Nat) (newEnvPort : Except Nat Nat) :
    State × Reply :=
  match portToContext s servPort with
  | none => (s, { code := .unknownPort })
  | some (cx, _) =>
      match s.contexts.findIdx? Option.isNone with
      | none => (s, { code := .noMoreConn })
      | some ncx =>
          match newEnvPort with
          | .error code => (s, { code := .kern code })
          | .ok newPort =>
              let s' := share s cx ncx newPort
              (if eager then copyHashTable s' ncx else s', { code := .success, port := newPort })

def emptyTable : Table := List.replicate hashTableSize []

/-- Give the free context `ncx` an empty table. -/
def openContext (s : State) (ncx newPort : Nat) : State :=
  { s with
    contexts := s.contexts.set ncx (some ⟨s.heads.length, newPort, 0⟩)
    heads := s.heads ++ [some ⟨1, emptyTable⟩] }

def envNewConn (s : State) (newEnvPort : Except Nat Nat) : State × Reply :=
  match s.contexts.findIdx? Option.isNone with
  | none => (s, { code := .noMoreConn })
  | some ncx =>
      match newEnvPort with
      | .error code => (s, { code := .kern code })
      | .ok newPort => (openContext s ncx newPort, { code := .success, port := newPort })

def setRoport (s : State) (cx roport : Nat) : State :=
  { s with contexts := s.contexts.set cx (some { contextAt s cx with roport := roport }) }

def envRestrictConn (s : State) (servPort : Nat) (newEnvPort : Except Nat Nat) : State × Reply :=
  match portToContext s servPort with
  | none => (s, { code := .unknownPort })
  | some (cx, _) =>
      if (contextAt s cx).roport ≠ 0 then
        (s, { code := .success, port := (contextAt s cx).roport })
      else
        match newEnvPort with
        | .error code => (s, { code := .kern code })
        | .ok newPort => (setRoport s cx newPort, { code := .success, port := newPort })

def deadPort (s : State) (port : Nat) : State :=
  { s with ports := removeDeadPort s.ports port }

/-- Take a context out of use.  The loop that should give up the references of a table no
context uses any more runs while `i > HASHTABLESIZE`, that is never; the table is freed. -/
def dispose (s : State) (cx : Nat) : State :=
  let head := (contextAt s cx).head
  let hashHead := headAt s head
  let hashHead' := { hashHead with refcnt := hashHead.refcnt - 1 }
  { s with
    contexts := s.contexts.set cx none
    heads := s.heads.set head (if hashHead'.refcnt = 0 then none else some hashHead') }

def envDisconnect (s : State) (servPort : Nat) : State × Reply :=
  match portToContext s servPort with
  | none => (s, { code := .unknownPort })
  | some (cx, restrict) =>
      let context := contextAt s cx
      if restrict then
        if context.roport ≠ servPort then (s, { code := .readOnly })
        else (setRoport (deadPort s context.roport) cx 0, { code := .success })
      else
        let s' := deadPort (dispose s cx) context.rwport
        (if context.roport ≠ 0 then deadPort s' context.roport else s', { code := .success })

/-! ## The manager -/

/-- A message to the manager with the answers the kernel gives while it is handled.
`portDeath` is the notification that ends in `remove_dead_port`. -/
inductive Call where
  | setString (servPort : Nat) (name value : Name)
  | getString (servPort : Nat) (name : Name)
  | delString (servPort : Nat) (name : Name)
  | setPort (servPort : Nat) (name : Name) (value : Nat)
  | getPort (servPort : Nat) (name : Name)
  | delPort (servPort : Nat) (name : Name)
  | listStrings (servPort : Nat) (names values : Option Nat)
  | listPorts (servPort : Nat) (names : Option Nat)
  | setStlist (servPort : Nat) (retcode : Code) (vars : List (Name × Name))
  | setPtlist (servPort : Nat) (retcode : Code) (vars : List (Name × Nat))
  | copyConn (servPort : Nat) (newEnvPort : Except Nat Nat)
  | newConn (newEnvPort : Except Nat Nat)
  | restrictConn (servPort : Nat) (newEnvPort : Except Nat Nat)
  | disconnect (servPort : Nat)
  | portDeath (port : Nat)

/-- Handle one message. -/
def serve (eager : Bool) (deallocOk : Nat → Bool) (s : State) : Call → State × Reply
  | .setString p name value => envSetString s p name value
  | .getString p name => envGetString s p name
  | .delString p name => envDelString deallocOk s p name
  | .setPort p name value => envSetPort deallocOk s p name value
  | .getPort p name => envGetPort deallocOk s p name
  | .delPort p name => envDelPort deallocOk s p name
  | .listStrings p names values => envListStrings s p names values
  | .listPorts p names => envListPorts deallocOk s p names
  | .setStlist p retcode vars => envSetStlist s p retcode vars
  | .setPtlist p retcode vars => envSetPtlist deallocOk s p retcode vars
  | .copyConn p newEnvPort => envCopyConn eager s p newEnvPort
  | .newConn newEnvPort => envNewConn s newEnvPort
  | .restrictConn p newEnvPort => envRestrictConn s p newEnvPort
  | .disconnect p => envDisconnect s p
  | .portDeath port => (deadPort s port, { code := .success })

/-- A message with the answers of `port_deallocate` while it is handled. -/
structure Message where
  call : Call
  deallocOk : Nat → Bool

/-- The replies to a sequence of messages, and the state after them. -/
def serveAll (eager : Bool) : State → List Message → State × List Reply
  | s, [] => (s, [])
  | s, m :: rest =>
      let result := serve eager m.deallocOk s m.call
      let after := serveAll eager result.1 rest
      (after.1, result.2 :: after.2)

/-- `EnvInitialize` and `initial_conn`: the standard ports are entered in the port table, and
the first context belongs to the known port. -/
def envInit (environmentPort nameServerPort servicePort knownEnvPort : Nat) : State :=
  { contexts := some ⟨0, knownEnvPort, 0⟩ :: List.replicate (maxConn - 1) none
    heads := [some ⟨1, emptyTable⟩]
    ports := [environmentPort, nameServerPort, servicePort].foldl
      (fun ports port => (addPort ports port).elim ports Prod.snd)
      (List.replicate maxPortEnt ⟨0, 0⟩) }

end MachFormal.EnvMgr
