import Mathlib.Data.List.Nodup
import MachFormal.Library.Machine

/-!
# The servers of the mother nanny

The list of servers of `nanny`, with the routines that change it: the loading of a
configuration, the requests of operators, the check of the files that servers depend
on, the collecting of dead children, and `LifeChecks`, which starts servers and frees
entries.  `SrvHead` is a circular list; here it is the list from its head on.

The operating system's side is the table of children that were started.  What it may
choose is part of a step's label: which processes exit and how, what `fork` returns,
which files are there, and when they were changed.
-/

namespace MachFormal.Nanny

open MachFormal.Library

inductive Status where
  | running
  | dead
  | stopped
  | killed
  | aborted
  deriving DecidableEq, Repr

/-- `SHORTSRV`: what the configuration file says of a server. -/
structure Basis where
  name : String
  runfile : List String
  script : List String
  uid : List String
  gid : List String
  attributes : List String
  nice : Int
  deriving DecidableEq, Repr

/-- Why an entry is not to be started again: it was killed by an operator or for a new
configuration, one of its files could not
be checked, its child returned 2, or one of its files was not there.  The source keeps no such
record. -/
inductive Reason where
  | operator
  | dependency
  | exitCode
  | missingFile
  deriving DecidableEq, Repr

/-- `SERVER`.  `serial` tells entries apart and, like `reason`, is not in the source. -/
structure Server where
  serial : Nat
  basis : Basis
  tim : Nat
  status : Status
  pid : Int
  restarts : Int
  resttim : Nat
  valid : Bool
  reason : Option Reason
  deriving DecidableEq, Repr

inductive Life where
  | alive
  | exited (retcode : Nat)
  | reaped
  deriving DecidableEq, Repr

/-- A child, with the entry it was started for and whether `SIGKILL` was sent to it. -/
structure Child where
  pid : Int
  owner : Nat
  name : String
  life : Life
  sentKill : Bool
  deriving DecidableEq, Repr

/-- `children` has the latest first. -/
structure State where
  clock : Nat
  dying : Bool
  servers : List Server
  children : List Child
  nextSerial : Nat
  deriving DecidableEq, Repr

/-- Fifteen minutes between two starts of a server. -/
def RESTARTMAX : Nat := 15 * 60

/-- `fetch_srv`: the first entry of the name. -/
def fetchSrv (name : String) (servers : List Server) : Option Server :=
  servers.find? fun srv => srv.basis.name = name

/-- The entry is written back to its place. -/
def replace (srv : Server) (servers : List Server) : List Server :=
  servers.map fun old => if old.serial = srv.serial then srv else old

/-! ## Signals -/

/-- The process with this number has been sent `SIGKILL`. -/
def sendKill (pid : Int) (children : List Child) : List Child :=
  children.map fun c => if c.pid = pid ∧ c.life ≠ .reaped then { c with sentKill := true } else c

def comKillSrv (newstat : Status) (reason : Option Reason) (srv : Server)
    (children : List Child) : Server × List Child :=
  if srv.valid = false then (srv, children)
  else if srv.status ≠ .running ∧ srv.status ≠ .stopped then
    ({ srv with resttim := 0, status := newstat, reason := reason }, children)
  else if srv.pid < 3 then
    ({ srv with resttim := 0, status := newstat, reason := reason }, children)
  else
    ({ srv with resttim := 0, status := newstat, reason := reason }, sendKill srv.pid children)

/-- `kill_srv`: marked as killed, for a reason. -/
def killSrv (reason : Reason) : Server → List Child → Server × List Child :=
  comKillSrv .killed (some reason)

/-- `restart_srv`: marked as restartable. -/
def restartSrv : Server → List Child → Server × List Child := comKillSrv .dead none

/-- `cont_srv`, where the signal may not be sent. -/
def contSrv (sent : Bool) (srv : Server) : Server :=
  if srv.valid = false then srv
  else if srv.status ≠ .stopped then srv
  else if sent = false then srv
  else { srv with status := .running }

/-- `stop_srv`, where the signal may not be sent. -/
def stopSrv (sent : Bool) (srv : Server) : Server :=
  if srv.valid = false then srv
  else if srv.status ≠ .running then srv
  else if sent = false then srv
  else { srv with status := .stopped }

/-! ## Configurations -/

/-- An entry that `load` makes, with the result of `ProcessNew` in `valid`. -/
def newSrv (serial clock : Nat) (basis : Basis) (valid : Bool) : Server where
  serial := serial
  basis := basis
  tim := clock
  status := .dead
  pid := -1
  restarts := -1
  resttim := 0
  valid := valid
  reason := none

/-- `servercmp`: the two entries differ. -/
def servercmp (srv1 srv2 : Server) : Bool := srv1.basis ≠ srv2.basis || srv1.valid ≠ srv2.valid

/-- The first loop of `Check_cnfg`: entries that no longer exist become invalid. -/
def invalidate (names : List String) (servers : List Server) : List Server :=
  servers.map fun srv =>
    if srv.valid = false then srv else { srv with valid := decide (srv.basis.name ∈ names) }

/-- The second loop of `Check_cnfg` for one entry of the new list. -/
def addServer (st : State) (entry : Basis × Bool) : State :=
  let newsrv := newSrv st.nextSerial st.clock entry.1 entry.2
  let st := { st with nextSerial := st.nextSerial + 1 }
  match fetchSrv entry.1.name st.servers with
  | none => { st with servers := st.servers ++ [newsrv] }
  | some oldsrv =>
      if servercmp newsrv oldsrv then
        let (killed, children) := killSrv .operator oldsrv st.children
        { st with
          servers := replace { killed with valid := false } st.servers ++ [newsrv]
          children := children }
      else st

/-- `Check_cnfg` from the `load` on; nothing is done when the list that was read is empty. -/
def checkCnfg (newList : List (Basis × Bool)) (st : State) : State :=
  if newList = [] then st
  else
    newList.foldl addServer
      { st with servers := invalidate (newList.map fun entry => entry.1.name) st.servers }

/-! ## Files and deaths -/

/-- The loop of `ck_depend` over the files of a server: the latest time of change, and whether
all could be checked. -/
def latestChange (lastMod : String → Option Nat) : List String → Nat → Nat × Bool
  | [], tim => (tim, true)
  | file :: rest, tim =>
      match lastMod file with
      | none => (tim, false)
      | some mod => latestChange lastMod rest (max tim mod)

/-- `ck_depend` for one server: the entry, the children, and whether the loop goes on. -/
def ckDependOne (lastMod : String → Option Nat) (srv : Server) (children : List Child) :
    Server × List Child × Bool :=
  if srv.status = .running ∧ srv.valid then
    let (tim, checked) := latestChange lastMod srv.basis.runfile 0
    let (srv, children) := if checked then (srv, children) else killSrv .dependency srv children
    if srv.tim < tim then
      let (srv, children) := restartSrv { srv with tim := tim } children
      (srv, children, false)
    else (srv, children, true)
  else (srv, children, true)

def ckDepend (lastMod : String → Option Nat) :
    List Server → List Child → List Server × List Child
  | [], children => ([], children)
  | srv :: rest, children =>
      match ckDependOne lastMod srv children with
      | (srv, children, true) =>
          let (rest, children) := ckDepend lastMod rest children
          (srv :: rest, children)
      | (srv, children, false) => (srv :: rest, children)

/-- What `CheckDeaths` does with the entry whose child is dead. -/
def noteDeath (retcode : Nat) (srv : Server) : Server :=
  let srv := { srv with pid := -1 }
  let srv := if srv.status = .running ∨ srv.status = .stopped then { srv with status := .dead }
    else srv
  if retcode = 2 then { srv with status := .aborted, reason := some .exitCode } else srv

/-- The first entry with the number of the dead child is found. -/
def findDeath (pid : Int) (retcode : Nat) (servers : List Server) : List Server :=
  match servers.find? fun srv => srv.pid = pid with
  | none => servers
  | some srv => replace (noteDeath retcode srv) servers

/-- One turn of the loop of `CheckDeaths`: `wait3` returns an exited child. -/
def reap (pid : Int) (st : State) : Option State :=
  match st.children.find? fun c => c.pid = pid ∧ c.life ≠ .reaped with
  | none => none
  | some c =>
      match c.life with
      | .exited retcode => some { st with
          servers := findDeath pid retcode st.servers
          children := st.children.map fun c =>
            if c.pid = pid ∧ c.life ≠ .reaped then { c with life := .reaped } else c }
      | _ => none

/-- `CheckDeaths`, with the numbers in the order in which `wait3` returns them. -/
def checkDeaths : List Int → State → Option State
  | [], st => some st
  | pid :: rest, st => (reap pid st).bind (checkDeaths rest)

/-! ## Starting and freeing -/

/-- What the system answers during `LifeChecks`: which files are there, and what `fork` returns
for each entry. -/
structure Answers where
  there : String → Bool
  fork : Nat → Option Int

/-- `RunServer`.  The number of a new process is not that of one that still exists, and the
first three belong to the system. -/
def runServer (answers : Answers) (clock : Nat) (srv : Server) (children : List Child) :
    Option (Server × List Child) :=
  if srv.status ≠ .dead ∨ srv.valid = false then some (srv, children)
  else if clock < srv.resttim + RESTARTMAX then some (srv, children)
  else
    let srv := { srv with resttim := clock }
    if srv.basis.runfile.all answers.there = false then
      some ({ srv with status := .aborted, reason := some .missingFile }, children)
    else
      match answers.fork srv.serial with
      | none => some ({ srv with
          pid := -1, tim := clock, status := .running, restarts := srv.restarts + 1 }, children)
      | some pid =>
          if 3 ≤ pid ∧ ∀ c ∈ children, c.pid = pid → c.life = .reaped then
            some ({ srv with
              pid := pid, tim := clock, status := .running, restarts := srv.restarts + 1 },
              ⟨pid, srv.serial, srv.basis.name, .alive, false⟩ :: children)
          else none

/-- The loop of `LifeChecks`.  An entry that is freed does not come back. -/
def lifeLoop (answers : Answers) (clock : Nat) :
    List Server → List Child → Option (List Server × List Child)
  | [], children => some ([], children)
  | srv :: rest, children =>
      if srv.valid then
        if srv.pid ≤ 0 then
          (runServer answers clock srv children).bind fun (srv, children) =>
            (lifeLoop answers clock rest children).map fun (rest, children) =>
              (srv :: rest, children)
        else
          (lifeLoop answers clock rest children).map fun (rest, children) => (srv :: rest, children)
      else if srv.status = .running ∨ srv.status = .stopped then
        let (srv, children) := killSrv .operator srv children
        (lifeLoop answers clock rest children).map fun (rest, children) => (srv :: rest, children)
      else lifeLoop answers clock rest children

def lifeChecks (answers : Answers) (st : State) : Option State :=
  if st.dying then some st
  else (lifeLoop answers st.clock st.servers st.children).map fun (servers, children) =>
    { st with servers := servers, children := children }

/-! ## Requests and steps -/

/-- An operator's request for the server of a name; the signal of the last two may fail. -/
inductive Request where
  | kill
  | restart
  | stop (sent : Bool)
  | cont (sent : Bool)
  deriving DecidableEq, Repr

def Request.apply (request : Request) (srv : Server) (children : List Child) :
    Server × List Child :=
  match request with
  | .kill => killSrv .operator srv children
  | .restart => restartSrv srv children
  | .stop sent => (stopSrv sent srv, children)
  | .cont sent => (contSrv sent srv, children)

/-- `rcv_req` for a request about one server. -/
def rcvReq (request : Request) (name : String) (st : State) : State :=
  match fetchSrv name st.servers with
  | none => st
  | some srv =>
      let (srv, children) := request.apply srv st.children
      { st with servers := replace srv st.servers, children := children }

/-- The loop of the request to die. -/
def killAll : List Server → List Child → List Server × List Child
  | [], children => ([], children)
  | srv :: rest, children =>
      let (srv, children) := if srv.valid then killSrv .operator srv children else (srv, children)
      let (rest, children) := killAll rest children
      (srv :: rest, children)

inductive Label where
  | pass (seconds : Nat)
  | exits (pid : Int) (retcode : Nat)
  | request (request : Request) (name : String)
  | die
  | checkCnfg (newList : List (Basis × Bool))
  | ckDepend (lastMod : String → Option Nat)
  | checkDeaths (pids : List Int)
  | lifeChecks (answers : Answers)

def step (st : State) : Label → Option State
  | .pass seconds => some { st with clock := st.clock + seconds }
  | .exits pid retcode =>
      some { st with
        children := st.children.map fun c =>
          if c.pid = pid ∧ c.life = .alive then { c with life := .exited retcode } else c }
  | .request request name => some (rcvReq request name st)
  | .die =>
      let (servers, children) := killAll st.servers st.children
      some { st with dying := true, servers := servers, children := children }
  | .checkCnfg newList => some (checkCnfg newList st)
  | .ckDepend lastMod =>
      let (servers, children) := ckDepend lastMod st.servers st.children
      some { st with servers := servers, children := children }
  | .checkDeaths pids => checkDeaths pids st
  | .lifeChecks answers => lifeChecks answers st

/-- Before the first configuration is loaded. -/
def start (clock : Nat) : State := ⟨clock, false, [], [], 0⟩

/-- The mother nanny as a machine. -/
def machine : Machine State Label where
  init st := ∃ clock, st = start clock
  step := step

end MachFormal.Nanny
