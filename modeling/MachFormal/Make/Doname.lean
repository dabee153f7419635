import Mathlib.Logic.Function.Basic
import Mathlib.Logic.Relation

/-!
# The basic procedure of make

`doname` brings a target up to date: it does the dependencies of every rule line
first, runs the commands of a double-colon line as soon as its own dependencies are
done, and decides about the commands of a single-colon target at the end.  The model
is for explicit rules under `-k`, without suffix rules, `.DEFAULT`, search paths, RCS
files and object directories, so that `exists` is the modification time of a file.

Commands may do anything to the file system: the system is a parameter.  Each target
has an account of what was done for it, with the latest act first; the source keeps no
such account.
-/

namespace MachFormal.Make

/-- `septype`: no rule, one colon, or two. -/
inductive Septype where
  | none
  | allDeps
  | someDeps
  deriving DecidableEq, Repr

/-- A rule line: what the target depends on, and its commands. -/
structure Line (ν κ : Type) where
  deps : List ν
  shp : List κ

/-- The rules that were read.  Everything that is named is in `names`. -/
structure Makefile (ν κ : Type) where
  names : List ν
  septype : ν → Septype
  lines : ν → List (Line ν κ)
  closed : ∀ p ∈ names, ∀ line ∈ lines p, ∀ q ∈ line.deps, q ∈ names

/-- The variables that a command may use: `$@`, `$>` and `$?`. -/
structure Variables (ν : Type) where
  target : ν
  all : List ν
  newer : List ν

/-- The file system and the commands.  `docom1` says whether a command failed; `ignored` that
its failure is ignored, by a `-` in front of the text with its variables substituted, and
`blank` that its text is empty. -/
structure System (ν κ σ : Type) where
  mtime : ν → σ → Nat
  prestime : σ → Nat
  docom1 : Variables ν → κ → σ → Bool × σ
  ignored : Variables ν → κ → Bool
  blank : κ → Bool

/-- `p->done`, from 0 to 3. -/
inductive Done where
  | unknown
  | inProcess
  | current
  | failed
  deriving DecidableEq, Repr

/-- What is done for a target: its time is looked up, a dependency on a line has been done and
`doname` returned a time and a number of errors for it, the commands of a line were run, a line
was decided when its dependencies were marked in a certain way, or nobody knew how to make it. -/
inductive Act (ν : Type) where
  | entered (ptime : Nat)
  | processed (line : Nat) (q : ν) (time errstat : Nat)
  | ran (line : Nat) (failed : Bool)
  | decided (line : Nat) (marks : List (ν × Done))
  | gaveUp
  deriving DecidableEq, Repr

structure State (ν σ : Type) where
  done : ν → Done
  modtime : ν → Nat
  world : σ
  acts : ν → List (Act ν)

variable {ν κ σ : Type} [DecidableEq ν]

def State.note (st : State ν σ) (p : ν) (act : Act ν) : State ν σ :=
  { st with acts := Function.update st.acts p (act :: st.acts p) }

/-- What `doname` returns: the number of errors, and the time. -/
abbrev Answer (ν σ : Type) := Nat × Nat × State ν σ

/-- The variables of `doname` that go from line to line. -/
structure Progress (ν κ : Type) where
  errstat : Nat
  tdep : Nat
  explcom : Option (Nat × List κ)
  achain : List ν
  qchain : List ν
  ptime1 : Nat

variable (M : Makefile ν κ) (S : System ν κ σ)

/-- `docom`: the commands in order, until one fails whose failure is not ignored. -/
def docom (vars : Variables ν) : List κ → σ → Bool × σ
  | [], world => (false, world)
  | q :: rest, world =>
      match S.docom1 vars q world with
      | (failed, world) =>
          if failed && !S.ignored vars q then (true, world) else docom vars rest world

/-- `cmds`: one of the commands is not empty. -/
def cmds (shp : List κ) : Bool := shp.any fun q => !S.blank q

/-- The dependencies of one line; `td` is the latest time so far. -/
def doDeps (recur : ν → State ν σ → Option (Answer ν σ)) (p : ν) (i ptime : Nat) :
    List ν → Nat → Progress ν κ → State ν σ → Option (Nat × Progress ν κ × State ν σ)
  | [], td, pr, st => some (td, pr, st)
  | q :: rest, td, pr, st =>
      (recur q st).bind fun (e, td1, st) =>
        doDeps recur p i ptime rest (max td td1)
          { pr with
            errstat := pr.errstat + e
            achain := pr.achain ++ [q]
            qchain := if ptime < td1 then pr.qchain ++ [q] else pr.qchain }
          (st.note p (.processed i q td1 e))

/-- One line, after its dependencies. -/
def decideLine (p : ν) (i ptime : Nat) (line : Line ν κ) (td : Nat) (pr : Progress ν κ)
    (st : State ν σ) : Progress ν κ × State ν σ :=
  if M.septype p ≠ .someDeps then
    ({ pr with
      explcom := if line.shp.isEmpty then pr.explcom else pr.explcom.or (some (i, line.shp))
      tdep := max pr.tdep td }, st)
  else if line.shp.isEmpty = false ∧
      (ptime < td ∨ (ptime = 0 ∧ td = 0) ∨ line.deps.isEmpty) then
    match docom S ⟨p, pr.achain, pr.qchain⟩ line.shp st.world with
    | (failed, world) =>
        ({ pr with
          errstat := pr.errstat + failed.toNat
          achain := []
          qchain := []
          ptime1 := S.prestime world }, { st with world := world }.note p (.ran i failed))
  else (pr, st)

/-- The lines of a target from line `i` on. -/
def doLines (recur : ν → State ν σ → Option (Answer ν σ)) (p : ν) (ptime : Nat) :
    List (Line ν κ) → Nat → Progress ν κ → State ν σ → Option (Progress ν κ × State ν σ)
  | [], _, pr, st => some (pr, st)
  | line :: rest, i, pr, st =>
      (doDeps recur p i ptime line.deps 0 pr st).bind fun (td, pr, st) =>
        let marks := line.deps.map fun q => (q, st.done q)
        let (pr, st) := decideLine M S p i ptime line td pr st
        doLines recur p ptime rest (i + 1) pr (st.note p (.decided i marks))

/-- The decision about the target: errors, time and state. -/
def decideTarget (p : ν) (ptime : Nat) (pr : Progress ν κ) (st : State ν σ) : Answer ν σ :=
  if pr.errstat = 0 ∧ (ptime < pr.tdep ∨ (ptime = 0 ∧ pr.tdep = 0)) then
    let ptime := if 0 < pr.tdep then pr.tdep else S.prestime st.world
    match pr.explcom with
    | some (i, shp) =>
        match docom S ⟨p, pr.achain, pr.qchain⟩ shp st.world with
        | (failed, world) =>
            let ptime :=
              if cmds S shp then
                if S.mtime p world = 0 then S.prestime world else S.mtime p world
              else ptime
            (failed.toNat, ptime, { st with world := world }.note p (.ran i failed))
    | none =>
        if M.septype p = .none then (1, ptime, st.note p .gaveUp) else (0, ptime, st)
  else (pr.errstat, ptime, st)

def settle (p : ν) (pr : Progress ν κ) : Answer ν σ → Answer ν σ
  | (errstat, ptime, st) =>
      (errstat, max ptime pr.ptime1,
        { st with
          done := Function.update st.done p (if errstat = 0 then .current else .failed)
          modtime := Function.update st.modtime p (max ptime pr.ptime1) })

/-- A target is entered: its time is looked up, and it is marked against loops. -/
def State.enter (st : State ν σ) (p : ν) (ptime : Nat) : State ν σ :=
  { st with done := Function.update st.done p .inProcess }.note p (.entered ptime)

/-- `doname`, with a bound on the depth of the recursion. -/
def doname : Nat → ν → State ν σ → Option (Answer ν σ)
  | 0, _, _ => none
  | fuel + 1, p, st =>
      match st.done p with
      | .unknown =>
          let ptime := S.mtime p st.world
          (doLines M S (doname fuel) p ptime (M.lines p) 0 ⟨0, 0, none, [], [], 0⟩
            (st.enter p ptime)).map fun (pr, st) =>
              settle p pr (decideTarget M S p ptime pr st)
      | .inProcess | .current => some (0, st.modtime p, st)
      | .failed => some (1, st.modtime p, st)

/-- The loop of `main` over the targets that were asked for. -/
def doGoals (fuel : Nat) : List ν → State ν σ → Option (List Nat × State ν σ)
  | [], st => some ([], st)
  | p :: rest, st =>
      (doname M S fuel p st).bind fun (e, _, st) =>
        (doGoals fuel rest st).map fun (es, st) => (e :: es, st)

/-- Before anything is done. -/
def start (world : σ) : State ν σ := ⟨fun _ => .unknown, fun _ => 0, world, fun _ => []⟩

end MachFormal.Make
