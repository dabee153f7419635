import MachFormal.Library.Output
import Mathlib.Data.BitVec
import Mathlib.Data.List.DropRight

/-!
# The expansion of file specifications

`expand` walks through a specification with `glob`, which takes literal text as it stands,
hands a brace to `execbrc` and a component with another operator to `matchdir`; `amatch`
goes on behind a slash with `glob` again.  They share the buffer of the path and the name
that is being compared.  The system is what the four calls answer, and a name that `addone`
stores is an item of the run.
-/

namespace MachFormal.Libcs.Expand

open Library

abbrev Byte := BitVec 8

/-- A string without its terminator. -/
abbrev Text := List Byte

def MAXPATHLEN : Nat := 1024

def star : Byte := 42
def comma : Byte := 44
def dash : Byte := 45
def dot : Byte := 46
def slash : Byte := 47
def query : Byte := 63
def opening : Byte := 91
def closing : Byte := 93
def brace : Byte := 123
def unbrace : Byte := 125
def tilde : Byte := 126

def globchars : List Byte := [brace, opening, star, query]

/-- An entry of a directory. -/
structure Direct where
  ino : Nat
  name : Text
  deriving DecidableEq

/-- What the system answers: `lstat` succeeds, `stat` finds a directory, the entries that
`opendir` and `readdir` deliver, the home directories. -/
structure Calls where
  lstat : Text → Bool
  isDir : Text → Bool
  opendir : Text → Option (List Direct)
  home : Text
  gethdir : Text → Option Text

/-- `path`, as far as `pathp`, and `entp`. -/
structure State where
  path : Text
  entp : Text
  deriving DecidableEq

/-- `pathp = spathp; *pathp = 0` -/
def State.back (st : State) (spathp : Nat) : State := { st with path := st.path.take spathp }

/-- A run of one of the routines, with the names that it passes to `addone`. -/
abbrev Storing (α : Type) := Run Text α

/-- `addpath`, for each character. -/
def addText : Text → Text → Option Text
  | [], path => some path
  | c :: text, path =>
      if path.length ≥ MAXPATHLEN - 2 then none else addText text (path ++ [c])

/-! ## Classes -/

/-- What the loop in a class of characters finds: it is left behind the closing bracket, the
character is not in the class, or the terminator has been stepped over. -/
inductive Class where
  | passed (p : Text)
  | refused
  | beyond
  deriving DecidableEq

/-- The loop in a class of characters. -/
def inClass (scc : Int) (ok : Bool) (lc : Int) : Text → Class
  | [] => .refused
  | cc :: p =>
      if cc = closing then if ok then .passed p else .refused
      else if cc = dash then
        if lc ≤ scc then
          match p with
          | [] => .beyond
          | high :: p => inClass scc (ok || decide (scc ≤ high.toInt)) lc p
        else inClass scc ok lc p
      else inClass scc (ok || decide (scc = cc.toInt)) cc.toInt p

/-! ## Braces -/

/-- What the search for the end of a brace finds. -/
inductive Group where
  | found (inside after : Text)
  | unbalanced
  | beyond
  deriving DecidableEq

def Group.push (c : Byte) : Group → Group
  | .found inside after => .found (c :: inside) after
  | g => g

/-- The first loop of `execbrc`, with the level and whether it is in a bracket.  Only `pe++`
follows the end of the search for a bracket, so a terminator that it met is stepped over. -/
def findEnd : Nat → Bool → Text → Group
  | _, true, [] => .beyond
  | _, false, [] => .unbalanced
  | brclev, true, c :: pe => (findEnd brclev (c ≠ closing) pe).push c
  | brclev, false, c :: pe =>
      if c = brace then (findEnd (brclev + 1) false pe).push c
      else if c = unbrace then
        if brclev = 0 then .found [] pe else (findEnd (brclev - 1) false pe).push c
      else (findEnd brclev (c = opening) pe).push c

/-- The second loop of `execbrc`, which cuts the text up to and with the closing brace into
the alternatives; `pl` is the alternative so far. -/
def pieces : Nat → Bool → Text → Text → List Text
  | _, _, _, [] => []
  | brclev, true, pl, c :: pm => pieces brclev (c ≠ closing) (pl ++ [c]) pm
  | brclev, false, pl, c :: pm =>
      let d := c &&& 0x7f
      if d = brace then pieces (brclev + 1) false (pl ++ [c]) pm
      else if d = unbrace then
        if brclev = 0 then pl :: pieces brclev false [] pm
        else pieces (brclev - 1) false (pl ++ [c]) pm
      else if d = comma then
        if brclev = 0 then pl :: pieces brclev false [] pm
        else pieces brclev false (pl ++ [c]) pm
      else pieces brclev (d = opening) (pl ++ [c]) pm

/-- The alternatives in turn, each copied to `restbuf`, until one is accepted. -/
def tryEach (act : Text → State → Storing (Bool × State)) :
    List Text → State → Storing (Bool × State)
  | [], st => pure (false, st)
  | restbuf :: more, st =>
      if restbuf.length > MAXPATHLEN then .beyond
      else do
        let (ok, st) ← act restbuf st
        if ok then pure (true, st) else tryEach act more st

/-- `execbrc`, where `act` is what it does with an expanded text.  What stands before the brace
is shorter than a path. -/
def execbrc (act : Text → State → Storing (Bool × State)) (p : Text) (st : State) :
    Storing (Bool × State) :=
  let front := p.takeWhile fun c => c ≠ brace
  match findEnd 0 false (p.drop (front.length + 1)) with
  | .beyond => .beyond
  | .unbalanced => pure (false, st)
  | .found inside after =>
      tryEach act
        ((pieces 0 false [] (inside ++ [unbrace])).map fun piece => front ++ piece ++ after) st

/-! ## Matching -/

section Matching

variable (sys : Calls) (glob : Text → State → Storing State)

/-- From `slash` on: the name becomes part of the path. -/
def slashed (p : Text) (st : State) : Storing State :=
  match addText (st.entp ++ [slash]) st.path with
  | none => pure st
  | some path =>
      if sys.isDir path then
        if p = [] then do
          Run.emit path
          pure st
        else do
          let st' ← glob p { st with path := path }
          pure (st'.back st.path.length)
      else pure st

/-- The loop for a star, over what remains of a name. -/
def eachTail (act : Text → State → Storing (Bool × State)) :
    Text → State → Storing (Bool × State)
  | [], st => pure (false, st)
  | c :: s, st => do
      let (ok, st) ← act (c :: s) st
      if ok then pure (true, st) else eachTail act s st

/-- `amatch`, for a number of steps.  A class can match the terminator of a name, and then the
next character would be behind it. -/
def amatch : Nat → Text → Text → State → Storing (Bool × State)
  | 0, _, _, _ => .unfinished
  | _ + 1, s, [], st => pure (s.headD 0 &&& 0x7f = 0, st)
  | fuel + 1, s, c :: p, st =>
      let scc : Int := (s.headD 0 &&& 0x7f).toNat
      if c = brace then execbrc (amatch fuel s) (c :: p) st
      else if c = opening then
        match inClass scc false 0x7fff p with
        | .beyond => .beyond
        | .refused => pure (false, st)
        | .passed p => if s = [] then .beyond else amatch fuel s.tail p st
      else if c = star then
        if p = [] then pure (true, st)
        else if p.head? = some slash then do
          let st ← slashed sys glob p.tail st
          pure (false, st)
        else eachTail (fun s => amatch fuel s p) s st
      else if c = query then
        if scc = 0 then pure (false, st) else amatch fuel s.tail p st
      else if c = slash then
        if scc ≠ 0 then pure (false, st)
        else do
          let st ← slashed sys glob p st
          pure (false, st)
      else if c.toInt ≠ scc then pure (false, st)
      else amatch fuel s.tail p st

/-- `match` -/
def matchName (s p : Text) (st : State) : Storing (Bool × State) :=
  if s.head? = some dot ∧ p.head? ≠ some dot then pure (false, st)
  else do
    let (c, st') ← amatch sys glob (p.length + 1) s p { st with entp := s }
    pure (c, { st' with entp := st.entp })

/-- The loop of `matchdir`. -/
def readEntries (pattern : Text) : List Direct → State → Storing State
  | [], st => pure st
  | dp :: dirp, st =>
      if dp.ino = 0 then readEntries pattern dirp st
      else do
        let (ok, st) ← matchName sys glob dp.name pattern st
        if ok then Run.emit (st.path ++ dp.name)
        readEntries pattern dirp st

def matchdir (pattern : Text) (st : State) : Storing State :=
  match sys.opendir st.path with
  | none => pure st
  | some dirp => readEntries sys glob pattern dirp st

end Matching

/-! ## The walk -/

/-- Characters of a user's name. -/
def isUser (c : Byte) : Bool :=
  (48 ≤ c.toNat && c.toNat ≤ 57) || (65 ≤ c.toNat && c.toNat ≤ 90) ||
    (97 ≤ c.toNat && c.toNat ≤ 122) || c = 95 || c = dash

/-- The start of `glob`, for a home directory: the text that it takes, what follows it, and the
path then. -/
def homeward (sys : Calls) (as path : Text) : Option (Text × Text × Text) :=
  if as.head? = some tilde ∧ path = [] then
    let user := as.tail.takeWhile isUser
    let cs := as.tail.drop user.length
    match addText (tilde :: user) path with
    | none => none
    | some path =>
        if cs = [] ∨ cs.head? = some slash then
          (if user = [] then some sys.home else sys.gethdir user).map fun home =>
            (tilde :: user, cs, home)
        else some (tilde :: user, cs, path)
  else some ([], as, path)

/-- What `execbrc` does with an expanded text where no name is compared. -/
def expanded (glob : Text → State → Storing State) (restbuf : Text) (st : State) :
    Storing (Bool × State) := do
  let st' ← glob restbuf st
  pure (false, st'.back st.path.length)

/-- `glob`, for a number of levels.  It leaves the path longer than it was when it ends with a
brace; who calls it restores the path. -/
def glob (sys : Calls) : Nat → Text → State → Storing State
  | 0, _, _ => .unfinished
  | fuel + 1, as, st =>
      match homeward sys as st.path with
      | none => pure (st.back st.path.length)
      | some (front, cs, path) =>
          let plain := cs.takeWhile fun c => !globchars.contains c
          match addText plain path with
          | none => pure (st.back st.path.length)
          | some path =>
              match cs.drop plain.length with
              | [] => do
                  if sys.lstat path then Run.emit path
                  pure ({ st with path := path }.back st.path.length)
              | oldc :: rest =>
                  let component := (front ++ plain).rtakeWhile fun c => c ≠ slash
                  let cs := component ++ oldc :: rest
                  let st' := { st with path := path.take (path.length - component.length) }
                  if oldc = brace then do
                    let (_, st') ← execbrc (expanded (glob sys fuel)) cs st'
                    pure st'
                  else if sys.isDir st'.path then do
                    let st' ← matchdir sys (glob sys fuel) cs st'
                    pure (st'.back st.path.length)
                  else pure (st'.back st.path.length)

/-- `expand`: what it returns, and the names in the buffer.  A name that does not fit goes back
to `expand` at once. -/
def expand (sys : Calls) (spec : Text) (bufsize : Nat) : Collected Text :=
  let run := glob sys (spec.length + 1) spec ⟨[], []⟩
  collect bufsize run.ending run.items []

end MachFormal.Libcs.Expand
