import MachFormal.Sup.Messages

/-!
# What the client deletes

The client keeps in `last` the names of its last upgrade.  It merges the server's list
into that tree, marks there what is still in the collection, and visits the tree in
reverse order: what is not marked is stale and is deleted, if the flags say so.  What
could not be deleted is marked after all, and the marked names are written to the next
`last`.

The local file system is a parameter.  `namei` refuses names of `MAXPATHLEN` bytes or
more, and finds `.` and `/` to be directories.
-/

namespace MachFormal.Sup

open Library

/-- The flags of a collection. -/
structure CFlags where
  all : Bool
  delete : Bool
  old : Bool
  list : Bool

def here : CString := ⟨[dot], by decide⟩

def root : CString := ⟨[slash], by decide⟩

/-- The calls that `listfiles` makes.  `unlink` says whether it succeeded. -/
structure LocalFiles (σ : Type) where
  lstat : CString → σ → Option Stat
  stat : CString → σ → Option Stat
  unlink : CString → σ → Bool × σ
  rmdir : CString → σ → σ
  tooLong : ∀ name world, MAXPATHLEN ≤ name.data.length → lstat name world = none
  directory : ∀ name world, name = here ∨ name = root →
    ∃ st, lstat name world = some st ∧ fmt st.mode = S_IFDIR

/-- How the conversation goes: whether the messages to the server were sent, and what came
in the messages from it, if they did. -/
structure Conversation where
  refuseSent : Bool
  list : Option NodeTree
  needSent : Bool
  deny : Option NodeTree

/-- What is done to a name. -/
inductive Removal where
  | unlink (done : Bool)
  | rmdir (done : Bool)
  deriving DecidableEq

/-- The removal was tried and failed. -/
def Removal.failed : Removal → Bool
  | .unlink done => !done
  | .rmdir done => !done

/-- A line that is no name: a comment, or nothing. -/
def comment (line : CString) : Bool :=
  match line.data with
  | [] => true
  | c :: _ => c = 35 || c = 59 || c = 58

/-- The names of a file; the lines are what `fgets` returns. -/
def readlines (lines : List CString) : NodeTree :=
  (lines.filter fun line => !comment line).foldl Tinsert .empty

section Client

variable {σ : Type} (fs : LocalFiles σ) (c : CFlags)

/-- The trees that `needone` fills. -/
structure Needs where
  lastT : NodeTree
  needT : NodeTree

def Node.mark (t : Node) : Node := { t with flags := t.flags ||| FUPDATE }

/-- The file is there, of the same type and, if it is regular, of the same time. -/
def upToDateHere (name : CString) (t : Node) (world : σ) : Bool :=
  match if fmt t.mode = S_IFLNK then fs.lstat name world else fs.stat name world with
  | none => false
  | some st => fmt st.mode = fmt t.mode && (fmt t.mode ≠ S_IFREG || st.mtime = t.mtime)

def needone (world : σ) (n : Needs) (entry : CString × Node) : Needs :=
  match entry with
  | (name, t) =>
      let lastT := Tfind n.lastT name Node.mark
      let update := !c.all && upToDateHere fs name t world
      if !c.all && !has t.flags FNEW && !c.old then { n with lastT }
      else if !c.all && !has t.flags FNEW && update then { n with lastT }
      else
        let mark (u : Node) : Node := if update && fmt t.mode = S_IFREG then u.mark else u
        { lastT, needT := Tfind n.needT name mark }

/-- The tree, the files and what has been done to each name visited, in order. -/
structure Deletion (σ : Type) where
  lastT : NodeTree
  world : σ
  trace : List (CString × Option Removal)

/-- `deleteone`.  The branches for links, directories and files differ in the call. -/
def deleteone (refuseT : NodeTree) (name : CString) (t : Node) (world : σ) :
    Node × Option Removal × σ :=
  if has t.flags FUPDATE then (t, none, world)
  else
    match fs.lstat name world with
    | none => (t, none, world)
    | some st =>
        if (Tlookup refuseT name).isSome then (t, none, world)
        else if c.list then (t, none, world)
        else if !c.delete then (t.mark, none, world)
        else if fmt st.mode = S_IFDIR then
          let world := fs.rmdir name world
          if (fs.lstat name world).isSome then (t.mark, some (.rmdir false), world)
          else (t, some (.rmdir true), world)
        else
          match fs.unlink name world with
          | (false, world) => (t.mark, some (.unlink false), world)
          | (true, world) => (t, some (.unlink true), world)

/-- `Trprocess (lastT, deleteone)`. -/
def deletenames (refuseT : NodeTree) : List (CString × Node) → Deletion σ → Deletion σ
  | [], d => d
  | (name, t) :: rest, d =>
      match deleteone fs c refuseT name t d.world with
      | (t, removal, world) =>
          deletenames refuseT rest
            ⟨d.lastT.modify name fun _ => t, world, d.trace ++ [(name, removal)]⟩

/-- `listfiles` of the client.  When a message fails the program gives up. -/
def listfilesClient (last refuse : List CString) (conv : Conversation) (world : σ) : Deletion σ :=
  let lastT := readlines last
  let refuseT := readlines refuse
  if !conv.refuseSent then ⟨lastT, world, []⟩
  else
    match conv.list with
    | none => ⟨lastT, world, []⟩
    | some listT =>
        let needs := listT.toList.foldl (needone fs c world) ⟨lastT, .empty⟩
        if !conv.needSent then ⟨needs.lastT, world, []⟩
        else if conv.deny.isNone then ⟨needs.lastT, world, []⟩
        else if c.all || c.delete || c.old then
          deletenames fs c refuseT needs.lastT.toList.reverse ⟨needs.lastT, world, []⟩
        else ⟨needs.lastT, world, []⟩

/-- How the end of an upgrade goes, up to the new `last`. -/
structure Ending where
  scmok : Bool
  nogood : Bool
  directoryMade : Bool
  timeRecorded : Bool
  opened : Bool
  renamed : Bool

def finishone (t : Node) : Bool := !c.delete || has t.flags FUPDATE

/-- `finishup`: the lines of the new `last`, if one is written. -/
def finishupClient (e : Ending) (lastT : NodeTree) : Option (List CString) :=
  if !e.scmok then none
  else if e.nogood then none
  else if c.list then none
  else if !e.directoryMade then none
  else if !e.timeRecorded then none
  else if !e.opened then none
  else if !e.renamed then none
  else some ((lastT.toList.filter fun entry => finishone c entry.2).map Prod.fst)

end Client

end MachFormal.Sup
