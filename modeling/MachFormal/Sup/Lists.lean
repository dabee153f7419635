import MachFormal.Sup.Deletion

/-!
# The lists of files that the server makes

A release is listed by a scan of the disk, as its list file says, or from a scan file
that `supscan` has written.  A list of the new files only does without the old entries: where an
old entry is met, the entries of that name lose `FNEW` in the trees made before.  The
trees of all releases are then merged into one list.

What `readlistfile` makes of a list file is given by its trees, and a name of the list by
the part of the disk that a scan can get to from there.
-/

namespace MachFormal.Sup.Lists

open Library

/-! ## The disk and the list file -/

structure FileStat where
  mode : CInt
  ctime : CInt
  mtime : CInt
deriving DecidableEq

/-- A file as `listentry` finds it: what `lstat` and `stat` say, whether `access` and, for
a directory, `chdir` succeed, and what `readdir` finds in it besides `.` and `..`. -/
inductive File where
  | mk (lstat stat : Option FileStat) (usable : Bool) (contents : List (CString × File))

/-- A list file as it is read, and the files that it names. -/
structure ListFile where
  upgT : SearchTree CString Bool
  flagsT : NodeTree
  omitT : NameTree
  omanyT : NameTree
  execT : NodeTree
  symT : NameTree
  rsymT : NameTree
  file : CString → File
  flagsOnly : ∀ name t, flagsT.search name = some t → t.flags &&& ~~~(FBACKUP ||| FNOACCT) = 0

/-- What the client asks for. -/
structure Request where
  refuseT : NodeTree
  lasttime : CInt
  newonly : Bool

/-- The tree that is being made, the trees made before and the commands not yet used. -/
structure Scan where
  listT : NodeTree
  listTL : List NodeTree
  execT : NodeTree

def isNew (q : Request) (ctime : CInt) : Bool := q.lasttime.toInt < ctime.toInt

/-- `Tflags &= ~FNEW`. -/
def Node.old (t : Node) : Node := { t with flags := t.flags &&& ~~~FNEW }

/-- The entries of this name are hidden. -/
def hide (name : CString) (listTL : List NodeTree) : List NodeTree :=
  listTL.map fun t => t.modify name Node.old

/-! ## The scan of the disk -/

section Doscan

variable (anyglob : CString → CString → Bool) (q : Request) (list : ListFile)

/-- The node that `listname` makes. -/
def listed (name : CString) (st : FileStat) (execT : NodeTree) (t : Node) : Node :=
  let fresh := if isNew q st.ctime then t.flags ||| FNEW else t.flags
  { t with
    mode := st.mode
    ctime := st.ctime
    mtime := st.mtime
    flags := match list.flagsT.search name with
      | some ts => fresh ||| ts.flags
      | none => fresh
    exec := match execT.search name with
      | some ts => ts.exec
      | none => t.exec }

def listname (name : CString) (st : FileStat) (s : Scan) : Scan :=
  if q.newonly && !isNew q st.ctime then { s with listTL := hide name s.listTL }
  else
    match s.listT.search (strip name) with
    | some _ => s
    | none =>
        { s with
          listT := Tadd s.listT name (listed q list name st s.execT)
          execT := s.execT.modify name fun ts => { ts with exec := .empty } }

/-- The name of a directory without the leading `./` and the slashes at its end. -/
def newname (name : CString) : CString where
  data :=
    let p := if name.data.take 2 = [dot, slash] then (name.data.drop 2).dropWhile (· = slash)
      else name.data
    (p.reverse.dropWhile (· = slash)).reverse
  noNul := by
    intro nul
    have inside := List.mem_reverse.mp ((List.dropWhile_suffix _).mem (List.mem_reverse.mp nul))
    split at inside
    · exact name.noNul (List.mem_of_mem_drop ((List.dropWhile_suffix _).mem inside))
    · exact name.noNul inside

/-- A name in a directory. -/
def filename (name ename : CString) : CString where
  data :=
    if (newname name).data = [] ∨ newname name = here then ename.data
    else (newname name).data ++ slash :: ename.data
  noNul := by
    split
    · exact ename.noNul
    · rw [List.mem_append, List.mem_cons]
      rintro (nul | nul | nul)
      · exact (newname name).noNul nul
      · exact absurd nul (by decide)
      · exact ename.noNul nul

def omitted (always : Bool) (fullname : CString) : Bool :=
  !always && ((list.omitT.search fullname).isSome ||
    (names list.omanyT).any fun pattern => anyglob pattern fullname)

/-- The status that counts, and whether it is that of a link which is listed as such. -/
def examine (fullname : CString) : Option FileStat → Option FileStat → Option (FileStat × Bool)
  | none, _ => none
  | some st, target =>
      if fmt st.mode = S_IFLNK then
        if (list.symT.search fullname).isSome || (Tlookup list.rsymT fullname).isSome then
          some (st, true)
        else target.map fun st => (st, false)
      else some (st, false)

mutual

def listentry (fullname : CString) (always : Bool) : File → Scan → Scan
  | .mk lstat stat usable contents, s =>
      if (Tlookup q.refuseT fullname).isSome then s
      else if omitted anyglob list always fullname then s
      else
        match examine list fullname lstat stat with
        | none => s
        | some (st, true) => listname q list fullname st s
        | some (st, false) =>
            if !usable then s
            else if fmt st.mode = S_IFDIR then
              listdir fullname always contents (listname q list fullname st s)
            else listname q list fullname st s

def listdir (name : CString) (always : Bool) : List (CString × File) → Scan → Scan
  | [], s => s
  | (ename, file) :: rest, s =>
      listdir name always rest (listentry (filename name ename) always file s)

end

def listone (s : Scan) (upgrade : CString × Bool) : Scan :=
  listentry anyglob q list upgrade.1 upgrade.2 (list.file upgrade.1) s

def doscan (listTL : List NodeTree) : Scan :=
  list.upgT.toList.foldl (listone anyglob q list) ⟨.empty, listTL, list.execT⟩

end Doscan

/-! ## Scan files -/

/-- A line of a scan file: a file, with `B` and `N` before it or not, or a command. -/
inductive ScanLine where
  | file (backup noacct : Bool) (st : FileStat) (name : CString)
  | exec (command : CString)
deriving DecidableEq

/-- The flags that the letters stand for. -/
def letters (backup noacct : Bool) : CInt :=
  (if backup then FBACKUP else 0) ||| (if noacct then FNOACCT else 0)

/-- What `getscanfile` keeps from line to line; `t` is the node that it filled in last. -/
structure Reading where
  listT : NodeTree
  listTL : List NodeTree
  t : Option CString
  notwanted : Bool

/-- The node that a line gives. -/
def filled (flags : CInt) (st : FileStat) (t : Node) : Node :=
  { t with flags := flags, mode := st.mode, ctime := st.ctime, mtime := st.mtime }

/-- One round of `getscanfile`; it fails where the server gives up. -/
def takeline (q : Request) (s : Reading) : ScanLine → Option Reading
  | .exec command =>
      if s.notwanted then some s
      else
        match s.t with
        | none => none
        | some name =>
            some { s with
              listT := s.listT.modify name fun t => { t with exec := Tinsert t.exec command } }
  | .file backup noacct st name =>
      if !isNew q st.ctime && q.newonly then
        some { s with listTL := hide name s.listTL, notwanted := true }
      else if (Tlookup q.refuseT name).isSome then some { s with notwanted := true }
      else
        let flags := letters backup noacct ||| (if isNew q st.ctime then FNEW else 0)
        some { s with
          listT := Tfind s.listT name (filled flags st)
          t := some (strip name)
          notwanted := false }

/-- `getscanfile`, of a file with these lines and this time. -/
def getscanfile (q : Request) (mtime : CInt) (lines : List ScanLine) (listTL : List NodeTree) :
    Option (NodeTree × List NodeTree) :=
  if q.newonly && mtime = q.lasttime then some (.empty, listTL)
  else (lines.foldlM (takeline q) ⟨.empty, listTL, none, false⟩).map fun s => (s.listT, s.listTL)

/-! ## The releases of a collection -/

/-- An entry of a scan file, with its commands. -/
structure ScanEntry where
  backup : Bool
  noacct : Bool
  st : FileStat
  name : CString
  exec : List CString

/-- A scan file: its time and its entries. -/
structure ScanFile where
  mtime : CInt
  entries : List ScanEntry

/-- The lines of an entry. -/
def ScanEntry.lines (e : ScanEntry) : List ScanLine :=
  .file e.backup e.noacct e.st e.name :: e.exec.map .exec

def ScanFile.lines (f : ScanFile) : List ScanLine := f.entries.flatMap ScanEntry.lines

/-- A release: its list file, and the scan file, if there is one that can be used. -/
structure Release where
  list : ListFile
  scanfile : Option ScanFile

section Getscanlists

variable (anyglob : CString → CString → Bool) (q : Request)

/-- `getscan`: the tree of a release, and what becomes of the trees made before. -/
def getscan (r : Release) (listTL : List NodeTree) : Option (NodeTree × List NodeTree) :=
  match r.scanfile with
  | some f => getscanfile q f.mtime f.lines listTL
  | none =>
      let s := doscan anyglob q r.list listTL
      some (s.listT, s.listTL)

/-- `getrelease`, for a chain of releases: each one is put in front. -/
def getrelease (chain : List Release) : List Release := chain.foldl (fun listTL r => r :: listTL) []

/-- The first loop of `getscanlists`. -/
def getscans (stl : List Release) : Option (List NodeTree) :=
  stl.foldlM (fun listTL r => (getscan anyglob q r listTL).map fun made => made.1 :: made.2) []

def scanone (listT : NodeTree) (entry : CString × Node) : NodeTree :=
  if q.newonly && !has entry.2.flags FNEW then listT
  else Tadd listT entry.1 fun t =>
    { t with mode := entry.2.mode, flags := entry.2.flags, mtime := entry.2.mtime }

/-- The second loop of `getscanlists`. -/
def scanones (listTL : List NodeTree) : NodeTree :=
  listTL.foldl (fun listT t => t.toList.foldl (scanone q) listT) .empty

/-- The list that is sent to the client. -/
def getscanlists (chain : List Release) : Option NodeTree :=
  (getscans anyglob q (getrelease chain)).map (scanones q)

end Getscanlists

end MachFormal.Sup.Lists
