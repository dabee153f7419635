import MachFormal.Sup.Deletion

/-!
# What the file server answers and sends

For every name that the client needs, `denyone` looks through the trees of the
releases, one after the other, and either denies the name, marks the entry it finds, or
folds the name into the links of an entry that was marked before and is the same
inode.  `sendfiles` then visits the trees twice: the files forwards, and the
directories backwards.

The files of the server stay as they are in the meantime; a release has its own prefix,
so they are looked up by release and name.
-/

namespace MachFormal.Sup

open Library

/-- What `denyone` reads of a file. -/
structure Inode where
  mode : CInt
  nlink : CInt
  dev : CInt
  ino : CInt
  uid : CInt
  gid : CInt

/-- The files, by release and name.  `readlink` gives the text of a link that is not empty. -/
structure ServerFiles where
  stat : Nat → CString → Option Inode
  lstat : Nat → CString → Option Inode
  readlink : Nat → CString → Option CString

/-- A pointer to a node: the release and the name. -/
abbrev Pointer := Nat × CString

/-! ## The hash table of inodes -/

def HASHMASK : CInt := 255

structure Hash where
  num1 : CInt
  num2 : CInt
  tree : Pointer

abbrev HashTable := CInt → List Hash

def hashfunc (num1 _num2 : CInt) : CInt := num1 &&& HASHMASK

def Hlookup (table : HashTable) (num1 num2 : CInt) : Option Hash :=
  (table (hashfunc num1 num2)).find? fun h => h.num1 = num1 && h.num2 = num2

def Hinsert (table : HashTable) (num1 num2 : CInt) (tree : Pointer) : HashTable :=
  Function.update table (hashfunc num1 num2)
    (⟨num1, num2, tree⟩ :: table (hashfunc num1 num2))

/-! ## The trees of the releases -/

/-- A node of a release. -/
def nodeAt (trees : List NodeTree) (i : Nat) (name : CString) : Option Node :=
  trees[i]?.bind fun t => t.search name

/-- A node is changed in place. -/
def setNode (trees : List NodeTree) (p : Pointer) (f : Node → Node) : List NodeTree :=
  trees.modify p.1 fun t => t.modify p.2 f

/-- The first release that has the name. -/
def searchTrees : List NodeTree → CString → Option (Nat × Node)
  | [], _ => none
  | t :: rest, name =>
      match t.search name with
      | some node => some (0, node)
      | none => (searchTrees rest name).map fun found => (found.1 + 1, found.2)

structure Answers where
  trees : List NodeTree
  denyT : NodeTree
  inodeH : HashTable

/-! ## `listfiles` -/

section Server

variable (fs : ServerFiles)

def Answers.deny (s : Answers) (name : CString) : Answers :=
  { s with denyT := Tinsert s.denyT name }

/-- The entry is to be sent. -/
def Node.need (st : Inode) (update : Bool) (t : Node) : Node :=
  { t with
    flags := (if update then t.flags ||| FUPDATE else t.flags) ||| FNEEDED
    uid := st.uid
    gid := st.gid }

/-- A link is to be sent, with its text. -/
def Node.needLink (text : CString) (t : Node) : Node :=
  { t with flags := t.flags ||| FNEEDED, link := Tinsert t.link text }

/-- What `stat` or `lstat` finds of an entry, if its type is still the same. -/
def sameType (i : Nat) (name : CString) (t : Node) : Option Inode :=
  (if fmt t.mode = S_IFLNK then fs.lstat i name else fs.stat i name).filter
    fun st => fmt st.mode = fmt t.mode

/-- `denyone` of the server. -/
def denyone (s : Answers) (request : CString × Node) : Answers :=
  match request with
  | (name, need) =>
      match searchTrees s.trees name with
      | none => s.deny name
      | some (i, t) =>
          match sameType fs i name t with
          | none => s.deny name
          | some st =>
              if fmt t.mode = S_IFLNK then
                match fs.readlink i name with
                | none => s.deny name
                | some text => { s with trees := setNode s.trees (i, name) (Node.needLink text) }
              else if fmt t.mode = S_IFREG then
                if 1 < st.nlink.toInt then
                  match Hlookup s.inodeH st.ino st.dev with
                  | some h =>
                      { s with
                        trees := setNode s.trees h.tree fun t =>
                          { t with link := Tinsert t.link name } }
                  | none =>
                      { s with
                        trees := setNode s.trees (i, name) (Node.need st (has need.flags FUPDATE))
                        inodeH := Hinsert s.inodeH st.ino st.dev (i, name) }
                else
                  { s with trees := setNode s.trees (i, name) (Node.need st (has need.flags FUPDATE)) }
              else if fmt t.mode = S_IFDIR then
                { s with trees := setNode s.trees (i, name) (Node.need st false) }
              else s.deny name

/-- The part of `listfiles` between the needs of the client and the denials. -/
def listfilesServer (trees : List NodeTree) (needT : NodeTree) : Answers :=
  needT.toList.foldl (denyone fs) ⟨trees, .empty, fun _ => []⟩

end Server

/-! ## `sendfiles` -/

/-- The entries of the releases, each with its release. -/
def entriesFrom : Nat → List NodeTree → List (List (Nat × CString × Node))
  | _, [] => []
  | i, t :: rest => (t.toList.map fun e => (i, e.1, e.2)) :: entriesFrom (i + 1) rest

/-- What is sent, in turn: the files that are needed, release by release, and then the
directories of each release in reverse. -/
def sendturns (trees : List NodeTree) : List (Nat × CString × Node) :=
  let needed := (entriesFrom 0 trees).map (List.filter fun e => has e.2.2.flags FNEEDED)
  (needed.map (List.filter fun e => fmt e.2.2.mode ≠ S_IFDIR)).flatten ++
    (needed.map fun l => (l.filter fun e => fmt e.2.2.mode = S_IFDIR).reverse).flatten

end MachFormal.Sup
