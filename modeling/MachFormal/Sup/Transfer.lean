import MachFormal.Sup.Scmio

/-!
# Sending and receiving the files of an upgrade

The client asks for one entry at a time; the server answers each request with a
message that describes the entry and, for some entries, carries the file. Whether a
file block follows is decided once on the server, from the mode, the flags and
`listonly`. On the client the decision is spread over the routines that store the
entry, each of which has to take the block off the connection also when it cannot
store it.

The client's file system is a parameter: a type of states and arbitrary operations on
it, so that whatever can fail may fail. The resource-pausing code, which is compiled
for `CMUCS` only, is left out.
-/

namespace MachFormal.Sup

open Library.Wire

/-! ## Modes, flags and entries -/

def S_IFMT : CInt := 0o170000
def S_IFDIR : CInt := 0o040000
def S_IFLNK : CInt := 0o120000
def S_IFREG : CInt := 0o100000
def S_ISUID : CInt := 0o4000
def S_ISGID : CInt := 0o2000
def S_IMODE : CInt := 0o7777

def FNEW : CInt := 0o1
def FBACKUP : CInt := 0o2
def FNOACCT : CInt := 0o4
def FUPDATE : CInt := 0o10
def FNEEDED : CInt := 0o100000

def MSGSEND : CInt := 113
def MSGRECV : CInt := 114

/-- Size of the buffers in which names and commands are built. -/
def STRINGLENGTH : Nat := 2000

/-- The type bits of a mode. -/
def fmt (mode : CInt) : CInt := mode &&& S_IFMT

def has (flags flag : CInt) : Bool := flags &&& flag ≠ 0

/-- What the messages carry of a `TREE` node; `link` and `exec` in the order in which
`Tprocess` visits them. -/
structure Tree where
  name : CString
  mode : CInt
  flags : CInt
  user : Option CString
  group : Option CString
  mtime : CInt
  link : List CString
  exec : List CString

/-- A node of the server's list that the client needs. `denyone` lets through the three
types only, and names, owners and commands all come out of buffers of `STRINGLENGTH`
bytes. `source` is what `open` makes of the name. -/
structure Entry where
  name : CString
  mode : CInt
  flags : CInt
  mtime : CInt
  link : List CString
  exec : List CString
  owner : CString
  ownerGroup : CString
  source : Option OpenFile
  typed : fmt mode = S_IFREG ∨ fmt mode = S_IFDIR ∨ fmt mode = S_IFLNK
  short : ∀ p ∈ name :: owner :: ownerGroup :: (link ++ exec), p.data.length < STRINGLENGTH

/-! ## The server -/

section Server

variable (e : Endpoint) (listonly : Bool)

/-- `Tprocess (tree, writeone)`. -/
def writeones : List CString → Send Unit
  | [] => pure ()
  | p :: rest => do
      writestring e (some p)
      writeones rest

def sendfile (t : Tree) (fd : Option OpenFile) : Send Unit :=
  if fmt t.mode ≠ S_IFREG ∨ listonly ∨ has t.flags FUPDATE then
    pure ()
  else
    match fd with
    | none => throw (.goaway "Error sending file to client")
    | some f => writefile e f

/-- `msgrecv` on the server. -/
def msgrecvServer : Option (Tree × Option OpenFile) → Send Unit
  | none => do
      writemsg e MSGRECV
      writestring e none
      writemend e
  | some (t, fd) => do
      writemsg e MSGRECV
      writestring e (some t.name)
      writeint e t.mode
      if t.mode = 0 then
        writemend e
      else do
        writeint e t.flags
        writestring e t.user
        writestring e t.group
        writeint e t.mtime
        writeones e t.link
        writestring e none
        writeones e t.exec
        writestring e none
        sendfile e listonly t fd
        writemend e

/-- The node as it stands before its owner is filled in. -/
def Entry.tree (t : Entry) : Tree := ⟨t.name, t.mode, t.flags, none, none, t.mtime, t.link, t.exec⟩

/-- The node with the names of its owner. -/
def Entry.owned (t : Entry) : Tree := { t.tree with user := some t.owner, group := some t.ownerGroup }

/-- `sendone`, from the point where the client's request has been read. -/
def sendone (t : Entry) : Send Unit :=
  if fmt t.mode = S_IFREG then
    if !listonly && !has t.flags FUPDATE then
      match t.source with
      | none => msgrecvServer e listonly (some ({ t.tree with mode := 0 }, none))
      | some f => msgrecvServer e listonly (some (t.owned, some f))
    else
      msgrecvServer e listonly (some (t.owned, none))
  else
    msgrecvServer e listonly (some (t.tree, none))

/-- `senddir`, from the same point. -/
def senddir (t : Entry) : Send Unit := msgrecvServer e listonly (some (t.owned, none))

/-- The turns of `sendfiles`: what is needed and no directory, then the directories in
reverse, then the end of the list. -/
def sendfiles (lists : List (List Entry)) : List (Option Entry) :=
  let needed := lists.map (List.filter fun t => has t.flags FNEEDED)
  let files := needed.map (List.filter fun t => fmt t.mode ≠ S_IFDIR)
  let directories := needed.map fun list => (list.filter fun t => fmt t.mode = S_IFDIR).reverse
  (files.flatten ++ directories.flatten).map some ++ [none]

/-- One turn of the server, its request read first. -/
def serve : Option Entry → Send Unit
  | none => msgrecvServer e listonly none
  | some t => if fmt t.mode = S_IFDIR then senddir e listonly t else sendone e listonly t

end Server

/-! ## The client's file system -/

abbrev Name := List Byte

/-- What `stat` and `lstat` return of a file. -/
structure Stat where
  mode : CInt
  mtime : CInt
  uid : CInt
  gid : CInt
  dev : CInt
  ino : CInt
  deriving Inhabited

/-- Where `copyfile` tries to put the data. -/
inductive Place where
  | destination
  | sup
  | base
  | usrTmp
  | tmp
  | target
  deriving DecidableEq

/-- The operations of the client's machine on its state; a `Bool` result is `true` when
the call succeeds. -/
structure FileSystem (σ : Type) where
  stat : Name → σ → Option Stat
  lstat : Name → σ → Option Stat
  mkdir : Name → σ → σ
  rmdir : Name → σ → Bool × σ
  /-- `runp ("rm","rm","-rf",name,0)` -/
  removeTree : Name → σ → σ
  unlink : Name → σ → σ
  readlink : Name → σ → Option Name
  link : Name → Name → σ → Bool × σ
  symlink : Name → Name → σ → Bool × σ
  chown : Name → CInt → CInt → σ → σ
  chmod : Name → CInt → σ → σ
  utimes : Name → CInt → σ → σ
  getpwnam : CString → Option (CInt × CInt)
  getgrnam : CString → Option CInt
  /-- the owner of the current directory, or of the process -/
  defaultIds : σ → CInt × CInt
  /-- `fopen (name,"r")` -/
  readable : Name → σ → Bool
  /-- `fopen` of the backup for writing -/
  creatBackup : Name → σ → Bool × σ
  mkdirBackup : Name → σ → σ
  ffilecopy : Name → σ → σ
  /-- `open` of the temporary file, or of the target itself, for writing -/
  creat : Place → Name → σ → Bool × σ
  store : Place → Name → List Byte → σ → σ
  rename : Place → Name → σ → Bool × σ
  reopen : Place → Name → σ → Bool
  filecopy : Place → Name → σ → Bool × σ
  discard : Place → Name → σ → σ
  /-- `system`, `true` for an exit status of zero -/
  system : CString → σ → Bool × σ

/-- The flags of the collection that the routines below look at. -/
structure Collection where
  list : Bool
  backup : Bool
  execute : Bool

def slash : Byte := 47

/-- `path`, its first result: the directory part of a name. -/
def dirPart (original : Name) : Name :=
  let direc := chop original
  let file := (direc.reverse.takeWhile (· ≠ slash)).reverse
  if file.length = direc.length then [46]
  else if direc.length = file.length + 1 then [slash]
  else direc.take (direc.length - file.length - 1)
where
  /-- Trailing separators go, except as first character. -/
  chop : Name → Name
    | [] => []
    | c :: rest => c :: (rest.reverse.dropWhile (· = slash)).reverse

/-- `path`, its second result: the file part of a name. -/
def filePart (original : Name) : Name :=
  let file := ((dirPart.chop original).reverse.takeWhile (· ≠ slash)).reverse
  if file = [] then [46] else file

/-! ## The client -/

section Client

variable {σ : Type} (fs : FileSystem σ) (c : Collection)

/-- `estabd`: `true` when the directory cannot be had. A directory part is shorter than
its name, so the recursion ends. -/
def estabd : Nat → Name → σ → Bool × σ
  | 0, _, world => (true, world)
  | fuel + 1, dname, world =>
      if (fs.stat dname world).isSome then
        (false, world)
      else if filePart dname = [46] then
        (true, world)
      else
        match estabd fuel (dirPart dname) world with
        | (true, world) => (true, world)
        | (false, world) =>
            let world := fs.mkdir dname world
            ((fs.stat dname world).isNone, world)

def establishdir (fname : Name) (world : σ) : Bool × σ :=
  estabd fs ((dirPart fname).length + 1) (dirPart fname) world

/-- What `prepare` leaves behind. -/
structure Prepared (σ : Type) where
  failed : Bool
  isNew : Bool
  statp : Stat
  world : σ

/-- The first lines of `prepare`: a link is looked at itself, anything else through links. -/
def lookAt (name : Name) (mode : CInt) (world : σ) : Option Stat :=
  if mode = S_IFLNK then fs.lstat name world else fs.stat name world

/-- How `prepare` removes what is in the way. -/
def remove (name : Name) (st : Stat) (world : σ) : σ :=
  if fmt st.mode = S_IFDIR then
    match fs.rmdir name world with
    | (true, world) => world
    | (false, world) => fs.removeTree name world
  else
    fs.unlink name world

def prepare (name : Name) (mode : CInt) (world : σ) : Prepared σ :=
  match lookAt fs name mode world with
  | none =>
      if c.list then
        ⟨false, true, default, world⟩
      else
        ⟨(establishdir fs name world).1, true, default, (establishdir fs name world).2⟩
  | some st =>
      if mode = fmt st.mode then
        ⟨false, false, st, world⟩
      else if c.list then
        ⟨false, true, st, world⟩
      else
        let world := remove fs name st world
        ⟨(fs.stat name world).isSome, true, st, world⟩

/-- `ugconvert`: the local ids, and the mode without the bits that would no longer mean
the same. -/
def ugconvert (t : Tree) (world : σ) : CInt × CInt × CInt :=
  match t.user.bind fs.getpwnam with
  | some (uid, loginGid) =>
      match t.group.bind fs.getgrnam with
      | some gid => (uid, gid, t.mode)
      | none => (uid, loginGid, t.mode &&& ~~~S_ISGID)
  | none =>
      ((fs.defaultIds world).1, (fs.defaultIds world).2, t.mode &&& ~~~(S_ISUID ||| S_ISGID))

/-- Setting owner, mode and times of what has been received. -/
def setInfo (t : Tree) (world : σ) : σ :=
  let (uid, gid, mode) := ugconvert fs t world
  let owned :=
    if has t.flags FNOACCT then world
    else fs.chmod t.name.data (mode &&& S_IMODE) (fs.chown t.name.data uid gid world)
  fs.utimes t.name.data t.mtime owned

/-- Nothing to set: the target was there, is not new at the server and is as it should be. -/
def upToDate (t : Tree) (isNew : Bool) (st : Stat) (world : σ) : Bool :=
  let (uid, gid, _) := ugconvert fs t world
  !isNew && !has t.flags FNEW && st.mtime = t.mtime &&
    (has t.flags FNOACCT || (st.uid = uid && st.gid = gid))

/-- `recvdir`: `true` marks the upgrade as no good. -/
def recvdir (t : Tree) (isNew : Bool) (st : Stat) (world : σ) : Bool × σ :=
  if isNew then
    if c.list then
      (false, world)
    else
      let world := fs.mkdir t.name.data world
      match fs.stat t.name.data world with
      | none => (true, world)
      | some _ => (false, setInfo fs t world)
  else if upToDate fs t isNew st world then
    (false, world)
  else if c.list then
    (false, world)
  else
    (false, setInfo fs t world)

def recvsym (t : Tree) (isNew : Bool) (world : σ) : Bool × σ :=
  match t.link with
  | [] => (true, world)
  | linkname :: _ =>
      if !isNew && !has t.flags FNEW && fs.readlink t.name.data world = some linkname.data then
        (false, world)
      else if c.list then
        (false, world)
      else
        let world := if isNew then world else fs.unlink t.name.data world
        match fs.symlink linkname.data t.name.data world with
        | (false, world) => (true, world)
        | (true, world) => ((fs.lstat t.name.data world).isNone, world)

/-- `linkone`; the flags of a link's own node are never set. -/
def linkone (fname : Name) (name : CString) (nogood : Bool) (world : σ) : Bool × σ :=
  match fs.stat fname world with
  | none => (nogood || !c.list, world)
  | some fbuf =>
      let p := prepare fs c name.data S_IFREG world
      if p.failed then
        (true, p.world)
      else if !p.isNew && fbuf.dev = p.statp.dev && fbuf.ino = p.statp.ino then
        (nogood, p.world)
      else if c.list then
        (nogood, p.world)
      else
        match fs.link fname name.data (fs.unlink name.data p.world) with
        | (true, world) => (nogood, world)
        | (false, world) => (nogood, (fs.symlink fname name.data world).2)

def execone (command : CString) (nogood : Bool) (world : σ) : Bool × σ :=
  if c.list || !c.execute then
    (nogood, world)
  else
    match fs.system command world with
    | (ok, world) => (nogood || !ok, world)

/-- The places `copyfile` tries, in this order; only the last is not a temporary file. -/
def places : List Place := [.destination, .sup, .base, .usrTmp, .tmp, .target]

/-- The first place that can be opened, if any. -/
def openFirst (dest : Name) : List Place → σ → Option Place × σ
  | [], world => (none, world)
  | place :: rest, world =>
      match fs.creat place dest world with
      | (true, world) => (some place, world)
      | (false, world) => openFirst dest rest world

/-- The end of `copyfile`: the temporary file becomes the target, by name or by copying. -/
def install (dest : Name) (place : Place) (world : σ) : Bool × σ :=
  if place = .target then
    (false, world)
  else
    match fs.rename place dest world with
    | (true, world) => (false, fs.discard place dest world)
    | (false, world) =>
        if !fs.reopen place dest world then
          (true, fs.discard place dest world)
        else
          match fs.creat .target dest world with
          | (false, world) => (true, fs.discard place dest world)
          | (true, world) =>
              match fs.filecopy place dest world with
              | (ok, world) => (!ok, fs.discard place dest world)

variable (e : Endpoint)

/-- `readskip`, where failing to skip ends the conversation. -/
def skip : Recv Unit := fun r =>
  match readskip e r with
  | .ok done => .ok done
  | .error _ => .error (.goaway "Can't skip file transfer")

def text (name : Name) : String := String.ofList (name.map fun b => Char.ofNat b.toNat)

/-- `copyfile` from the network, as it is compiled without `CMUCS`: `true` when the file could not
be stored. -/
def copyfile (dest : Name) (world : σ) : Recv (Bool × σ) :=
  match openFirst fs dest places world with
  | (none, world) => do
      skip e
      pure (true, world)
  | (some place, world) => do
      let content ← receive dest
      pure (install fs dest place (fs.store place dest content world))
where
  /-- `readfile`, where failing to read ends the conversation. -/
  receive (dest : Name) : Recv (List Byte) := fun r =>
    match readfile e r with
    | .ok done => .ok done
    | .error _ => .error (.goaway ("Error in receiving " ++ text dest))

/-- The backup `recvreg` makes of a file that it is about to replace: `false` when it
cannot be made. -/
def makeBackup (name : Name) (world : σ) : Bool × σ :=
  if !fs.readable name world then
    (false, world)
  else
    match fs.creatBackup name world with
    | (true, world) => (true, fs.ffilecopy name world)
    | (false, world) =>
        match fs.creatBackup name (fs.mkdirBackup name world) with
        | (true, world) => (true, fs.ffilecopy name world)
        | (false, world) => (false, world)

/-- The old file is backed up if the server allows it and the collection asks for it. -/
def backup (t : Tree) (isNew : Bool) (world : σ) : Bool × σ :=
  if !isNew && fmt t.mode = S_IFREG && has t.flags FBACKUP && c.backup then
    makeBackup fs t.name.data world
  else
    (true, world)

/-- The end of `recvreg`: a file that was stored gets its owner, mode and times. -/
def finishReg (t : Tree) : Bool × σ → Bool × σ
  | (true, world) => (true, world)
  | (false, world) => (false, setInfo fs t world)

def recvreg (t : Tree) (isNew : Bool) (st : Stat) (world : σ) : Recv (Bool × σ) :=
  if has t.flags FUPDATE then
    if upToDate fs t isNew st world then
      pure (false, world)
    else if c.list then
      pure (false, world)
    else
      pure (false, setInfo fs t world)
  else if c.list then
    pure (false, world)
  else
    match backup fs c t isNew world with
    | (false, world) => do
        skip e
        pure (true, world)
    | (true, world) => do
        let copied ← copyfile fs e t.name.data world
        pure (finishReg fs t copied)

/-- The end of `recvone`: after an entry that was stored come its links and its commands. -/
def finishOne (t : Tree) (nogood : Bool) : Bool × σ → Bool × σ
  | (true, world) => (true, world)
  | (false, world) =>
      let linked :=
        if fmt t.mode = S_IFREG then
          t.link.foldl (fun p name => linkone fs c t.name.data name p.1 p.2) (nogood, world)
        else
          (nogood, world)
      t.exec.foldl (fun p command => execone fs c command p.1 p.2) linked

/-- The changes specific to the type of the entry. -/
def recvtype (t : Tree) (p : Prepared σ) : Recv (Bool × σ) :=
  if fmt t.mode = S_IFDIR then
    pure (recvdir fs c t p.isNew p.statp p.world)
  else if fmt t.mode = S_IFLNK then
    pure (recvsym fs c t p.isNew p.world)
  else if fmt t.mode = S_IFREG then
    recvreg fs c e t p.isNew p.statp p.world
  else
    throw (.goaway ("Unknown file type " ++ String.ofList (Nat.toDigits 8 (fmt t.mode).toNat)))

/-- `recvone` for an entry: whether the upgrade is no good from here on, and the state. -/
def recvone (t : Tree) (nogood : Bool) (world : σ) : Recv (Bool × σ) :=
  if t.mode = 0 then
    pure (true, world)
  else
    let p := prepare fs c t.name.data (fmt t.mode) world
    if p.failed then
      if fmt t.mode = S_IFREG then do
        skip e
        pure (true, p.world)
      else
        pure (true, p.world)
    else do
      let received ← recvtype fs c e t p
      pure (finishOne fs c t nogood received)

/-- The loops of `msgrecv` that read names until a null string. Every round takes a
block, so there are at most as many rounds as bytes. -/
def readones : Nat → Recv (List CString)
  | 0 => throw (.scmerr "Premature EOF on network input")
  | fuel + 1 => do
      let p ← readstring e
      match p with
      | none => pure []
      | some p => do
          let rest ← readones fuel
          pure (p :: rest)

/-- Names up to the null string that ends them. -/
def readnames : Recv (List CString) := fun r => readones e r.pending.length r

/-- `msgrecv` on the client: whether there is more to come, whether the upgrade is no
good, and the state. -/
def msgrecvClient (nogood : Bool) (world : σ) : Recv (Bool × Bool × σ) := do
  readmsg e MSGRECV
  let name ← readstring e
  match name with
  | none => do
      readmend e
      pure (false, nogood, world)
  | some name => do
      let mode ← readint e
      if mode = 0 then do
        readmend e
        let received ← recvone fs c e ⟨name, 0, 0, none, none, 0, [], []⟩ nogood world
        pure (true, received)
      else do
        let flags ← readint e
        let user ← readstring e
        let group ← readstring e
        let mtime ← readint e
        let link ← readnames e
        let exec ← readnames e
        let received ←
          recvone fs c e ⟨name, mode, flags, user, group, mtime, link, exec⟩ nogood world
        readmend e
        pure (true, received)

end Client

/-! ## The conversation -/

/-- Bytes of the peer arrive. -/
def Input.deliver (r : Input) (bytes : List Byte) : Input :=
  { r with net := { r.net with bytes := r.net.bytes ++ bytes } }

/-- Both sides of the conversation, with what the client has on its machine. -/
structure Link (σ : Type) where
  clientOut : Output
  serverIn : Input
  serverOut : Output
  clientIn : Input
  nogood : Bool
  world : σ

section Conversation

variable {σ : Type} (fs : FileSystem σ) (c : Collection) (client server : Endpoint)

/-- One round of `recvfiles` and of `sendfiles`: the client asks, the server answers with
its next turn, and the client takes the answer. `listonly` was set from the client's own
flag when the conversation began. -/
def exchange (turn : Option Entry) (l : Link σ) : Except Failure (Bool × Link σ) := do
  let (_, asked) ← writemnull client MSGSEND l.clientOut
  let (_, heard) ← readmnull server MSGSEND (l.serverIn.deliver asked.sent)
  let (_, answered) ← serve server c.list turn l.serverOut
  let ((more, nogood, world), taken) ←
    msgrecvClient fs c client l.nogood l.world (l.clientIn.deliver answered.sent)
  pure (more, ⟨{ asked with sent := [] }, heard, { answered with sent := [] }, taken, nogood, world⟩)

/-- Nothing is on its way and no message is half written. -/
structure Link.Drained (l : Link σ) : Prop where
  asked : l.clientOut.Closed
  askedSent : l.clientOut.sent = []
  heard : l.serverIn.pending = []
  answered : l.serverOut.Closed
  answeredSent : l.serverOut.sent = []
  taken : l.clientIn.pending = []

/-- The round succeeds and the client has taken what the server wrote, no less and no more. -/
def InStep (turn : Option Entry) (l : Link σ) : Prop :=
  ∃ l', exchange fs c client server turn l = .ok (turn.isSome, l') ∧ l'.Drained

/-- The path of a regular file cannot be prepared: nothing is there and its directory
cannot be made, or something else is there and cannot be removed. -/
def Obstructed (name : Name) (world : σ) : Prop :=
  match fs.stat name world with
  | none => (establishdir fs name world).1 = true
  | some st => fmt st.mode ≠ S_IFREG ∧ (fs.stat name (remove fs name st world)).isSome

/-- The turn for which the client skips a block that the server did not write. -/
def SkipsTooMuch (turn : Option Entry) (world : σ) : Prop :=
  ∃ t, turn = some t ∧ fmt t.mode = S_IFREG ∧ has t.flags FUPDATE ∧ c.list = false ∧
    Obstructed fs t.name.data world

end Conversation

end MachFormal.Sup
