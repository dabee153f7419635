import MachFormal.Sup.InStep
import MachFormal.Sup.Stree

/-!
# The messages of the protocol

Every routine of `supmsg` has two branches, one for the side that writes the message
and one for the side that reads it, and some fields are there from some protocol
version on.  Trees are written in the order of a visit and rebuilt by insertion.
-/

namespace MachFormal.Sup

open Library Library.Wire

def PROTOVERSION : CInt := 7

def MSGSIGNON : CInt := 101
def MSGSIGNONACK : CInt := 102
def MSGSETUP : CInt := 103
def MSGLOGIN : CInt := 105
def MSGLOGACK : CInt := 106
def MSGREFUSE : CInt := 109
def MSGLIST : CInt := 110
def MSGNEED : CInt := 111
def MSGDENY : CInt := 112
def MSGDONE : CInt := 115
def MSGXPATCH : CInt := 117

/-- The variables that the messages carry.  `xargc` is the length of `xargv`. -/
structure Variables where
  protver : CInt
  pgmver : CInt
  pgmversion : CInt
  scmver : Option CString
  scmversion : Option CString
  fspid : CInt
  xpatch : CInt
  xuser : Option CString
  collname : Option CString
  basedir : Option CString
  basedev : CInt
  baseino : CInt
  lasttime : CInt
  listonly : CInt
  newonly : CInt
  release : Option CString
  logcrypt : Option CString
  loguser : Option CString
  logpswd : Option CString
  logack : CInt
  logerror : Option CString
  refuseT : NodeTree
  listT : NodeTree
  needT : NodeTree
  denyT : NodeTree
  scantime : CInt
  doneack : CInt
  donereason : Option CString
  xargv : List (Option CString)

/-! ## The writing branches -/

section Writing

variable (e : Endpoint) (v : Variables)

/-- The loop of `Tprocess`. -/
def visit {α : Type} (f : CString → α → Send Unit) : List (CString × α) → Send Unit
  | [] => pure ()
  | (p, a) :: rest => do
      f p a
      visit f rest

def Tprocess {α : Type} (t : SearchTree CString α) (f : CString → α → Send Unit) : Send Unit :=
  visit f t.toList

def msgsignonClient : Send Unit := do
  writemsg e MSGSIGNON
  writeint e PROTOVERSION
  writeint e v.pgmversion
  writestring e v.scmversion
  writemend e

def msgsignonackServer : Send Unit := do
  writemsg e MSGSIGNONACK
  writeint e PROTOVERSION
  writeint e v.pgmversion
  writestring e v.scmversion
  writeint e v.fspid
  writemend e

/-- `xpatch` is carried from version 7 on. -/
def writexpatch : Send Unit := if 7 ≤ v.protver.toInt then writeint e v.xpatch else pure ()

/-- `release` is carried from version 6 on. -/
def writerelease : Send Unit := if 6 ≤ v.protver.toInt then writestring e v.release else pure ()

def msgsetupClient : Send Unit := do
  writemsg e MSGSETUP
  writexpatch e v
  if v.xpatch ≠ 0 then do
    writestring e v.xuser
    writemend e
  else do
    writestring e v.collname
    writeint e v.lasttime
    writestring e v.basedir
    writeint e v.basedev
    writeint e v.baseino
    writeint e v.listonly
    writeint e v.newonly
    writerelease e v
    writemend e

def msgloginClient : Send Unit := do
  writemsg e MSGLOGIN
  writestring e v.logcrypt
  writestring e v.loguser
  writestring e v.logpswd
  writemend e

def msglogackServer : Send Unit := do
  writemsg e MSGLOGACK
  writeint e v.logack
  writestring e v.logerror
  writemend e

/-- `refuseone`, `denyone` and `writeone`. -/
def writeone {α : Type} (name : CString) (_ : α) : Send Unit := writestring e (some name)

def msgrefuseClient : Send Unit := do
  writemsg e MSGREFUSE
  Tprocess v.refuseT (writeone e)
  writestring e none
  writemend e

def listone (name : CString) (t : Node) : Send Unit := do
  writestring e (some name)
  writeint e t.mode
  writeint e t.flags
  writeint e t.mtime

def msglistServer : Send Unit := do
  writemsg e MSGLIST
  Tprocess v.listT (listone e)
  writestring e none
  writeint e v.scantime
  writemend e

/-- `(t->Tflags&FUPDATE) != 0`. -/
def update (t : Node) : CInt := if has t.flags FUPDATE then 1 else 0

/-- `needone` of the messages. -/
def writeneed (name : CString) (t : Node) : Send Unit := do
  writestring e (some name)
  writeint e (update t)

def msgneedClient : Send Unit := do
  writemsg e MSGNEED
  Tprocess v.needT (writeneed e)
  writestring e none
  writemend e

def msgdenyServer : Send Unit := do
  writemsg e MSGDENY
  Tprocess v.denyT (writeone e)
  writestring e none
  writemend e

/-- A node as the header of a file message carries it. -/
def Node.tree (name : CString) (t : Node) : Tree :=
  ⟨name, t.mode, t.flags, t.user, t.group, t.mtime, names t.link, names t.exec⟩

def msgdoneClient : Send Unit :=
  if v.protver.toInt < 6 then
    throw (.scmerr "Error, msgdone should not have been called.")
  else do
    writemsg e MSGDONE
    writeint e v.doneack
    writestring e v.donereason
    writemend e

def writeargs : List (Option CString) → Send Unit
  | [] => pure ()
  | arg :: rest => do
      writestring e arg
      writeargs rest

def msgxpatchClient : Send Unit := do
  writemsg e MSGXPATCH
  writeint e (BitVec.ofNat 32 v.xargv.length)
  writeargs e v.xargv
  writemend e

end Writing

/-! ## The reading branches -/

section Reading

variable (e : Endpoint) (v : Variables)

/-- A loop that reads names up to the null string.  Every round takes a block, so there are
at most as many rounds as bytes. -/
def readentries {γ : Type} (body : CString → γ → Recv γ) : Nat → γ → Recv γ
  | 0, _ => throw (.scmerr "Premature EOF on network input")
  | fuel + 1, tree => do
      let name ← readstring e
      match name with
      | none => pure tree
      | some name => do
          let tree ← body name tree
          readentries body fuel tree

def readtree {γ : Type} (body : CString → γ → Recv γ) (tree : γ) : Recv γ := fun r =>
  readentries e body r.pending.length tree r

def msgsignonServer : Recv Variables := do
  readmsg e MSGSIGNON
  let protver ← readint e
  let pgmver ← readint e
  let scmver ← readstring e
  readmend e
  pure { v with protver, pgmver, scmver }

def msgsignonackClient : Recv Variables := do
  readmsg e MSGSIGNONACK
  let protver ← readint e
  let pgmver ← readint e
  let scmver ← readstring e
  let fspid ← readint e
  readmend e
  pure { v with protver, pgmver, scmver, fspid }

def readxpatch : Recv CInt := if 7 ≤ v.protver.toInt then readint e else pure 0

def readrelease : Recv (Option CString) :=
  if v.protver.toInt < 6 then pure none else readstring e

def msgsetupServer : Recv Variables := do
  readmsg e MSGSETUP
  let xpatch ← readxpatch e v
  if xpatch ≠ 0 then do
    let xuser ← readstring e
    readmend e
    pure { v with xpatch, xuser }
  else do
    let collname ← readstring e
    let lasttime ← readint e
    let basedir ← readstring e
    let basedev ← readint e
    let baseino ← readint e
    let listonly ← readint e
    let newonly ← readint e
    let release ← readrelease e v
    readmend e
    pure { v with
      xpatch, collname, lasttime, basedir, basedev, baseino, listonly, newonly, release }

def msgloginServer : Recv Variables := do
  readmsg e MSGLOGIN
  let logcrypt ← readstring e
  let loguser ← readstring e
  let logpswd ← readstring e
  readmend e
  pure { v with logcrypt, loguser, logpswd }

def msglogackClient : Recv Variables := do
  readmsg e MSGLOGACK
  let logack ← readint e
  let logerror ← readstring e
  readmend e
  pure { v with logack, logerror }

/-- A name that is inserted and nothing else. -/
def readone {α : Type} [Inhabited α] (name : CString) (tree : SearchTree CString α) :
    Recv (SearchTree CString α) := pure (Tinsert tree name)

def msgrefuseServer : Recv Variables := do
  readmsg e MSGREFUSE
  let refuseT ← readtree e readone v.refuseT
  readmend e
  pure { v with refuseT }

def readlist (name : CString) (tree : NodeTree) : Recv NodeTree := do
  let mode ← readint e
  let flags ← readint e
  let mtime ← readint e
  pure (Tfind tree name fun t => { t with mode, flags, mtime })

def msglistClient : Recv Variables := do
  readmsg e MSGLIST
  let listT ← readtree e (readlist e) v.listT
  let scantime ← readint e
  readmend e
  pure { v with listT, scantime }

def readneed (name : CString) (tree : NodeTree) : Recv NodeTree := do
  let update ← readint e
  pure (Tfind tree name fun t => if update ≠ 0 then { t with flags := t.flags ||| FUPDATE } else t)

def msgneedServer : Recv Variables := do
  readmsg e MSGNEED
  let needT ← readtree e (readneed e) v.needT
  readmend e
  pure { v with needT }

def msgdenyClient : Recv Variables := do
  readmsg e MSGDENY
  let denyT ← readtree e readone v.denyT
  readmend e
  pure { v with denyT }

/-- `msgrecv` on the client, with the routine that takes the file. -/
def msgrecvWith {β : Type} (xferfile : Option (CString × Node) → Recv β) (t : Node) : Recv β := do
  readmsg e MSGRECV
  let name ← readstring e
  match name with
  | none => do
      readmend e
      xferfile none
  | some name => do
      let mode ← readint e
      if mode = 0 then do
        readmend e
        xferfile (some (name, { t with mode }))
      else do
        let flags ← readint e
        let user ← readstring e
        let group ← readstring e
        let mtime ← readint e
        let link ← readtree e readone (SearchTree.empty : NameTree)
        let exec ← readtree e readone (SearchTree.empty : NameTree)
        let result ← xferfile (some (name, { t with mode, flags, user, group, mtime, link, exec }))
        readmend e
        pure result

def msgdoneServer : Recv Variables :=
  if v.protver.toInt < 6 then
    throw (.scmerr "Error, msgdone should not have been called.")
  else do
    readmsg e MSGDONE
    let doneack ← readint e
    let donereason ← readstring e
    readmend e
    pure { v with doneack, donereason }

def readargs : Nat → Recv (List (Option CString))
  | 0 => pure []
  | n + 1 => do
      let arg ← readstring e
      let rest ← readargs n
      pure (arg :: rest)

/-- The arguments come after two slots that `calloc` has cleared. -/
def msgxpatchServer : Recv Variables := do
  readmsg e MSGXPATCH
  let xargc ← readint e
  let args ← readargs e ((xargc + 2).toInt - 2).toNat
  readmend e
  pure { v with xargv := none :: none :: args }

end Reading

end MachFormal.Sup
