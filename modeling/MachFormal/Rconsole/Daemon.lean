import Mathlib.Data.Bool.Basic
import Mathlib.Logic.Function.Basic
import MachFormal.Library.Machine

/-!
# The remote console daemon

One turn of `loop` in `rconsoled.c`: a `select`, then whatever `est_login`, the
connected client and the console line have to do.  All that the daemon gets from
outside in a turn is in its `Turn`: the descriptors that are ready, what `accept`
and the three `read` calls return, and whether a peer has reset its connection, in
which case the write to it kills the daemon, as `SIGPIPE` is not ignored.

Descriptor 0 is the daemon's standard input; `sa` and `sl` use it for no client.
Connections are numbered in the order in which they are accepted, so that a
descriptor that is used again is told from its earlier use.
-/

/-!
## Words used as sets of small numbers

A machine word holds a set of the numbers below its width, one bit for each.
A member is added and removed with a word that has a single bit, and found by
the bitwise intersection with it.
-/

namespace MachFormal.Library.Mask

variable {w : Nat}

/-- The word `1 << i`. -/
def bit (w i : Nat) : BitVec w := BitVec.twoPow w i

/-- The test `m & (1 << i)`. -/
def isSet (m : BitVec w) (i : Nat) : Bool := m &&& bit w i != 0#w

theorem bit_ne_zero {i : Nat} (below : i < w) : bit w i ≠ 0#w := by
  intro zero
  have shown := congrArg (fun m => m.getLsbD i) zero
  simp [bit, below] at shown

theorem isSet_eq {i : Nat} (below : i < w) (m : BitVec w) : isSet m i = m.getLsbD i := by
  rw [isSet, bit, BitVec.and_twoPow]
  cases held : m.getLsbD i with
  | true =>
      rw [if_pos rfl]
      exact bne_iff_ne.mpr (bit_ne_zero below)
  | false =>
      rw [if_neg Bool.false_ne_true]
      exact bne_self_eq_false _

theorem isSet_or_bit {i : Nat} (below : i < w) (m : BitVec w) (a : Nat) :
    isSet (m ||| bit w a) i = true ↔ isSet m i = true ∨ i = a := by
  rw [isSet_eq below, isSet_eq below, bit, BitVec.getLsbD_or, BitVec.getLsbD_twoPow, Bool.or_eq_true]
  refine or_congr_right ?_
  simp only [Bool.and_eq_true, decide_eq_true_eq]
  constructor
  · exact fun both => both.2.symm
  · rintro rfl
    exact ⟨below, rfl⟩

theorem isSet_and_not_bit {i : Nat} (below : i < w) (m : BitVec w) (a : Nat) :
    isSet (m &&& ~~~bit w a) i = true ↔ isSet m i = true ∧ i ≠ a := by
  rw [isSet_eq below, isSet_eq below, bit, BitVec.getLsbD_and, BitVec.getLsbD_not,
    BitVec.getLsbD_twoPow, Bool.and_eq_true]
  refine and_congr_right fun _ => ?_
  simp only [Bool.and_eq_true, decide_eq_true_eq, Bool.not_eq_true', Bool.and_eq_false_imp,
    decide_eq_false_iff_not]
  constructor
  · rintro ⟨_, other⟩ rfl
    exact other below rfl
  · exact fun other => ⟨below, fun _ same => other same.symm⟩

theorem isSet_bit {i : Nat} (below : i < w) (a : Nat) : isSet (bit w a) i = true ↔ i = a := by
  have joined := isSet_or_bit below 0#w a
  rw [BitVec.zero_or] at joined
  rw [joined, isSet_eq below, BitVec.getLsbD_zero]
  simp

end MachFormal.Library.Mask

namespace MachFormal.Rconsole

open MachFormal.Library
open MachFormal.Library.Mask

/-- What `main` leaves to `loop`: the two descriptors, the `-a` flag, and the comparison of
a password with the one of the account `logname`. -/
structure Config where
  tty : Nat
  s : Nat
  aFlag : Bool
  passwordMatches : List UInt8 → Bool
  tty_pos : 0 < tty
  s_pos : 0 < s
  distinct : tty ≠ s
  tty_lt : tty < 32
  s_lt : s < 32

inductive Buffer where
  | inpass
  | loginfo
  deriving DecidableEq, Repr

/-- Both buffers have the same size. -/
def sizeofBuffer : Nat := 100

/-- What the daemon has done.  `stored` says how far a store into a buffer went; the
connection of a read or a write is that of the descriptor used, if it has one. -/
inductive Event where
  | passwordAccepted (conn : Nat)
  | closed (conn : Nat)
  | toClient (conn : Option Nat) (bytes : List UInt8)
  | fromClient (conn : Option Nat) (bytes : List UInt8)
  | stored (buffer : Buffer) (upTo : Nat)
  deriving DecidableEq, Repr

/-- Why the daemon has ended: `select` failed, the client logging in was gone, a write found
its connection reset, the console line failed, or `OOB_TERM` was received. -/
inductive Cause where
  | select
  | loginGone
  | pipe
  | console
  | terminated
  deriving DecidableEq, Repr

/-- `conn` gives the connection of each descriptor of a client; `events` has the latest
first. -/
structure State where
  logState : Nat
  sa : Nat
  sl : Nat
  readFds : BitVec 32
  maxFd : Nat
  conn : Nat → Option Nat
  next : Nat
  inpass : List UInt8
  loginfo : List UInt8
  events : List Event
  ended : Option Cause

/-- `message`, `data` and `console` are empty when the `read` returns 0 or fails; `following`
are the bytes in memory after `inpass`, up to a NUL, and `stale` is the byte of `logline` after
`data`. -/
structure Turn where
  ready : BitVec 32
  accepted : Nat
  loginReset : Bool
  message : List UInt8
  following : List UInt8
  data : List UInt8
  stale : UInt8
  console : List UInt8
  clientReset : Bool

variable (cfg : Config)

def State.log (st : State) (event : Event) : State := { st with events := event :: st.events }

def State.stop (st : State) (cause : Cause) : State := { st with ended := some cause }

/-- `close` of a client's descriptor. -/
def State.close (st : State) (fd : Nat) : State :=
  match st.conn fd with
  | none => st
  | some c => { st with
      conn := Function.update st.conn fd none
      events := .closed c :: st.events }

/-! ## Logging in -/

/-- What `est_login` returns: 0, 1, 2, -1 and -2. -/
inductive Verdict where
  | noCheck
  | check
  | ok
  | fail
  | ignore
  deriving DecidableEq, Repr

/-- A byte that ends the password. -/
def isSeparator (c : UInt8) : Bool := c == 0 || c == 32

/-- Where `check_passwd` puts the NUL that ends the password. -/
def separator (message : List UInt8) : Nat := message.findIdx isSeparator

/-- `inpass` after the `read` and the two stores of `check_passwd`; the store behind the end of
the array leaves it as it was. -/
def inpassAfter (inpass message : List UInt8) : List UInt8 :=
  ((message ++ inpass.drop message.length).set message.length 0).set (separator message) 0

/-- The string at index `i` of `inpass`, which goes on behind the array when no NUL ends it. -/
def stringAt (inpass : List UInt8) (i : Nat) (following : List UInt8) : List UInt8 :=
  (inpass.drop i).takeWhile (· != 0) ++
    if (inpass.drop i).contains 0 then [] else following

/-- What `check_passwd` copies to `loginfo`. -/
def userName (inpass message following : List UInt8) : List UInt8 :=
  stringAt (inpassAfter inpass message) (separator message + 1) following

def password (message : List UInt8) : List UInt8 := message.take (separator message)

/-- `check_passwd`, with the stores it makes. -/
def checkPasswd (turn : Turn) (st : State) : Bool × State :=
  let name := userName st.inpass turn.message turn.following
  let st := { st with inpass := inpassAfter st.inpass turn.message, loginfo := name }
  let st := st.log (.stored .inpass (turn.message.length + 1))
  let st := st.log (.stored .loginfo (name.length + 1))
  let st := if turn.loginReset then st.stop .pipe else st
  (cfg.passwordMatches (password turn.message), st)

def bytesOf (text : String) : List UInt8 := text.toList.map fun c => UInt8.ofNat c.toNat

/-- What `sprintf` makes of the refusal, with its NUL. -/
def refusal (loginfo : List UInt8) : List UInt8 :=
  bytesOf "nSorry " ++ loginfo ++ bytesOf " is using the daemon.  Go bug him/her.\n" ++ [0]

def storeRefusal (st : State) : State :=
  let text := refusal st.loginfo
  { st with inpass := (text ++ st.inpass.drop text.length).take sizeofBuffer }.log
    (.stored .inpass text.length)

/-- `accept` on the listening socket. -/
def State.accept (st : State) (turn : Turn) : State :=
  { st with
    conn := Function.update st.conn turn.accepted (some st.next)
    next := st.next + 1
    sl := turn.accepted }

def estLogin (turn : Turn) (st : State) : Verdict × State :=
  match st.logState with
  | 0 =>
      let st := st.accept turn
      let st := if turn.loginReset then st.stop .pipe else st
      if cfg.aFlag then (.check, { st with logState := 1 })
      else (.noCheck, { st with logState := 2 })
  | 1 =>
      if turn.message = [] then (.ignore, st.stop .loginGone)
      else
        match checkPasswd cfg turn (st.log (.stored .inpass turn.message.length)) with
        | (true, st) => (.ok, { st with logState := 2 })
        | (false, st) => (.fail, { st with logState := 0 })
  | _ =>
      let st := { storeRefusal st with next := st.next + 1 }.log (.closed st.next)
      (.ignore, if turn.loginReset then st.stop .pipe else st)

/-- The password check of a client that logs in is over. -/
def State.logAccepted (st : State) (fd : Nat) : State :=
  match st.conn fd with
  | none => st
  | some c => st.log (.passwordAccepted c)

/-- What `loop` does with the verdict. -/
def settle (verdict : Verdict) (st : State) : State :=
  match verdict with
  | .noCheck => { st with
      sa := st.sl
      sl := 0
      maxFd := max (max cfg.tty cfg.s) st.sl + 1
      readFds := st.readFds ||| bit 32 st.sl }
  | .check => { st with
      maxFd := max (max cfg.tty cfg.s) st.sl + 1
      readFds := st.readFds ||| bit 32 st.sl }
  | .ok => { st.logAccepted st.sl with sa := st.sl, sl := 0 }
  | .fail =>
      -- `sl` is cleared before its bit would be
      { st.close st.sl with
        sl := 0
        readFds := st.readFds &&& ~~~bit 32 0
        maxFd := max cfg.tty cfg.s + 1 }
  | .ignore => st

/-- The first part of a turn. -/
def login (turn : Turn) (st : State) : State :=
  if isSet turn.ready cfg.s || isSet turn.ready st.sl then
    let (verdict, st) := estLogin cfg turn st
    if st.ended.isSome then st else settle cfg verdict st
  else st

/-! ## The client and the console -/

def oobChar : UInt8 := 0xc5
def oobTerm : UInt8 := 0x81

/-- Whether the client's bytes hold the request to terminate; the byte after an `OOB_CHAR` at
the end is the one that `logline` held before. -/
def asksToTerminate (stale : UInt8) : List UInt8 → Bool
  | [] => false
  | [c] => c == oobChar && stale == oobTerm
  | c :: d :: rest =>
      if c == oobChar then d == oobTerm || asksToTerminate stale rest
      else asksToTerminate stale (d :: rest)

/-- The second part of a turn: bytes from the client, or its departure. -/
def client (turn : Turn) (st : State) : State :=
  if isSet turn.ready st.sa then
    if turn.data = [] then
      { st.close st.sa with
        readFds := st.readFds &&& ~~~bit 32 st.sa
        maxFd := max cfg.tty cfg.s + 1
        sa := 0
        logState := 0 }
    else
      let st := st.log (.fromClient (st.conn st.sa) turn.data)
      if asksToTerminate turn.stale turn.data then st.stop .terminated else st
  else st

/-- The third part of a turn: bytes from the console line. -/
def console (turn : Turn) (st : State) : State :=
  if isSet turn.ready cfg.tty then
    if turn.console = [] then st.stop .console
    else if st.sa ≠ 0 then
      let st := st.log (.toClient (st.conn st.sa) turn.console)
      if turn.clientReset then st.stop .pipe else st
    else st
  else st

/-! ## The loop -/

/-- A descriptor that `select` accepts. -/
def isOpen (st : State) (fd : Nat) : Bool :=
  fd == cfg.tty || fd == cfg.s || (st.conn fd).isSome

/-- A descriptor of the set that is not open makes `select` fail. -/
def selectFails (st : State) : Bool :=
  (List.range (min st.maxFd 32)).any fun fd => isSet st.readFds fd && !isOpen cfg st fd

/-- What `select`, `accept` and `read` can return. -/
def Possible (st : State) (turn : Turn) : Prop :=
  (∀ fd < 32, isSet turn.ready fd = true → isSet st.readFds fd = true ∧ fd < st.maxFd) ∧
    0 < turn.accepted ∧ turn.accepted < 32 ∧ isOpen cfg st turn.accepted = false ∧
    turn.message.length ≤ sizeofBuffer ∧ ∀ c ∈ turn.following, c ≠ 0

instance (st : State) (turn : Turn) : Decidable (Possible cfg st turn) :=
  inferInstanceAs (Decidable (_ ∧ _))

/-- A part of the turn that the daemon reaches only while it runs. -/
def State.whileRunning (st : State) (part : State → State) : State :=
  if st.ended.isSome then st else part st

/-- One turn of `loop`. -/
def step (st : State) (turn : Turn) : Option State :=
  if st.ended.isSome then none
  else if selectFails cfg st then some (st.stop .select)
  else if Possible cfg st turn then
    some (((login cfg turn st).whileRunning (client cfg turn)).whileRunning (console cfg turn))
  else none

/-- The state in which `loop` begins. -/
def start : State where
  logState := 0
  sa := 0
  sl := 0
  readFds := bit 32 cfg.tty ||| bit 32 cfg.s
  maxFd := max cfg.tty cfg.s + 1
  conn := fun _ => none
  next := 0
  inpass := List.replicate sizeofBuffer 0
  loginfo := []
  events := []
  ended := none

/-- The daemon as a machine. -/
def machine : Machine State Turn where
  init st := st = start cfg
  step := step cfg

end MachFormal.Rconsole
