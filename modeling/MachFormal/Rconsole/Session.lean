import Mathlib.Tactic.Set
import MachFormal.Rconsole.Daemon

/-!
# Sessions of the remote console daemon

The variables of `loop` stand for a session: nobody is there, one client is logging
in, or one is connected.  The invariant says which session they stand for; each of
the three parts of a turn keeps it as long as no password is refused, no client
leaves while it logs in or is written to, and what is stored in the two buffers fits.
-/

namespace MachFormal.Rconsole

open MachFormal.Library
open MachFormal.Library.Mask

/-! ## What is to hold -/

/-- Nobody has a connection. -/
def NoClient (st : State) : Prop := ∀ fd, st.conn fd = none

/-- The connection `c` on `fd` is the only one. -/
def Sole (st : State) (fd c : Nat) : Prop := st.conn = Function.update (fun _ => none) fd (some c)

/-- One client is logging in. -/
def LoggingIn (st : State) : Prop :=
  ∃ fd c, Sole st fd c ∧ Event.passwordAccepted c ∉ st.events

/-- One client is connected. -/
def Connected (st : State) : Prop :=
  ∃ fd c, Sole st fd c ∧ Event.passwordAccepted c ∈ st.events

/-- The connection of an exchange has had its password accepted, and is not closed. -/
def Entitled (earlier : List Event) (conn : Option Nat) : Prop :=
  ∃ c, conn = some c ∧ Event.passwordAccepted c ∈ earlier ∧ Event.closed c ∉ earlier

/-- Every exchange of bytes between the console and a client was with an entitled one. -/
def Exchanges : List Event → Prop
  | [] => True
  | .toClient conn _ :: earlier => Entitled earlier conn ∧ Exchanges earlier
  | .fromClient conn _ :: earlier => Entitled earlier conn ∧ Exchanges earlier
  | _ :: earlier => Exchanges earlier

/-- The session is what the daemon's variables say, and nothing goes wrong. -/
structure Orderly (cfg : Config) (st : State) : Prop where
  exchanges : Exchanges st.events
  none_iff : st.logState = 0 ↔ NoClient st
  login_iff : st.logState = 1 ↔ LoggingIn st
  connected_iff : st.logState = 2 ↔ Connected st
  descriptors : ∀ fd < 32, isSet st.readFds fd = true ↔ isOpen cfg st fd = true
  survives : st.ended = none ∨ st.ended = some .console ∨ st.ended = some .terminated
  inBounds : ∀ buffer n, Event.stored buffer n ∈ st.events → n ≤ sizeofBuffer

/-- The turn goes well: no write finds its connection reset; whoever logs in sends a message
shorter than `inpass`, with the right password and with a name shorter than `loginfo`; and when
somebody else connects, the refusal with the client's name in it fits into `inpass`. -/
structure GoesWell (cfg : Config) (st : State) (turn : Turn) : Prop where
  login : turn.loginReset = false
  client : turn.clientReset = false
  message : st.logState = 1 → isSet turn.ready cfg.s = true ∨ isSet turn.ready st.sl = true →
    turn.message ≠ [] ∧ turn.message.length < sizeofBuffer ∧
      cfg.passwordMatches (password turn.message) = true ∧
      (userName st.inpass turn.message turn.following).length < sizeofBuffer
  refusal : st.logState = 2 → isSet turn.ready cfg.s = true →
    (refusal st.loginfo).length ≤ sizeofBuffer

/-! ## The invariant -/

inductive Session where
  | nobody
  | loggingIn (fd c : Nat)
  | connected (fd c : Nat)

/-- The descriptor is one that `accept` may have returned. -/
structure ClientFd (cfg : Config) (fd : Nat) : Prop where
  pos : 0 < fd
  lt : fd < 32
  ne_tty : fd ≠ cfg.tty
  ne_s : fd ≠ cfg.s

/-- The variables stand for the session. -/
def Stands (cfg : Config) (st : State) : Session → Prop
  | .nobody => st.logState = 0 ∧ st.sa = 0 ∧ st.sl = 0 ∧ NoClient st
  | .loggingIn fd c => st.logState = 1 ∧ st.sa = 0 ∧ st.sl = fd ∧ ClientFd cfg fd ∧ Sole st fd c ∧
      Event.passwordAccepted c ∉ st.events ∧ Event.closed c ∉ st.events
  | .connected fd c => st.logState = 2 ∧ st.sa = fd ∧ st.sl = 0 ∧ ClientFd cfg fd ∧ Sole st fd c ∧
      Event.passwordAccepted c ∈ st.events ∧ Event.closed c ∉ st.events

/-- A store is in bounds, and the connections with a fate are earlier than `next`. -/
def Event.Fits (next : Nat) : Event → Prop
  | .stored _ n => n ≤ sizeofBuffer
  | .passwordAccepted c | .closed c => c < next
  | _ => True

/-- The invariant of the loop. -/
structure Inv (cfg : Config) (st : State) : Prop where
  exchanges : Exchanges st.events
  session : ∃ session, Stands cfg st session
  descriptors : ∀ fd < 32, isSet st.readFds fd = true ↔ isOpen cfg st fd = true
  survives : st.ended = none ∨ st.ended = some .console ∨ st.ended = some .terminated
  recorded : ∀ event ∈ st.events, event.Fits st.next
  numbered : ∀ fd c, st.conn fd = some c → c < st.next

variable {cfg : Config} {st : State} {turn : Turn}

theorem Sole.conn_eq {fd c : Nat} (sole : Sole st fd c) : st.conn fd = some c := by
  rw [sole, Function.update_self]

theorem Sole.isOpen_iff {fd c : Nat} (sole : Sole st fd c) (i : Nat) :
    isOpen cfg st i = true ↔ (i = cfg.tty ∨ i = cfg.s) ∨ i = fd := by
  simp only [isOpen, Bool.or_eq_true, beq_iff_eq]
  refine or_congr_right ?_
  rw [sole, Function.update_apply]
  split
  next same => exact iff_of_true rfl same
  next other => exact iff_of_false Bool.false_ne_true other

theorem NoClient.isOpen_iff (none : NoClient st) (cfg : Config) (i : Nat) :
    isOpen cfg st i = true ↔ i = cfg.tty ∨ i = cfg.s := by
  simp [isOpen, none i]

theorem NoClient.not_sole {fd c : Nat} (none : NoClient st) : ¬Sole st fd c := by
  intro sole
  have given := sole.conn_eq
  rw [none fd] at given
  exact absurd given (Option.some_ne_none c).symm

theorem Sole.eq_of_conn {fd fd' c c' : Nat} (sole : Sole st fd c) (given : st.conn fd' = some c') :
    c' = c := by
  rw [sole, Function.update_apply] at given
  split at given
  · exact (Option.some.inj given).symm
  · exact absurd given (Option.some_ne_none c').symm

theorem Event.Fits.mono {event : Event} {next next' : Nat} (fits : event.Fits next)
    (le : next ≤ next') : event.Fits next' := by
  cases event with
  | passwordAccepted c | closed c => exact Nat.lt_of_lt_of_le fits le
  | stored buffer n => exact fits
  | toClient conn bytes | fromClient conn bytes => trivial

theorem Inv.orderly (inv : Inv cfg st) : Orderly cfg st := by
  obtain ⟨session, stands⟩ := inv.session
  have iffs : (st.logState = 0 ↔ NoClient st) ∧ (st.logState = 1 ↔ LoggingIn st) ∧
      (st.logState = 2 ↔ Connected st) := by
    cases session with
    | nobody =>
        obtain ⟨state, _, _, none⟩ := stands
        rw [state]
        refine ⟨iff_of_true rfl none, iff_of_false (by decide) ?_, iff_of_false (by decide) ?_⟩
        · rintro ⟨fd, c, sole, _⟩
          exact none.not_sole sole
        · rintro ⟨fd, c, sole, _⟩
          exact none.not_sole sole
    | loggingIn fd c =>
        obtain ⟨state, _, _, _, sole, unaccepted, _⟩ := stands
        rw [state]
        refine ⟨iff_of_false (by decide) fun none => none.not_sole sole,
          iff_of_true rfl ⟨fd, c, sole, unaccepted⟩, iff_of_false (by decide) ?_⟩
        rintro ⟨fd', c', sole', accepted⟩
        rw [sole.eq_of_conn sole'.conn_eq] at accepted
        exact unaccepted accepted
    | connected fd c =>
        obtain ⟨state, _, _, _, sole, accepted, _⟩ := stands
        rw [state]
        refine ⟨iff_of_false (by decide) fun none => none.not_sole sole,
          iff_of_false (by decide) ?_, iff_of_true rfl ⟨fd, c, sole, accepted⟩⟩
        rintro ⟨fd', c', sole', unaccepted⟩
        rw [sole.eq_of_conn sole'.conn_eq] at unaccepted
        exact unaccepted accepted
  exact ⟨inv.exchanges, iffs.1, iffs.2.1, iffs.2.2, inv.descriptors, inv.survives,
    fun _ _ member => inv.recorded _ member⟩

theorem start_inv : Inv cfg (start cfg) := by
  have none : NoClient (start cfg) := fun _ => rfl
  refine ⟨trivial, ⟨.nobody, rfl, rfl, rfl, none⟩, ?_, Or.inl rfl, nofun, nofun⟩
  intro fd below
  rw [none.isOpen_iff]
  exact (isSet_or_bit below _ _).trans (or_congr_left (isSet_bit below _))

theorem Inv.select (inv : Inv cfg st) : selectFails cfg st = false := by
  rw [selectFails, List.any_eq_false]
  intro fd member
  have below : fd < 32 := Nat.lt_of_lt_of_le (List.mem_range.mp member) (Nat.min_le_right _ _)
  cases held : isSet st.readFds fd with
  | false => simp
  | true => simp [(inv.descriptors fd below).mp held]

theorem Inv.not_ready_zero (inv : Inv cfg st) (possible : Possible cfg st turn) :
    isSet turn.ready 0 = false := by
  rw [Bool.eq_false_iff]
  intro ready
  have held := (possible.1 0 (by decide) ready).1
  have opened := (inv.descriptors 0 (by decide)).mp held
  obtain ⟨session, stands⟩ := inv.session
  have tty := cfg.tty_pos
  have s := cfg.s_pos
  cases session with
  | nobody =>
      rw [stands.2.2.2.isOpen_iff] at opened
      omega
  | loggingIn fd c =>
      obtain ⟨_, _, _, client, sole, _⟩ := stands
      have pos := client.pos
      rw [sole.isOpen_iff] at opened
      omega
  | connected fd c =>
      obtain ⟨_, _, _, client, sole, _⟩ := stands
      have pos := client.pos
      rw [sole.isOpen_iff] at opened
      omega

/-! ## The three parts of a turn -/

theorem Stands.log {session : Session} (stands : Stands cfg st session) {event : Event}
    (accepted : ∀ c, event ≠ .passwordAccepted c) (closed : ∀ c, event ≠ .closed c) :
    Stands cfg (st.log event) session := by
  cases session with
  | nobody => exact stands
  | loggingIn fd c =>
      obtain ⟨state, sa, sl, client, sole, unaccepted, unclosed⟩ := stands
      refine ⟨state, sa, sl, client, sole, ?_, ?_⟩
      · exact List.not_mem_cons_of_ne_of_not_mem (accepted c).symm unaccepted
      · exact List.not_mem_cons_of_ne_of_not_mem (closed c).symm unclosed
  | connected fd c =>
      obtain ⟨state, sa, sl, client, sole, held, unclosed⟩ := stands
      refine ⟨state, sa, sl, client, sole, List.mem_cons_of_mem _ held, ?_⟩
      exact List.not_mem_cons_of_ne_of_not_mem (closed c).symm unclosed

theorem Stands.logStore {session : Session} (stands : Stands cfg st session) (buffer : Buffer)
    (n : Nat) : Stands cfg (st.log (.stored buffer n)) session :=
  stands.log nofun nofun

theorem Inv.log (inv : Inv cfg st) {event : Event} (exchanges : Exchanges (event :: st.events))
    (accepted : ∀ c, event ≠ .passwordAccepted c) (closed : ∀ c, event ≠ .closed c)
    (fits : event.Fits st.next) : Inv cfg (st.log event) := by
  obtain ⟨session, stands⟩ := inv.session
  exact ⟨exchanges, ⟨session, stands.log accepted closed⟩, inv.descriptors, inv.survives,
    List.forall_mem_cons.mpr ⟨fits, inv.recorded⟩, inv.numbered⟩

theorem Inv.logStore (inv : Inv cfg st) {buffer : Buffer} {n : Nat} (fits : n ≤ sizeofBuffer) :
    Inv cfg (st.log (.stored buffer n)) :=
  inv.log inv.exchanges nofun nofun fits

theorem Inv.setBuffers (inv : Inv cfg st) (inpass loginfo : List UInt8) :
    Inv cfg { st with inpass := inpass, loginfo := loginfo } :=
  ⟨inv.exchanges, inv.session, inv.descriptors, inv.survives, inv.recorded, inv.numbered⟩

theorem Inv.stop (inv : Inv cfg st) {cause : Cause} (own : cause = .console ∨ cause = .terminated) :
    Inv cfg (st.stop cause) := by
  refine ⟨inv.exchanges, inv.session, inv.descriptors, ?_, inv.recorded, inv.numbered⟩
  rcases own with rfl | rfl
  · exact Or.inr (Or.inl rfl)
  · exact Or.inr (Or.inr rfl)

theorem Inv.accept (inv : Inv cfg st) (stands : Stands cfg st .nobody)
    (possible : Possible cfg st turn) :
    Inv cfg (settle cfg .check { st.accept turn with logState := 1 }) := by
  obtain ⟨_, sa, _, none⟩ := stands
  obtain ⟨_, pos, below, unused, _⟩ := possible
  have apart : ¬(turn.accepted = cfg.tty ∨ turn.accepted = cfg.s) := by
    rw [← none.isOpen_iff cfg, unused]
    exact Bool.false_ne_true
  have client : ClientFd cfg turn.accepted :=
    ⟨pos, below, fun same => apart (Or.inl same), fun same => apart (Or.inr same)⟩
  set st' := settle cfg .check { st.accept turn with logState := 1 }
  have sole : Sole st' turn.accepted st.next := by
    have empty : st.conn = fun _ => Option.none := funext none
    show Function.update st.conn _ _ = _
    rw [empty]
  refine ⟨inv.exchanges, ⟨.loggingIn turn.accepted st.next, rfl, sa, rfl, client, sole, ?_, ?_⟩, ?_,
    inv.survives, ?_, ?_⟩
  · exact fun member => absurd (inv.recorded _ member) (Nat.lt_irrefl _)
  · exact fun member => absurd (inv.recorded _ member) (Nat.lt_irrefl _)
  · intro fd bound
    rw [sole.isOpen_iff, ← none.isOpen_iff cfg, ← inv.descriptors fd bound]
    exact isSet_or_bit bound _ _
  · intro event member
    exact (inv.recorded event member).mono (Nat.le_succ _)
  · intro fd c given
    obtain rfl := sole.eq_of_conn given
    exact Nat.lt_succ_self _

theorem Inv.letIn {fd c : Nat} (inv : Inv cfg st) (stands : Stands cfg st (.loggingIn fd c)) :
    Inv cfg (settle cfg .ok { st with logState := 2 }) := by
  obtain ⟨_, _, rfl, client, sole, _, unclosed⟩ := stands
  have settled : settle cfg .ok { st with logState := 2 } =
      { st with
        logState := 2
        sa := st.sl
        sl := 0
        events := .passwordAccepted c :: st.events } := by
    simp only [settle, State.logAccepted, sole.conn_eq, State.log]
  rw [settled]
  refine ⟨inv.exchanges, ⟨.connected st.sl c, rfl, rfl, rfl, client, sole, List.mem_cons_self, ?_⟩,
    inv.descriptors, inv.survives, ?_, inv.numbered⟩
  · exact List.not_mem_cons_of_ne_of_not_mem nofun unclosed
  · exact List.forall_mem_cons.mpr ⟨inv.numbered _ c sole.conn_eq, inv.recorded⟩

theorem Stands.logClosed {session : Session} (stands : Stands cfg st session) {c : Nat}
    (other : ∀ fd, st.conn fd ≠ some c) : Stands cfg (st.log (.closed c)) session := by
  have differs : ∀ {fd d}, Sole st fd d → Event.closed d ≠ .closed c := by
    rintro fd d sole ⟨⟩
    exact other fd sole.conn_eq
  cases session with
  | nobody => exact stands
  | loggingIn fd d =>
      obtain ⟨state, sa, sl, client, sole, unaccepted, unclosed⟩ := stands
      refine ⟨state, sa, sl, client, sole, ?_, ?_⟩
      · exact List.not_mem_cons_of_ne_of_not_mem nofun unaccepted
      · exact List.not_mem_cons_of_ne_of_not_mem (differs sole) unclosed
  | connected fd d =>
      obtain ⟨state, sa, sl, client, sole, accepted, unclosed⟩ := stands
      refine ⟨state, sa, sl, client, sole, List.mem_cons_of_mem _ accepted, ?_⟩
      exact List.not_mem_cons_of_ne_of_not_mem (differs sole) unclosed

theorem Inv.turnAway (inv : Inv cfg st) (fits : (refusal st.loginfo).length ≤ sizeofBuffer) :
    Inv cfg ({ storeRefusal st with next := st.next + 1 }.log (.closed st.next)) := by
  have stored : Inv cfg (storeRefusal st) := (inv.setBuffers _ _).logStore fits
  obtain ⟨session, stands⟩ := stored.session
  have unused : ∀ fd, st.conn fd ≠ some st.next :=
    fun fd given => absurd (inv.numbered fd _ given) (Nat.lt_irrefl _)
  refine ⟨stored.exchanges, ⟨session, stands.logClosed unused⟩, stored.descriptors,
    stored.survives, ?_, ?_⟩
  · refine List.forall_mem_cons.mpr ⟨Nat.lt_succ_self _, fun event member => ?_⟩
    exact (stored.recorded event member).mono (Nat.le_succ _)
  · exact fun fd c given => Nat.lt_succ_of_lt (inv.numbered fd c given)

theorem Inv.depart {fd c : Nat} (inv : Inv cfg st) (stands : Stands cfg st (.connected fd c)) :
    Inv cfg { st.close st.sa with
      readFds := st.readFds &&& ~~~bit 32 st.sa
      maxFd := max cfg.tty cfg.s + 1
      sa := 0
      logState := 0 } := by
  obtain ⟨_, rfl, sl, client, sole, _, _⟩ := stands
  have closing : st.close st.sa =
      { st with
        conn := Function.update st.conn st.sa none
        events := .closed c :: st.events } := by
    rw [State.close, sole.conn_eq]
  rw [closing]
  have gone : ∀ i, Function.update st.conn st.sa none i = none := by
    intro i
    rw [sole, Function.update_idem, Function.update_apply]
    split
    · rfl
    · rfl
  refine ⟨inv.exchanges, ⟨.nobody, rfl, rfl, sl, gone⟩, ?_, inv.survives, ?_, ?_⟩
  · intro i bound
    have none : NoClient { st with conn := Function.update st.conn st.sa none } := gone
    refine Iff.trans ?_ (none.isOpen_iff cfg i).symm
    rw [isSet_and_not_bit bound, inv.descriptors i bound, sole.isOpen_iff]
    have tty := client.ne_tty
    have s := client.ne_s
    omega
  · exact List.forall_mem_cons.mpr ⟨inv.numbered _ c sole.conn_eq, inv.recorded⟩
  · exact fun i d given => absurd (given.symm.trans (gone i)) (Option.some_ne_none d)

theorem Inv.checkPasswd {fd c : Nat} (inv : Inv cfg st) (stands : Stands cfg st (.loggingIn fd c))
    (reset : turn.loginReset = false) (short : turn.message.length < sizeofBuffer)
    (name : (userName st.inpass turn.message turn.following).length < sizeofBuffer) :
    Inv cfg (Rconsole.checkPasswd cfg turn (st.log (.stored .inpass turn.message.length))).2 ∧
      Stands cfg (Rconsole.checkPasswd cfg turn (st.log (.stored .inpass turn.message.length))).2
        (.loggingIn fd c) := by
  simp only [Rconsole.checkPasswd, reset, Bool.false_eq_true, if_false]
  constructor
  · exact (((inv.logStore (Nat.le_of_lt short)).setBuffers _ _).logStore short).logStore name
  · have kept : Stands cfg { st.log (.stored .inpass turn.message.length) with
        inpass := inpassAfter st.inpass turn.message
        loginfo := userName st.inpass turn.message turn.following } (.loggingIn fd c) :=
      stands.logStore .inpass turn.message.length
    exact (kept.logStore _ _).logStore _ _

theorem Inv.login (inv : Inv cfg st) (running : st.ended = none) (a : cfg.aFlag = true)
    (possible : Possible cfg st turn) (well : GoesWell cfg st turn) :
    Inv cfg (Rconsole.login cfg turn st) := by
  rw [Rconsole.login]
  split
  next asked =>
    obtain ⟨session, stands⟩ := inv.session
    cases session with
    | nobody =>
        have admitted : estLogin cfg turn st = (.check, { st.accept turn with logState := 1 }) := by
          simp only [estLogin, stands.1, well.login, a, Bool.false_eq_true, if_false, if_true]
        have alive : ({ st.accept turn with logState := 1 } : State).ended.isSome = false := by
          show st.ended.isSome = false
          rw [running, Option.isSome_none]
        simp only [admitted, alive, Bool.false_eq_true, if_false]
        exact inv.accept stands possible
    | loggingIn fd c =>
        obtain ⟨some, short, correct, name⟩ := well.message stands.1 ((Bool.or_eq_true _ _).mp asked)
        obtain ⟨checked, still⟩ := inv.checkPasswd stands well.login short name
        have alive : (Rconsole.checkPasswd cfg turn
            (st.log (.stored .inpass turn.message.length))).2.ended.isSome = false := by
          simp only [Rconsole.checkPasswd, well.login, Bool.false_eq_true, if_false]
          show st.ended.isSome = false
          rw [running, Option.isSome_none]
        have verdict : (Rconsole.checkPasswd cfg turn
            (st.log (.stored .inpass turn.message.length))).1 = true := correct
        cases result : Rconsole.checkPasswd cfg turn
            (st.log (.stored .inpass turn.message.length)) with
        | mk passed st' =>
            rw [result] at checked still alive verdict
            obtain rfl : passed = true := verdict
            have admitted : estLogin cfg turn st = (.ok, { st' with logState := 2 }) := by
              simp only [estLogin, stands.1, some, if_false, result]
            have alive' : ({ st' with logState := 2 } : State).ended.isSome = false := alive
            simp only [admitted, alive', Bool.false_eq_true, if_false]
            exact checked.letIn still
    | connected fd c =>
        have ready : isSet turn.ready cfg.s = true := by
          rcases (Bool.or_eq_true _ _).mp asked with ready | ready
          · exact ready
          · rw [stands.2.2.1, inv.not_ready_zero possible] at ready
            exact absurd ready Bool.false_ne_true
        have refused : estLogin cfg turn st =
            (.ignore, { storeRefusal st with next := st.next + 1 }.log (.closed st.next)) := by
          simp only [estLogin, stands.1, well.login, Bool.false_eq_true, if_false]
        simp only [refused, settle, ite_self]
        exact inv.turnAway (well.refusal stands.1 ready)
  next => exact inv

theorem Inv.connected_of_sa (inv : Inv cfg st) (used : st.sa ≠ 0) :
    ∃ c, Stands cfg st (.connected st.sa c) := by
  obtain ⟨session, stands⟩ := inv.session
  cases session with
  | nobody => exact absurd stands.2.1 used
  | loggingIn fd c => exact absurd stands.2.1 used
  | connected fd c =>
      obtain rfl := stands.2.1
      exact ⟨c, stands⟩

theorem Stands.entitled {fd c : Nat} (stands : Stands cfg st (.connected fd c)) :
    Entitled st.events (st.conn st.sa) := by
  obtain ⟨_, rfl, _, _, sole, accepted, unclosed⟩ := stands
  exact ⟨c, sole.conn_eq, accepted, unclosed⟩

theorem Inv.client (inv : Inv cfg st) (zero : isSet turn.ready 0 = false) :
    Inv cfg (Rconsole.client cfg turn st) := by
  rw [Rconsole.client]
  split
  next ready =>
    have used : st.sa ≠ 0 := by
      intro unused
      rw [unused, zero] at ready
      exact absurd ready Bool.false_ne_true
    obtain ⟨c, stands⟩ := inv.connected_of_sa used
    split
    next => exact inv.depart stands
    next =>
      have logged : Inv cfg (st.log (.fromClient (st.conn st.sa) turn.data)) :=
        inv.log ⟨stands.entitled, inv.exchanges⟩ nofun nofun trivial
      show Inv cfg (if _ then _ else _)
      split
      · exact logged.stop (Or.inr rfl)
      · exact logged
  next => exact inv

theorem Inv.console (inv : Inv cfg st) (reset : turn.clientReset = false) :
    Inv cfg (Rconsole.console cfg turn st) := by
  rw [Rconsole.console]
  split
  next =>
    split
    next => exact inv.stop (Or.inl rfl)
    next =>
      split
      next used =>
        obtain ⟨c, stands⟩ := inv.connected_of_sa used
        simp only [reset, Bool.false_eq_true, if_false]
        exact inv.log ⟨stands.entitled, inv.exchanges⟩ nofun nofun trivial
      next => exact inv
  next => exact inv

theorem Inv.whileRunning (inv : Inv cfg st) {part : State → State}
    (kept : Inv cfg st → Inv cfg (part st)) : Inv cfg (st.whileRunning part) := by
  rw [State.whileRunning]
  split
  · exact inv
  · exact kept inv

theorem Inv.step {st' : State} (inv : Inv cfg st) (a : cfg.aFlag = true)
    (well : GoesWell cfg st turn) (stepped : Rconsole.step cfg st turn = some st') :
    Inv cfg st' := by
  rw [Rconsole.step] at stepped
  split at stepped
  next => exact absurd stepped nofun
  next running =>
    rw [inv.select, if_neg Bool.false_ne_true] at stepped
    split at stepped
    next possible =>
      obtain rfl := Option.some.inj stepped
      have alive : st.ended = none := Option.not_isSome_iff_eq_none.mp running
      have zero := inv.not_ready_zero possible
      have first := inv.login alive a possible well
      exact (first.whileRunning fun inv => inv.client zero).whileRunning
        fun inv => inv.console well.client
    next => exact absurd stepped nofun

/-- With `-a`, every run whose turns go well is orderly at every `select`. -/
theorem orderly_of_goesWell (a : cfg.aFlag = true)
    (reached : (machine cfg).Reachable (GoesWell cfg) st) : Orderly cfg st := by
  refine Inv.orderly (reached.invariant (P := Inv cfg) ?_ ?_)
  · rintro _ rfl
    exact start_inv
  · intro st turn st' inv well stepped
    exact inv.step a well stepped

/-! ## A session that goes well, and a refused password -/

/-- Descriptors 3 and 5, and the password `a`. -/
def oneLetter : Config :=
  ⟨5, 3, true, fun password => password == [97], by decide, by decide, by decide, by decide,
    by decide⟩

/-- A turn in which nobody leaves; `free` is a descriptor not in use. -/
def quietTurn (ready free : Nat) (message : List UInt8) : Turn where
  ready := bit 32 ready
  accepted := free
  loginReset := false
  message := message
  following := []
  data := [98]
  stale := 0
  console := [99]
  clientReset := false

/-- A client connects, logs in as `u`, and gets what the console says. -/
def shortSession : List Turn :=
  [quietTurn 3 6 [], quietTurn 6 7 [97, 32, 117, 0], quietTurn 5 7 []]

set_option maxRecDepth 4000 in
theorem orderly_shortSession :
    ∃ st, (machine oneLetter).run (start oneLetter) shortSession = some st ∧
      st.events.head? = some (.toClient (some 0) [99]) ∧ Orderly oneLetter st := by
  obtain ⟨st, ran, last⟩ : ∃ st, (machine oneLetter).run (start oneLetter) shortSession = some st ∧
      st.events.head? = some (.toClient (some 0) [99]) := ⟨_, rfl, rfl⟩
  have meets : (machine oneLetter).Meets (GoesWell oneLetter) (start oneLetter) shortSession := by
    refine ⟨⟨rfl, rfl, by decide, by decide⟩, ⟨rfl, rfl, fun _ _ => by decide, by decide⟩,
      ⟨rfl, rfl, by decide, by decide⟩, trivial⟩
  exact ⟨st, ran, last, orderly_of_goesWell rfl (.of_run shortSession (.init rfl) ran meets)⟩

set_option maxRecDepth 4000 in
/-- A refused password leaves the descriptor in the set after it is closed. -/
theorem refused_password_keeps_descriptor :
    ∃ st, (machine oneLetter).run (start oneLetter)
        [quietTurn 3 6 [], quietTurn 6 7 [98, 32, 117, 0]] = some st ∧
      ¬Orderly oneLetter st := by
  refine ⟨_, rfl, fun orderly => ?_⟩
  have opened := (orderly.descriptors 6 (by decide)).mp (by decide)
  exact absurd opened (by decide)

end MachFormal.Rconsole
