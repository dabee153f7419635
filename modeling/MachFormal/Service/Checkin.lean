import MachFormal.Library.Machine
import MachFormal.Service.Messages

/-!
# The service server

The server creates one port for each service and hands its receive right to the
client that checks in for it; `taken` says that the right was handed out.  When
a holder dies the kernel sends the right to the backup port of the service, and
a client can send anything to that port, too.  Every receive right has one
holder: the server, a client, or a message in transit.  The kernel has
`port_set_backup`, so `compat_mode` is false.

A step is one message sent by a client, one turn of `serv_loop`, or one right
that a client gives up.  The kernel's answer to the reply that `serv_loop` sends
is an input of the turn.
-/

namespace MachFormal.Service

open MachFormal.Library

/-- The ports of the server, as `serv_init` allocated them; `own` is `SERVICE_SLOT`. -/
structure Server where
  count : Nat
  own : Nat
  service : Nat → Nat
  backup : Nat → Nat
  taskNotify : Nat
  taskSelf : Nat
  own_lt : own < count
  service_inj : ∀ i < count, ∀ j < count, service i = service j → i = j
  service_ne_null : ∀ i < count, service i ≠ portNull
  backup_ne_notify : ∀ i < count, backup i ≠ taskNotify
  service_ne_notify : ∀ i < count, service i ≠ taskNotify
  notify_ne_null : taskNotify ≠ portNull

inductive Holder where
  | server
  | client (c : Nat)
  | transit
  | dead
  deriving DecidableEq, Repr

/-- `backupOf` is the backup port that the kernel has for a port, or `PORT_NULL`; `queue` holds
all messages in transit. -/
structure State where
  taken : Nat → Bool
  holder : Nat → Holder
  backupOf : Nat → Nat
  queue : List Message

def notifyPortDestroyed : Nat := 69
def notifyReceiveRights : Nat := 68
def sizeofNotification : Nat := 32

/-! ## The kernel -/

/-- `NOTIFY_PORT_DESTROYED`, with the receive right of `p`. -/
def portDestroyed (backup p : Nat) : Message where
  simple := 0
  size := sizeofNotification
  localPort := backup
  remotePort := portNull
  id := notifyPortDestroyed
  body := [shortType msgTypePortAll 32 1, p]
  outOfLine := []

/-- `NOTIFY_RECEIVE_RIGHTS`: the owner of `p` has got its receive right back. -/
def receiveRightsBack (taskNotify p : Nat) : Message where
  simple := 1
  size := sizeofNotification
  localPort := taskNotify
  remotePort := portNull
  id := notifyReceiveRights
  body := [shortType msgTypePortReceive 32 1, p]
  outOfLine := []

def State.hold (s : State) (ports : List Nat) (holder : Holder) : State :=
  { s with holder := fun p => if p ∈ ports then holder else s.holder p }

/-- The message is taken from its queue, and what it carries goes to `holder`. -/
def State.unqueue (s : State) (m : Message) (holder : Holder) : State :=
  { s with queue := s.queue.erase m }.hold (carried m) holder

def State.enqueue (s : State) (m : Message) : State :=
  { s with queue := s.queue ++ [m] }.hold (carried m) .transit

/-- A receive right that nobody has any more goes to the backup port.  Where the server is still
the owner of the port, it gets the right back instead, with a notification. -/
def destroyRight (S : Server) (owner : Bool) (s : State) (p : Nat) : State :=
  if owner then
    { s with queue := s.queue ++ [receiveRightsBack S.taskNotify p] }.hold [p] .server
  else if s.backupOf p = portNull then s
  else { s with backupOf := Function.update s.backupOf p portNull }.enqueue
    (portDestroyed (s.backupOf p) p)

/-- `msg_copyin` lets a holder send a message only with receive rights of its own. -/
def maySend (s : State) (holder : Holder) (m : Message) : Bool :=
  match receiveRights m with
  | none => false
  | some rights => rights.Nodup ∧ ∀ p ∈ rights, s.holder p = holder

/-- What becomes of a message that the server sends: it is queued, it is destroyed after its
rights were copied in, or it is refused before. -/
inductive Outcome where
  | queued
  | destroyed
  | refused
  deriving DecidableEq, Repr

def msgSend (S : Server) (owner : Bool) (outcome : Outcome) (s : State) (m : Message) : State :=
  if maySend s .server m then
    match outcome with
    | .queued => s.enqueue m
    | .destroyed => (carried m).foldl (destroyRight S owner) (s.hold (carried m) .dead)
    | .refused => s
  else s

/-- `port_set_backup` by the server, which must be the receiver. -/
def portSetBackup (s : State) (p backup : Nat) : State :=
  if s.holder p = .server then { s with backupOf := Function.update s.backupOf p backup } else s

/-- `port_deallocate` by the server. -/
def portDeallocate (S : Server) (s : State) (p : Nat) : State :=
  if s.holder p = .server then destroyRight S false (s.hold [p] .dead) p else s

/-! ## The server -/

/-- The slot of a port name, by a search from slot 0. -/
def slotOf (S : Server) (name : Nat → Nat) (p : Nat) : Option Nat :=
  (List.range S.count).find? fun i => name i = p

def State.setTaken (s : State) (i : Nat) (taken : Bool) : State :=
  { s with taken := Function.update s.taken i taken }

def processRcvNotify (S : Server) (s : State) (m : Message) : State :=
  if m.id = notifyReceiveRights then
    match slotOf S S.service (notifyPort m) with
    | none => s
    | some i => s.setTaken i false
  else s

/-- The nine checks of `process_backup_notify`. -/
def genuine (S : Server) (i : Nat) (m : Message) : Bool :=
  ¬ (m.simple ≠ 0 ∨ m.id ≠ notifyPortDestroyed ∨ m.size ≠ sizeofNotification ∨
    (notifyType m).longform ≠ false ∨ (notifyType m).inline ≠ true ∨
    (notifyType m).name ≠ msgTypePortAll ∨ (notifyType m).size ≠ 32 ∨
    (notifyType m).number ≠ 1 ∨ notifyPort m ≠ S.service i)

def processBackupNotify (S : Server) (i : Nat) (s : State) (m : Message) : State :=
  if genuine S i m then
    portSetBackup (s.setTaken i false) (notifyPort m) (S.backup i)
  else s

/-- `do_checkin`: the granted port, and the new state. -/
def doCheckin (S : Server) (s : State) (requested : Nat) : Option Nat × State :=
  match slotOf S S.service requested with
  | none => (none, s)
  | some i => if s.taken i then (none, s) else (some requested, s.setTaken i true)

/-- The reply of `old_service_checkin` (400) or `service_checkin` (401). -/
def checkinReply (m : Message) (granted : Nat) : Message where
  simple := 0
  size := 40
  localPort := m.remotePort
  remotePort := portNull
  id := m.id + 100
  body := [shortType msgTypeInteger32 32 1, 0,
    shortType (if m.id = 400 then msgTypePortReceive else msgTypePortAll) 32 1, granted]
  outOfLine := []

def kernFailure : Nat := 5
def migBadId : Nat := 4294966993
def migBadArguments : Nat := 4294966992

/-- A reply that has only a return code. -/
def errorReply (m : Message) (code : Nat) : Message where
  simple := 1
  size := 32
  localPort := m.remotePort
  remotePort := portNull
  id := m.id + 100
  body := [shortType msgTypeInteger32 32 1, code]
  outOfLine := []

/-- What the generated `service_server` and the sending of the reply do with a request.
`typeCheck` stands for the generated checks of the request's format. -/
def serviceServer (S : Server) (typeCheck : Message → Bool) (owner : Bool) (outcome : Outcome)
    (s : State) (m : Message) : State :=
  let (reply, s) :=
    if m.id ≠ 400 ∧ m.id ≠ 401 then (errorReply m migBadId, s)
    else if ¬ typeCheck m then (errorReply m migBadArguments, s)
    else
      match doCheckin S s (notifyPort m) with
      | (some granted, s) => (checkinReply m granted, s)
      | (none, s) => (errorReply m kernFailure, s)
  if m.remotePort ≠ portNull then msgSend S owner outcome s reply else s

def msgDestroyPort (S : Server) (s : State) (p : Nat) : State :=
  if p = portNull ∨ p = S.taskSelf ∨ p = S.taskNotify ∨
    (slotOf S S.service p).isSome ∨ (slotOf S S.backup p).isSome then s
  else portDeallocate S s p

/-- One turn of `serv_loop` for the message `m`. -/
def servLoop (S : Server) (typeCheck : Message → Bool) (owner : Bool) (outcome : Outcome)
    (s : State) (m : Message) : State :=
  let s := s.unqueue m .server
  let s :=
    if m.localPort = S.taskNotify then processRcvNotify S s m
    else if m.localPort = S.service S.own then serviceServer S typeCheck owner outcome s m
    else match slotOf S S.backup m.localPort with
      | none => s
      | some i => processBackupNotify S i s m
  msgDestroyPort S (msgDestroyPort S s m.localPort) m.remotePort

/-! ## The system -/

/-- A client sends a message, receives one from a port that it holds, gives up a receive right
(also by its death), or sets a backup port; the server takes a message; a message at a dead port
is destroyed. -/
inductive Label where
  | send (c : Nat) (m : Message)
  | receive (c : Nat) (m : Message)
  | serve (m : Message) (owner : Bool) (outcome : Outcome)
  | release (c p : Nat) (owner : Bool)
  | setBackup (c p backup : Nat)
  | drop (m : Message) (owner : Bool)
  deriving DecidableEq, Repr

/-- A client has no send right for `task_notify()` of the server. -/
def step (S : Server) (typeCheck : Message → Bool) (s : State) : Label → Option State
  | .send c m =>
      if maySend s (.client c) m ∧ m.localPort ≠ S.taskNotify ∧ m.remotePort ≠ S.taskNotify then
        some (s.enqueue m)
      else none
  | .receive c m =>
      if m ∈ s.queue ∧ s.holder m.localPort = .client c then some (s.unqueue m (.client c))
      else none
  | .serve m owner outcome =>
      if m ∈ s.queue ∧ s.holder m.localPort = .server then
        some (servLoop S typeCheck owner outcome s m)
      else none
  | .release c p owner =>
      if p ≠ portNull ∧ s.holder p = .client c then
        some (destroyRight S owner (s.hold [p] .dead) p)
      else none
  | .setBackup c p backup =>
      if s.holder p = .client c ∧ backup ≠ S.taskNotify then
        some { s with backupOf := Function.update s.backupOf p backup }
      else none
  | .drop m owner =>
      if m ∈ s.queue ∧ s.holder m.localPort = .dead then
        some ((carried m).foldl (destroyRight S owner) (s.unqueue m .dead))
      else none

/-- After `serv_init`: the server has its ports, and nothing is in transit. -/
structure Initial (S : Server) (s : State) : Prop where
  taken : ∀ i < S.count, s.taken i = decide (i = S.own)
  service : ∀ i < S.count, s.holder (S.service i) = .server
  settled : ∀ p, s.holder p ≠ .transit
  backup : ∀ p, s.backupOf p ≠ S.taskNotify
  queue : s.queue = []

def machine (S : Server) (typeCheck : Message → Bool) : Machine State Label where
  init := Initial S
  step := step S typeCheck

/-! ## Rights are neither lost nor copied -/

/-- How often the messages of a queue carry the receive right of `p`. -/
def flight (queue : List Message) (p : Nat) : Nat :=
  (queue.flatMap carried).count p

/-- The message tells the server that it has got the receive right of `p` back. -/
def isNote (S : Server) (p : Nat) (m : Message) : Bool :=
  m.localPort = S.taskNotify ∧ m.id = notifyReceiveRights ∧ notifyPort m = p

def notes (S : Server) (queue : List Message) (p : Nat) : Nat :=
  queue.countP (isNote S p)

theorem flight_erase {queue : List Message} {m : Message} (hm : m ∈ queue) (p : Nat) :
    flight queue p = (carried m).count p + flight (queue.erase m) p := by
  have hperm := (List.perm_cons_erase hm).flatMap_right carried
  rw [flight, hperm.count_eq, List.flatMap_cons, List.count_append]
  rfl

theorem flight_append (queue : List Message) (m : Message) (p : Nat) :
    flight (queue ++ [m]) p = flight queue p + (carried m).count p := by
  simp [flight]

theorem notes_erase_le (S : Server) (queue : List Message) (m : Message) (p : Nat) :
    notes S (queue.erase m) p ≤ notes S queue p :=
  List.Sublist.countP_le List.erase_sublist

theorem notes_append {S : Server} {queue : List Message} {m : Message}
    (hm : m.localPort ≠ S.taskNotify) (p : Nat) : notes S (queue ++ [m]) p = notes S queue p := by
  simp [notes, isNote, hm]

/-- Every receive right has one holder, the server has the right of every service that is not
taken, and a notification that a right is back is for a service that is still marked taken. -/
structure Inv (S : Server) (s : State) : Prop where
  linear : ∀ p, flight s.queue p = if s.holder p = .transit then 1 else 0
  own : s.taken S.own = true ∧ s.holder (S.service S.own) = .server
  available : ∀ i < S.count, s.taken i = false → s.holder (S.service i) = .server
  noted : ∀ i < S.count, 0 < notes S s.queue (S.service i) →
    notes S s.queue (S.service i) = 1 ∧ i ≠ S.own ∧ s.taken i = true ∧
      s.holder (S.service i) = .server
  notify : (∀ p, s.backupOf p ≠ S.taskNotify) ∧ ∀ m ∈ s.queue, m.remotePort ≠ S.taskNotify

section Kernel

variable {S : Server} {s : State}

@[simp] theorem hold_queue (ports : List Nat) (holder : Holder) :
    (s.hold ports holder).queue = s.queue := rfl

@[simp] theorem hold_taken (ports : List Nat) (holder : Holder) :
    (s.hold ports holder).taken = s.taken := rfl

@[simp] theorem hold_backupOf (ports : List Nat) (holder : Holder) :
    (s.hold ports holder).backupOf = s.backupOf := rfl

theorem hold_holder (ports : List Nat) (holder : Holder) (p : Nat) :
    (s.hold ports holder).holder p = if p ∈ ports then holder else s.holder p := rfl

/-- A right that a queued message carries is in transit, and in no other message. -/
theorem Inv.in_transit (h : Inv S s) {m : Message} (hm : m ∈ s.queue) {p : Nat}
    (hp : p ∈ carried m) : s.holder p = .transit ∧ flight (s.queue.erase m) p = 0 := by
  have hlinear := h.linear p
  rw [flight_erase hm] at hlinear
  have hpos : 0 < (carried m).count p := List.count_pos_iff.mpr hp
  by_cases htransit : s.holder p = .transit
  · rw [if_pos htransit] at hlinear
    exact ⟨htransit, by omega⟩
  · rw [if_neg htransit] at hlinear
    omega

/-- A message leaves its queue and its rights go to a task, or to nobody. -/
theorem Inv.unqueue (h : Inv S s) {m : Message} (hm : m ∈ s.queue) {holder : Holder}
    (hholder : holder ≠ .transit) : Inv S (s.unqueue m holder) := by
  have hout : ∀ p, (s.unqueue m holder).holder p = if p ∈ carried m then holder else s.holder p :=
    fun p => rfl
  have hkeep : ∀ i, s.holder (S.service i) = .server →
      (s.unqueue m holder).holder (S.service i) = .server := by
    intro i hserver
    rw [hout, if_neg]
    · exact hserver
    · intro hp
      rw [(h.in_transit hm hp).1] at hserver
      cases hserver
  refine ⟨?_, ⟨h.own.1, hkeep _ h.own.2⟩, fun i hi ht => hkeep i (h.available i hi ht), ?_, h.notify.1,
    ?_⟩
  · intro p
    rw [hout]
    by_cases hp : p ∈ carried m
    · rw [if_pos hp, if_neg hholder]
      exact (h.in_transit hm hp).2
    · rw [if_neg hp, ← h.linear p, flight_erase hm, List.count_eq_zero_of_not_mem hp, Nat.zero_add]
      rfl
  · intro i hi hpos
    have hle := notes_erase_le S s.queue m (S.service i)
    have hpos : 0 < notes S (s.queue.erase m) (S.service i) := hpos
    obtain ⟨hone, hne, htaken, hserver⟩ := h.noted i hi (Nat.lt_of_lt_of_le hpos hle)
    refine ⟨?_, hne, htaken, hkeep i hserver⟩
    show notes S (s.queue.erase m) (S.service i) = 1
    omega
  · intro m' hm'
    exact h.notify.2 m' (List.mem_of_mem_erase hm')

/-- A message enters a queue with rights that its sender held; the server sends only the right
of a service that it has marked taken. -/
theorem Inv.enqueue (h : Inv S s) {m : Message} {sender : Holder} (hsender : sender ≠ .transit)
    (hnodup : (carried m).Nodup) (hheld : ∀ p ∈ carried m, s.holder p = sender)
    (hport : m.localPort ≠ S.taskNotify) (hreply : m.remotePort ≠ S.taskNotify)
    (hserver : sender = .server → ∀ i < S.count, S.service i ∈ carried m →
      s.taken i = true ∧ i ≠ S.own ∧ notes S s.queue (S.service i) = 0) :
    Inv S (s.enqueue m) := by
  have hout : ∀ p, (s.enqueue m).holder p = if p ∈ carried m then .transit else s.holder p :=
    fun p => rfl
  have hqueue : (s.enqueue m).queue = s.queue ++ [m] := rfl
  have hkeep : ∀ i, s.holder (S.service i) = .server → S.service i ∉ carried m →
      (s.enqueue m).holder (S.service i) = .server := by
    intro i hheld hp
    rw [hout, if_neg hp]
    exact hheld
  have hsent : ∀ i < S.count, s.holder (S.service i) = .server → S.service i ∈ carried m →
      s.taken i = true ∧ i ≠ S.own ∧ notes S s.queue (S.service i) = 0 :=
    fun i hi hs hp => hserver ((hheld _ hp).symm.trans hs) i hi hp
  refine ⟨?_, ⟨h.own.1, ?_⟩, ?_, ?_, h.notify.1, ?_⟩
  · intro p
    rw [hqueue, flight_append, hout, h.linear p]
    by_cases hp : p ∈ carried m
    · rw [if_pos hp, if_pos rfl, hheld p hp, if_neg hsender,
        List.count_eq_one_of_mem hnodup hp]
    · rw [if_neg hp, List.count_eq_zero_of_not_mem hp, Nat.add_zero]
  · refine hkeep _ h.own.2 (fun hp => ?_)
    exact (hsent S.own S.own_lt h.own.2 hp).2.1 rfl
  · intro i hi hfree
    have hheld := h.available i hi hfree
    refine hkeep i hheld (fun hp => ?_)
    have htaken := (hsent i hi hheld hp).1
    have hfree : s.taken i = false := hfree
    rw [hfree] at htaken
    cases htaken
  · intro i hi hpos
    rw [hqueue, notes_append hport] at hpos ⊢
    obtain ⟨hone, hne, htaken, hheld⟩ := h.noted i hi hpos
    refine ⟨hone, hne, htaken, hkeep i hheld (fun hp => ?_)⟩
    have hzero := (hsent i hi hheld hp).2.2
    omega
  · intro m' hm'
    rcases List.mem_append.mp hm' with hm' | hm'
    · exact h.notify.2 m' hm'
    · rw [List.mem_singleton.mp hm']
      exact hreply

theorem carried_portDestroyed {backup p : Nat} (hp : p ≠ portNull) :
    carried (portDestroyed backup p) = [p] := by
  have htype : notifyType (portDestroyed backup p) = ⟨msgTypePortAll, 32, 1, true, false⟩ := by
    simp only [notifyType, portDestroyed, List.getD_cons_zero]
    exact msgType_shortType (by decide) (by decide) (by decide)
  refine carried_of_portAll rfl rfl ?_ ?_ ?_ ?_ ?_ hp
  all_goals rw [htype]

/-- The rights of a service are held, or taken. -/
theorem Inv.taken_of_holder (h : Inv S s) {i : Nat} (hi : i < S.count)
    (hholder : s.holder (S.service i) ≠ .server) :
    s.taken i = true ∧ i ≠ S.own ∧ notes S s.queue (S.service i) = 0 := by
  refine ⟨?_, ?_, ?_⟩
  · by_contra htaken
    exact hholder (h.available i hi (Bool.eq_false_iff.mpr htaken))
  · rintro rfl
    exact hholder h.own.2
  · by_contra hnotes
    exact hholder (h.noted i hi (Nat.pos_of_ne_zero hnotes)).2.2.2

/-- The server gets a right back as the owner of the port. -/
theorem Inv.ownerBack (h : Inv S s) {p : Nat} (hdead : s.holder p = .dead) :
    Inv S ({ s with queue := s.queue ++ [receiveRightsBack S.taskNotify p] }.hold [p] .server) := by
  set s' := ({ s with queue := s.queue ++ [receiveRightsBack S.taskNotify p] } : State).hold [p]
    .server
  have hout : ∀ q, s'.holder q = if q ∈ [p] then .server else s.holder q := fun q => rfl
  have hkeep : ∀ q, s.holder q = .server → s'.holder q = .server := by
    intro q hq
    rw [hout]
    split
    · rfl
    · exact hq
  have hqueue : s'.queue = s.queue ++ [receiveRightsBack S.taskNotify p] := rfl
  have hnotes : ∀ q, notes S s'.queue q = notes S s.queue q + if p = q then 1 else 0 := by
    intro q
    rw [hqueue]
    simp [notes, isNote, receiveRightsBack, notifyPort, List.countP_append, List.countP_cons]
  refine ⟨?_, ⟨h.own.1, hkeep _ h.own.2⟩, fun i hi ht => hkeep _ (h.available i hi ht), ?_,
    h.notify.1, ?_⟩
  · intro q
    have hnone : carried (receiveRightsBack S.taskNotify p) = [] := rfl
    rw [hqueue, flight_append, hnone, List.count_nil, Nat.add_zero, h.linear q, hout]
    by_cases hqp : q = p
    · rw [hqp, if_pos (List.mem_singleton.mpr rfl), hdead]
      rfl
    · rw [if_neg (fun hin => hqp (List.mem_singleton.mp hin))]
  · intro i hi hpos
    rw [hnotes] at hpos ⊢
    by_cases hip : p = S.service i
    · have hheld : s.holder (S.service i) ≠ .server := by
        rw [← hip, hdead]
        decide
      obtain ⟨htaken, hne, hzero⟩ := h.taken_of_holder hi hheld
      refine ⟨by rw [if_pos hip, hzero], hne, htaken, ?_⟩
      rw [hout, if_pos (List.mem_singleton.mpr hip.symm)]
    · rw [if_neg hip, Nat.add_zero] at hpos ⊢
      obtain ⟨hone, hne, htaken, hheld⟩ := h.noted i hi hpos
      exact ⟨hone, hne, htaken, hkeep _ hheld⟩
  · intro m hm
    rcases List.mem_append.mp hm with hm | hm
    · exact h.notify.2 m hm
    · rw [List.mem_singleton.mp hm]
      exact S.notify_ne_null.symm

/-- A right that nobody has is sent to the backup port, or back to its owner. -/
theorem Inv.destroyRight (h : Inv S s) {owner : Bool} {p : Nat} (hp : p ≠ portNull)
    (hdead : s.holder p = .dead) : Inv S (destroyRight S owner s p) := by
  unfold Service.destroyRight
  split
  next => exact h.ownerBack hdead
  next =>
    split
    next => exact h
    next hbackup =>
      have hcarried := @carried_portDestroyed (s.backupOf p) p hp
      have hcleared : Inv S { s with backupOf := Function.update s.backupOf p portNull } := by
        refine { h with notify := ⟨?_, h.notify.2⟩ }
        intro q
        show Function.update s.backupOf p portNull q ≠ S.taskNotify
        rw [Function.update_apply]
        split
        · exact S.notify_ne_null.symm
        · exact h.notify.1 q
      refine @Inv.enqueue S _ hcleared _ .dead nofun ?_ ?_ (h.notify.1 p) S.notify_ne_null.symm nofun
      · rw [hcarried]
        exact List.nodup_singleton p
      · rw [hcarried]
        intro q hq
        rw [List.mem_singleton.mp hq]
        exact hdead

theorem destroyRight_holder {owner : Bool} {p q : Nat} (hp : p ≠ portNull) (hne : q ≠ p) :
    (destroyRight S owner s p).holder q = s.holder q := by
  unfold Service.destroyRight
  split
  next => rw [hold_holder, if_neg (fun hin => hne (List.mem_singleton.mp hin))]
  next =>
    split
    next => rfl
    next =>
      rw [State.enqueue, hold_holder, carried_portDestroyed hp,
        if_neg (fun hin => hne (List.mem_singleton.mp hin))]

/-- All the rights of a message that is destroyed. -/
theorem Inv.destroyRights (h : Inv S s) {owner : Bool} {ports : List Nat} (hnodup : ports.Nodup)
    (hports : ∀ p ∈ ports, p ≠ portNull ∧ s.holder p = .dead) :
    Inv S (ports.foldl (Service.destroyRight S owner) s) := by
  induction ports generalizing s with
  | nil => exact h
  | cons p rest ih =>
      obtain ⟨hfresh, hrest⟩ := List.nodup_cons.mp hnodup
      obtain ⟨hp, hdead⟩ := hports p List.mem_cons_self
      refine ih (h.destroyRight hp hdead) hrest ?_
      intro q hq
      obtain ⟨hq0, hqdead⟩ := hports q (List.mem_cons_of_mem p hq)
      have hne : q ≠ p := fun heq => hfresh (heq ▸ hq)
      exact ⟨hq0, (destroyRight_holder hp hne).trans hqdead⟩

/-- A message never carries `PORT_NULL`. -/
theorem ne_null_of_carried {m : Message} {p : Nat} (hp : p ∈ carried m) : p ≠ portNull := by
  unfold carried receiveRights at hp
  split at hp
  · cases hp
  · cases hitems : items (m.body.length + 1) (m.size - sizeofHeader) m.body m.outOfLine with
    | none =>
        rw [hitems] at hp
        cases hp
    | some list =>
        rw [hitems] at hp
        obtain ⟨item, -, hin⟩ := List.mem_flatMap.mp hp
        unfold itemRights at hin
        split at hin
        · exact of_decide_eq_true (List.mem_filter.mp hin).2
        · cases hin

/-- A message in a queue carries each of its rights once. -/
theorem Inv.carried_nodup (h : Inv S s) {m : Message} (hm : m ∈ s.queue) : (carried m).Nodup := by
  rw [List.nodup_iff_count_le_one]
  intro p
  have hlinear := h.linear p
  rw [flight_erase hm] at hlinear
  split at hlinear <;> omega

end Kernel

/-! ## The server keeps the rights of what is not taken -/

section Server

variable {S : Server} {s : State}

theorem slotOf_some {name : Nat → Nat} {p i : Nat} (h : slotOf S name p = some i) :
    i < S.count ∧ name i = p := by
  have hin := List.mem_of_find?_eq_some h
  have hname := List.find?_some h
  exact ⟨List.mem_range.mp hin, of_decide_eq_true hname⟩

theorem slotOf_service {p : Nat} (h : ¬ (slotOf S S.service p).isSome) :
    ∀ i < S.count, S.service i ≠ p := by
  intro i hi heq
  apply h
  rw [slotOf, List.find?_isSome]
  exact ⟨i, List.mem_range.mpr hi, decide_eq_true heq⟩

/-- The right of a service is back, and no notification about it is left. -/
theorem Inv.setFree (h : Inv S s) {i : Nat} (hne : i ≠ S.own)
    (hheld : s.holder (S.service i) = .server) (hnotes : notes S s.queue (S.service i) = 0) :
    Inv S (s.setTaken i false) := by
  have hother : ∀ j, j ≠ i → (s.setTaken i false).taken j = s.taken j :=
    fun j hj => Function.update_of_ne hj _ _
  refine ⟨h.linear, ⟨?_, h.own.2⟩, ?_, ?_, h.notify⟩
  · rw [hother _ (Ne.symm hne)]
    exact h.own.1
  · intro j hj hfree
    by_cases hji : j = i
    · rw [hji]
      exact hheld
    · rw [hother j hji] at hfree
      exact h.available j hj hfree
  · intro j hj hpos
    have hji : j ≠ i := by
      rintro rfl
      have hpos : 0 < notes S s.queue (S.service j) := hpos
      omega
    rw [hother j hji]
    exact h.noted j hj hpos

theorem Inv.setTaken (h : Inv S s) (i : Nat) : Inv S (s.setTaken i true) := by
  have hkeep : ∀ j, s.taken j = true → (s.setTaken i true).taken j = true := by
    intro j hj
    show Function.update s.taken i true j = true
    rw [Function.update_apply]
    split
    · rfl
    · exact hj
  refine ⟨h.linear, ⟨hkeep _ h.own.1, h.own.2⟩, ?_, ?_, h.notify⟩
  · intro j hj hfree
    refine h.available j hj ?_
    rw [Bool.eq_false_iff]
    intro htaken
    rw [hkeep j htaken] at hfree
    cases hfree
  · intro j hj hpos
    obtain ⟨hone, hne, htaken, hheld⟩ := h.noted j hj hpos
    exact ⟨hone, hne, hkeep j htaken, hheld⟩

theorem notes_of_mem {queue : List Message} {m : Message} {p : Nat} (hm : m ∈ queue)
    (hnote : isNote S p m = true) : notes S queue p = 1 + notes S (queue.erase m) p := by
  have hperm := (List.perm_cons_erase hm).countP_eq (isNote S p)
  rw [List.countP_cons_of_pos hnote] at hperm
  rw [notes, hperm, Nat.add_comm]
  rfl

theorem Inv.processRcvNotify (h : Inv S s) {m : Message} (hm : m ∈ s.queue)
    (hport : m.localPort = S.taskNotify) :
    Inv S (processRcvNotify S (s.unqueue m .server) m) := by
  have hinv := @Inv.unqueue S s h m hm .server nofun
  unfold Service.processRcvNotify
  split
  next hid =>
    cases hslot : slotOf S S.service (notifyPort m) with
    | none => exact hinv
    | some i =>
        obtain ⟨hi, hservice⟩ := slotOf_some hslot
        have hnote := @notes_of_mem S s.queue m (S.service i) hm
          (decide_eq_true ⟨hport, hid, hservice.symm⟩)
        obtain ⟨hone, hne, -, hheld⟩ := h.noted i hi (by omega)
        refine hinv.setFree hne ?_ ?_
        · show (if S.service i ∈ carried m then Holder.server else s.holder (S.service i)) = .server
          split
          · rfl
          · exact hheld
        · show notes S (s.queue.erase m) (S.service i) = 0
          omega
  next => exact hinv

/-- The nine checks, one by one. -/
theorem genuine_iff {i : Nat} {m : Message} : genuine S i m = true ↔
    m.simple = 0 ∧ m.id = notifyPortDestroyed ∧ m.size = sizeofNotification ∧
      (notifyType m).longform = false ∧ (notifyType m).inline = true ∧
      (notifyType m).name = msgTypePortAll ∧ (notifyType m).size = 32 ∧
      (notifyType m).number = 1 ∧ notifyPort m = S.service i := by
  unfold genuine
  simp only [decide_eq_true_eq, not_or, ne_eq, not_not]

/-- A message that passes the checks has brought the right back. -/
theorem carried_of_genuine {i : Nat} (hi : i < S.count) {m : Message}
    (hgenuine : genuine S i m = true) : S.service i ∈ carried m := by
  obtain ⟨hsimple, -, hsize, hlong, hinline, hname, hbits, hnumber, hport⟩ :=
    genuine_iff.mp hgenuine
  have hnull : notifyPort m ≠ portNull := hport ▸ S.service_ne_null i hi
  rw [carried_of_portAll hsimple hsize hlong hinline hname hbits hnumber hnull, hport]
  exact List.mem_singleton.mpr rfl

theorem Inv.portSetBackup (h : Inv S s) {p backup : Nat} (hbackup : backup ≠ S.taskNotify) :
    Inv S (portSetBackup s p backup) := by
  unfold Service.portSetBackup
  split
  next =>
    refine { h with notify := ⟨?_, h.notify.2⟩ }
    intro q
    show Function.update s.backupOf p backup q ≠ S.taskNotify
    rw [Function.update_apply]
    split
    · exact hbackup
    · exact h.notify.1 q
  next => exact h

theorem portSetBackup_taken (p backup : Nat) : (portSetBackup s p backup).taken = s.taken := by
  unfold Service.portSetBackup
  split <;> rfl

theorem Inv.processBackupNotify (h : Inv S s) {m : Message} (hm : m ∈ s.queue) {i : Nat}
    (hi : i < S.count) : Inv S (processBackupNotify S i (s.unqueue m .server) m) := by
  have hinv := @Inv.unqueue S s h m hm .server nofun
  unfold Service.processBackupNotify
  split
  next hgenuine =>
    have hin := carried_of_genuine hi hgenuine
    have htransit := (h.in_transit hm hin).1
    obtain ⟨-, hne, hnotes⟩ := h.taken_of_holder hi (by rw [htransit]; exact nofun)
    refine Inv.portSetBackup ?_ (S.backup_ne_notify i hi)
    refine hinv.setFree hne ?_ ?_
    · show (if S.service i ∈ carried m then Holder.server else s.holder (S.service i)) = .server
      rw [if_pos hin]
    · have hle := notes_erase_le S s.queue m (S.service i)
      show notes S (s.queue.erase m) (S.service i) = 0
      omega
  next => exact hinv

theorem carried_checkinReply {m : Message} {granted : Nat} (hgranted : granted ≠ portNull) :
    carried (checkinReply m granted) = [granted] := by
  have hgranted : granted ≠ 0 := hgranted
  by_cases hid : m.id = 400
  · simp [carried, receiveRights, checkinReply, items, descriptor, isPort, itemRights,
      sizeofHeader, hid, msgTypeInteger32, msgTypePortReceive, msgTypePortAll, portNull, hgranted]
  · simp [carried, receiveRights, checkinReply, items, descriptor, isPort, itemRights,
      sizeofHeader, hid, msgTypeInteger32, msgTypePortReceive, msgTypePortAll, portNull, hgranted]

/-- The server loses a right of a service that it has marked taken, or of some other port. -/
theorem Inv.discard (h : Inv S s) {p : Nat} (hp : s.holder p = .server)
    (htaken : ∀ i < S.count, S.service i = p →
      s.taken i = true ∧ i ≠ S.own ∧ notes S s.queue (S.service i) = 0) :
    Inv S (s.hold [p] .dead) := by
  have hkeep : ∀ i < S.count, S.service i ≠ p → s.holder (S.service i) = .server →
      (s.hold [p] .dead).holder (S.service i) = .server := by
    intro i _ hne hheld
    rw [hold_holder, if_neg (fun hin => hne (List.mem_singleton.mp hin))]
    exact hheld
  refine ⟨?_, ⟨h.own.1, ?_⟩, ?_, ?_, h.notify⟩
  · intro q
    rw [hold_queue, h.linear q, hold_holder]
    by_cases hq : q ∈ [p]
    · rw [if_pos hq, List.mem_singleton.mp hq, hp]
      rfl
    · rw [if_neg hq]
  · refine hkeep S.own S.own_lt (fun heq => ?_) h.own.2
    exact (htaken S.own S.own_lt heq).2.1 rfl
  · intro i hi hfree
    refine hkeep i hi (fun heq => ?_) (h.available i hi hfree)
    have hmarked := (htaken i hi heq).1
    have hfree : s.taken i = false := hfree
    rw [hfree] at hmarked
    cases hmarked
  · intro i hi hpos
    have hpos : 0 < notes S s.queue (S.service i) := hpos
    obtain ⟨hone, hne, hmarked, hheld⟩ := h.noted i hi hpos
    refine ⟨hone, hne, hmarked, hkeep i hi (fun heq => ?_) hheld⟩
    have hzero := (htaken i hi heq).2.2
    omega

/-- A client loses a right. -/
theorem Inv.abandon (h : Inv S s) {p c : Nat} (hp : s.holder p = .client c) :
    Inv S (s.hold [p] .dead) := by
  have hkeep : ∀ q, s.holder q = .server → (s.hold [p] .dead).holder q = .server := by
    intro q hq
    rw [hold_holder, if_neg]
    · exact hq
    · intro hin
      rw [List.mem_singleton.mp hin, hp] at hq
      cases hq
  refine ⟨?_, ⟨h.own.1, hkeep _ h.own.2⟩, fun i hi ht => hkeep _ (h.available i hi ht), ?_,
    h.notify⟩
  · intro q
    rw [hold_queue, h.linear q, hold_holder]
    by_cases hq : q ∈ [p]
    · rw [if_pos hq, List.mem_singleton.mp hq, hp]
      rfl
    · rw [if_neg hq]
  · intro i hi hpos
    obtain ⟨hone, hne, htaken, hheld⟩ := h.noted i hi hpos
    exact ⟨hone, hne, htaken, hkeep _ hheld⟩

/-- The server sends a message that carries no right, or the one that it has just granted. -/
theorem Inv.msgSend (h : Inv S s) {owner : Bool} {outcome : Outcome} {m : Message}
    (hport : m.localPort ≠ S.taskNotify) (hreply : m.remotePort ≠ S.taskNotify)
    (hcarried : carried m = [] ∨ ∃ i < S.count, carried m = [S.service i] ∧
      s.holder (S.service i) = .server ∧ s.taken i = true ∧ i ≠ S.own ∧
      notes S s.queue (S.service i) = 0) : Inv S (msgSend S owner outcome s m) := by
  unfold Service.msgSend
  split
  next =>
    have hnodup : (carried m).Nodup := by
      rcases hcarried with heq | ⟨i, -, heq, -⟩ <;> rw [heq] <;> simp
    have hheld : ∀ p ∈ carried m, s.holder p = .server := by
      intro p hp
      rcases hcarried with heq | ⟨i, -, heq, hheld, -⟩ <;> rw [heq] at hp
      · cases hp
      · rw [List.mem_singleton.mp hp]
        exact hheld
    have htaken : ∀ j < S.count, S.service j ∈ carried m →
        s.taken j = true ∧ j ≠ S.own ∧ notes S s.queue (S.service j) = 0 := by
      intro j hj hp
      rcases hcarried with heq | ⟨i, hi, heq, -, hfacts⟩ <;> rw [heq] at hp
      · cases hp
      · rw [S.service_inj j hj i hi (List.mem_singleton.mp hp)]
        exact hfacts
    cases outcome with
    | queued => exact @Inv.enqueue S s h m .server nofun hnodup hheld hport hreply (fun _ => htaken)
    | refused => exact h
    | destroyed =>
        rcases hcarried with heq | ⟨i, hi, heq, hserver, hfacts⟩
        · simp only [heq]
          have hnone : s.hold [] .dead = s := by
            simp [State.hold]
          rw [hnone]
          exact h
        · simp only [heq]
          refine Inv.destroyRights (h.discard hserver ?_) (List.nodup_singleton _) ?_
          · intro j hj hname
            rw [S.service_inj j hj i hi hname]
            exact hfacts
          · intro p hp
            rw [List.mem_singleton.mp hp, hold_holder, if_pos (List.mem_singleton.mpr rfl)]
            exact ⟨S.service_ne_null i hi, rfl⟩
  next => exact h

/-- A request is granted only when the server has the right. -/
theorem Inv.doCheckin (h : Inv S s) {requested granted : Nat} {s' : State}
    (hcheckin : doCheckin S s requested = (some granted, s')) :
    Inv S s' ∧ s.holder granted = .server ∧ ∃ i < S.count, S.service i = granted ∧
      s'.holder (S.service i) = .server ∧ s'.taken i = true ∧ i ≠ S.own ∧
      notes S s'.queue (S.service i) = 0 := by
  unfold Service.doCheckin at hcheckin
  split at hcheckin
  next => cases hcheckin
  next i hslot =>
    obtain ⟨hi, hname⟩ := slotOf_some hslot
    split at hcheckin
    next => cases hcheckin
    next hfree =>
      cases hcheckin
      have hfree : s.taken i = false := Bool.eq_false_iff.mpr hfree
      have hheld := h.available i hi hfree
      have hne : i ≠ S.own := by
        rintro rfl
        rw [h.own.1] at hfree
        cases hfree
      have hnotes : notes S s.queue (S.service i) = 0 := by
        by_contra hpos
        rw [(h.noted i hi (Nat.pos_of_ne_zero hpos)).2.2.1] at hfree
        cases hfree
      exact ⟨h.setTaken i, hname ▸ hheld, i, hi, hname, hheld, Function.update_self _ _ _, hne,
        hnotes⟩

theorem Inv.serviceServer (h : Inv S s) {typeCheck : Message → Bool} {owner : Bool}
    {outcome : Outcome} {m : Message} (hreply : m.remotePort ≠ S.taskNotify) :
    Inv S (serviceServer S typeCheck owner outcome s m) := by
  have herror : ∀ code, Inv S (if m.remotePort ≠ portNull then
      Service.msgSend S owner outcome s (errorReply m code) else s) := by
    intro code
    split
    next => exact h.msgSend hreply S.notify_ne_null.symm (Or.inl rfl)
    next => exact h
  unfold Service.serviceServer
  split
  next reply s' heq =>
    split at heq
    next =>
      cases heq
      exact herror _
    next =>
      split at heq
      next =>
        cases heq
        exact herror _
      next =>
        split at heq
        next granted s'' hcheckin =>
          cases heq
          obtain ⟨hinv, -, i, hi, hname, hfacts⟩ := h.doCheckin hcheckin
          have hcarried := @carried_checkinReply m granted (hname ▸ S.service_ne_null i hi)
          split
          next =>
            refine hinv.msgSend hreply S.notify_ne_null.symm (Or.inr ⟨i, hi, ?_, hfacts⟩)
            rw [hcarried, hname]
          next => exact hinv
        next s'' hcheckin =>
          cases heq
          have hsame : s' = s := by
            unfold Service.doCheckin at hcheckin
            split at hcheckin
            next =>
              cases hcheckin
              rfl
            next =>
              split at hcheckin
              next =>
                cases hcheckin
                rfl
              next => cases hcheckin
          rw [hsame]
          exact herror _

theorem Inv.msgDestroyPort (h : Inv S s) (p : Nat) : Inv S (msgDestroyPort S s p) := by
  unfold Service.msgDestroyPort
  split
  next => exact h
  next hother =>
    simp only [not_or] at hother
    obtain ⟨hnull, -, -, hservice, -⟩ := hother
    unfold portDeallocate
    split
    next hheld =>
      refine Inv.destroyRight (h.discard hheld ?_) hnull ?_
      · intro i hi hname
        exact absurd hname (slotOf_service hservice i hi)
      · rw [hold_holder, if_pos (List.mem_singleton.mpr rfl)]
    next => exact h

theorem Inv.servLoop (h : Inv S s) {typeCheck : Message → Bool} {owner : Bool}
    {outcome : Outcome} {m : Message} (hm : m ∈ s.queue) :
    Inv S (servLoop S typeCheck owner outcome s m) := by
  unfold Service.servLoop
  refine Inv.msgDestroyPort (Inv.msgDestroyPort ?_ _) _
  split
  next hport => exact h.processRcvNotify hm hport
  next =>
    have hinv := @Inv.unqueue S s h m hm .server nofun
    split
    next => exact hinv.serviceServer (h.notify.2 m hm)
    next =>
      split
      next => exact hinv
      next i hslot => exact h.processBackupNotify hm (slotOf_some hslot).1

theorem destroyRight_taken (owner : Bool) (p : Nat) :
    (destroyRight S owner s p).taken = s.taken := by
  unfold destroyRight
  split
  · rfl
  · split <;> rfl

theorem msgDestroyPort_taken (p : Nat) : (msgDestroyPort S s p).taken = s.taken := by
  unfold msgDestroyPort portDeallocate
  split
  · rfl
  · split
    · exact destroyRight_taken false p
    · rfl

/-- The message is a notification that `serv_loop` accepts for slot `i`. -/
def Accepted (S : Server) (i : Nat) (m : Message) : Prop :=
  (m.localPort = S.taskNotify ∧ m.id = notifyReceiveRights ∧
    slotOf S S.service (notifyPort m) = some i) ∨
  (m.localPort ≠ S.taskNotify ∧ m.localPort ≠ S.service S.own ∧
    slotOf S S.backup m.localPort = some i ∧ genuine S i m = true)

theorem servLoop_taken_of_accepted {typeCheck : Message → Bool} {owner : Bool} {outcome : Outcome}
    {m : Message} {i : Nat} (haccepted : Accepted S i m) :
    (servLoop S typeCheck owner outcome s m).taken i = false := by
  unfold servLoop
  rw [msgDestroyPort_taken, msgDestroyPort_taken]
  rcases haccepted with ⟨hport, hid, hslot⟩ | ⟨hport, hservice, hslot, hgenuine⟩
  · rw [if_pos hport, processRcvNotify, if_pos hid, hslot]
    exact Function.update_self _ _ _
  · rw [if_neg hport, if_neg hservice, hslot]
    simp only [processBackupNotify, hgenuine, if_true]
    rw [portSetBackup_taken]
    exact Function.update_self _ _ _

theorem maySend_iff {holder : Holder} {m : Message} (h : maySend s holder m = true) :
    (carried m).Nodup ∧ ∀ p ∈ carried m, s.holder p = holder := by
  unfold maySend at h
  unfold carried
  cases hrights : receiveRights m with
  | none =>
      rw [hrights] at h
      cases h
  | some rights =>
      rw [hrights] at h
      exact of_decide_eq_true h

theorem Inv.step {typeCheck : Message → Bool} {label : Label} {s' : State} (h : Inv S s)
    (hstep : step S typeCheck s label = some s') : Inv S s' := by
  cases label with
  | send c m =>
      simp only [Service.step] at hstep
      split at hstep
      next hguard =>
        cases hstep
        obtain ⟨hsend, hport, hreply⟩ := hguard
        obtain ⟨hnodup, hheld⟩ := maySend_iff hsend
        exact @Inv.enqueue S s h m (.client c) nofun hnodup hheld hport hreply nofun
      next => cases hstep
  | receive c m =>
      simp only [Service.step] at hstep
      split at hstep
      next hguard =>
        cases hstep
        exact h.unqueue hguard.1 nofun
      next => cases hstep
  | serve m owner outcome =>
      simp only [Service.step] at hstep
      split at hstep
      next hguard =>
        cases hstep
        exact h.servLoop hguard.1
      next => cases hstep
  | release c p owner =>
      simp only [Service.step] at hstep
      split at hstep
      next hguard =>
        cases hstep
        refine Inv.destroyRight (h.abandon hguard.2) hguard.1 ?_
        rw [hold_holder, if_pos (List.mem_singleton.mpr rfl)]
      next => cases hstep
  | setBackup c p backup =>
      simp only [Service.step] at hstep
      split at hstep
      next hguard =>
        cases hstep
        refine { h with notify := ⟨?_, h.notify.2⟩ }
        intro q
        show Function.update s.backupOf p backup q ≠ S.taskNotify
        rw [Function.update_apply]
        split
        · exact hguard.2
        · exact h.notify.1 q
      next => cases hstep
  | drop m owner =>
      simp only [Service.step] at hstep
      split at hstep
      next hguard =>
        cases hstep
        refine Inv.destroyRights (@Inv.unqueue S s h m hguard.1 .dead nofun)
          (h.carried_nodup hguard.1) ?_
        intro p hp
        refine ⟨ne_null_of_carried hp, ?_⟩
        show (if p ∈ carried m then Holder.dead else s.holder p) = .dead
        rw [if_pos hp]
      next => cases hstep

theorem initial_inv (h : Initial S s) : Inv S s := by
  have hnotes : ∀ p, notes S s.queue p = 0 := by
    intro p
    rw [h.queue]
    rfl
  refine ⟨?_, ⟨?_, h.service S.own S.own_lt⟩, fun i hi _ => h.service i hi, ?_, h.backup, ?_⟩
  · intro p
    rw [h.queue, if_neg (h.settled p)]
    rfl
  · rw [h.taken S.own S.own_lt]
    exact decide_eq_true rfl
  · intro i _ hpos
    rw [hnotes] at hpos
    cases hpos
  · rw [h.queue]
    exact nofun

theorem inv_of_reachable {typeCheck : Message → Bool}
    (hreach : (machine S typeCheck).Reachable Machine.always s) : Inv S s := by
  refine hreach.invariant ?_ ?_
  · intro s hinit
    exact initial_inv hinit
  · intro s label s' h _ hstep
    exact h.step hstep

/-- A service that is not taken is with the server, a request is granted only when the server
has the right, and a notification that is accepted frees the service whose right it brought. -/
theorem service_exclusive {typeCheck : Message → Bool}
    (hreach : (machine S typeCheck).Reachable Machine.always s) :
    (∀ i < S.count, i ≠ S.own → s.taken i = false → s.holder (S.service i) = .server) ∧
    (∀ m ∈ s.queue, ∀ requested granted s',
      doCheckin S (s.unqueue m .server) requested = (some granted, s') →
      (s.unqueue m .server).holder granted = .server) ∧
    ∀ m ∈ s.queue, ∀ i, Accepted S i m → ∀ owner outcome,
      (servLoop S typeCheck owner outcome s m).taken i = false ∧
      (servLoop S typeCheck owner outcome s m).holder (S.service i) = .server := by
  have h := inv_of_reachable hreach
  refine ⟨fun i hi _ => h.available i hi, ?_, ?_⟩
  · intro m hm requested granted s' hcheckin
    exact (Inv.doCheckin (@Inv.unqueue S s h m hm .server nofun) hcheckin).2.1
  · intro m hm i haccepted owner outcome
    have hi : i < S.count := by
      rcases haccepted with ⟨-, -, hslot⟩ | ⟨-, -, hslot, -⟩ <;> exact (slotOf_some hslot).1
    have hfree := @servLoop_taken_of_accepted S s typeCheck owner outcome m i haccepted
    exact ⟨hfree, (h.servLoop hm).available i hi hfree⟩

end Server

/-- Two services; slot 0 is the server's own. -/
def twoServices : Server where
  count := 2
  own := 0
  service := fun i => 10 + i
  backup := fun i => 20 + i
  taskNotify := 5
  taskSelf := 6
  own_lt := by decide
  service_inj := fun _ _ _ _ same => Nat.add_left_cancel same
  service_ne_null := fun i _ => Nat.ne_of_gt (Nat.add_pos_left (by decide) i)
  backup_ne_notify := fun i _ => Nat.ne_of_gt (Nat.lt_add_right i (by decide))
  service_ne_notify := fun i _ => Nat.ne_of_gt (Nat.lt_add_right i (by decide))
  notify_ne_null := by decide

/-- All ports but the server's belong to client 1. -/
def twoServicesStart : State where
  taken := fun i => i = 0
  holder := fun p => if p < 30 then .server else .client 1
  backupOf := fun p => if p = 11 then 21 else 0
  queue := []

def checkinRequest : Message := ⟨0, 32, 10, 30, 401, [shortType 6 32 1, 11], []⟩
def forgedReturn : Message := ⟨1, 32, 21, 0, 69, [shortType 5 32 1, 11], []⟩

/-- A client gets service 1, sends a forged notification while it has the right, and dies. -/
def checkinRun : List Label :=
  [.send 1 checkinRequest, .serve checkinRequest false .queued,
    .receive 1 (checkinReply checkinRequest 11), .send 1 forgedReturn,
    .serve forgedReturn false .queued, .release 1 11 false]

theorem service_exclusive_checkinRun : ∃ s,
    (machine twoServices (fun _ => true)).run twoServicesStart checkinRun = some s ∧
    s.taken 1 = true ∧ s.queue = [portDestroyed 21 11] ∧
    (servLoop twoServices (fun _ => true) false .queued s (portDestroyed 21 11)).taken 1 = false ∧
    (servLoop twoServices (fun _ => true) false .queued s (portDestroyed 21 11)).holder 11 =
      .server := by
  obtain ⟨s, hrun⟩ : ∃ s,
    (machine twoServices (fun _ => true)).run twoServicesStart checkinRun = some s := ⟨_, rfl⟩
  have hresult : s.taken 1 = true ∧ s.queue = [portDestroyed 21 11] := by
    cases Option.some.inj hrun
    exact ⟨rfl, rfl⟩
  have hinit : Initial twoServices twoServicesStart := by
    refine ⟨fun i _ => rfl, ?_, ?_, ?_, rfl⟩
    · intro i hi
      have hlt : 10 + i < 30 := by
        have hi : i < 2 := hi
        omega
      exact if_pos hlt
    · intro p
      simp only [twoServicesStart]
      split <;> exact nofun
    · intro p
      simp only [twoServicesStart, twoServices]
      split <;> decide
  have hreach : (machine twoServices (fun _ => true)).Reachable Machine.always s :=
    .of_run checkinRun (.init hinit) hrun (Machine.meets_of_forall (fun _ _ _ => trivial))
  have hin : portDestroyed 21 11 ∈ s.queue := by
    rw [hresult.2]
    exact List.mem_singleton.mpr rfl
  have haccepted : Accepted twoServices 1 (portDestroyed 21 11) :=
    Or.inr ⟨by decide, by decide, by decide, by decide +kernel⟩
  obtain ⟨-, -, hreturn⟩ := service_exclusive hreach
  have hback := hreturn _ hin 1 haccepted false .queued
  exact ⟨s, hrun, hresult.1, hresult.2, hback.1, hback.2⟩

end MachFormal.Service
