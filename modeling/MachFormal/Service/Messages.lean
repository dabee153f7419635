import Mathlib.Data.List.Nodup
import Mathlib.Logic.Function.Basic

/-!
# Messages and the receive rights they carry

A message is a header and the words of its body.  The kernel reads the body of a
message that is not simple as a sequence of type descriptors, each followed by
its data or by a pointer to it, and moves the receive rights that the port
descriptors name from the sender into the message.  The words of a simple
message, and the words that a descriptor does not call ports, are just numbers.
-/

namespace MachFormal.Service

/-- The fields of `msg_type_t`. -/
structure MsgType where
  name : Nat
  size : Nat
  number : Nat
  inline : Bool
  longform : Bool
  deriving DecidableEq, Repr

/-- A word of the body read as a `msg_type_t`. -/
def msgType (w : Nat) : MsgType where
  name := w % 256
  size := w / 256 % 256
  number := w / 65536 % 4096
  inline := w / 268435456 % 2 = 1
  longform := w / 536870912 % 2 = 1

/-- The descriptor in short form of inline data. -/
def shortType (name size number : Nat) : Nat :=
  name + 256 * size + 65536 * number + 268435456

def portNull : Nat := 0
def msgTypeInteger32 : Nat := 2
def msgTypePortReceive : Nat := 4
def msgTypePortAll : Nat := 5
def sizeofHeader : Nat := 24

/-- `MSG_TYPE_PORT_ANY`. -/
def isPort (name : Nat) : Bool :=
  3 ≤ name ∧ name ≤ 6

/-- A message in transit or received: `msg_local_port` is the port it is queued at,
`msg_remote_port` the reply port.  `outOfLine` is the data that the pointers in the body, from
left to right, stand for. -/
structure Message where
  simple : Nat
  size : Nat
  localPort : Nat
  remotePort : Nat
  id : Nat
  body : List Nat
  outOfLine : List (List Nat)
  deriving DecidableEq, Repr

/-- Name, size and number of an item, how many bytes its descriptor takes, and what follows. -/
def descriptor (w : Nat) (rest : List Nat) : Option (Nat × Nat × Nat × Nat × List Nat) :=
  if (msgType w).longform then
    match rest with
    | nameSize :: number :: rest =>
        some (nameSize % 65536, nameSize / 65536 % 65536, number, 12, rest)
    | _ => none
  else some ((msgType w).name, (msgType w).size, (msgType w).number, 4, rest)

/-- The loop of `msg_copyin` over a body of which `left` bytes are left: the name and the data
words of every item, or none where the message is refused. -/
def items : Nat → Nat → List Nat → List (List Nat) → Option (List (Nat × List Nat))
  | 0, _, _, _ => none
  | _ + 1, 0, _, _ => some []
  | _ + 1, _ + 1, [], _ => none
  | fuel + 1, left + 1, w :: rest, outOfLine =>
      (descriptor w rest).bind fun (name, size, number, used, rest) =>
        let numbytes := (number * size + 7) / 8
        let left := left + 1 - used
        if left < (if (msgType w).inline then numbytes else 4) then none
        else if isPort name ∧ size ≠ 32 then none
        else if (msgType w).inline then
          let n := (numbytes + 3) / 4
          (items fuel (left - 4 * n) (rest.drop n) outOfLine).map ((name, rest.take n) :: ·)
        else
          match rest, outOfLine with
          | _ :: rest, data :: outOfLine =>
              (items fuel (left - 4) rest outOfLine).map ((name, data.take number) :: ·)
          | _, _ => none

/-- The receive rights that an item moves. -/
def itemRights (item : Nat × List Nat) : List Nat :=
  if item.1 = msgTypePortReceive ∨ item.1 = msgTypePortAll then
    item.2.filter (· ≠ portNull)
  else []

/-- The receive rights that a message carries; none where `msg_copyin` refuses it. -/
def receiveRights (m : Message) : Option (List Nat) :=
  if m.simple ≠ 0 then some []
  else (items (m.body.length + 1) (m.size - sizeofHeader) m.body m.outOfLine).map
    fun items => items.flatMap itemRights

def carried (m : Message) : List Nat :=
  (receiveRights m).getD []

/-- The second word of the body, `notify_port` of a `notification_t`. -/
def notifyPort (m : Message) : Nat :=
  m.body.getD 1 portNull

def notifyType (m : Message) : MsgType :=
  msgType (m.body.getD 0 0)

@[simp] theorem msgType_shortType {name size number : Nat} (hname : name < 256)
    (hsize : size < 256) (hnumber : number < 4096) :
    msgType (shortType name size number) = ⟨name, size, number, true, false⟩ := by
  simp only [msgType, shortType, MsgType.mk.injEq]
  refine ⟨by omega, by omega, by omega, decide_eq_true (by omega), decide_eq_false (by omega)⟩

/-- What the descriptor of one inline port says, happens: the right is in the message. -/
theorem carried_of_portAll {m : Message} (hsimple : m.simple = 0) (hsize : m.size = 32)
    (hlong : (notifyType m).longform = false) (hinline : (notifyType m).inline = true)
    (hname : (notifyType m).name = msgTypePortAll) (hbits : (notifyType m).size = 32)
    (hnumber : (notifyType m).number = 1) (hport : notifyPort m ≠ portNull) :
    carried m = [notifyPort m] := by
  obtain ⟨simple, size, localPort, remotePort, id, body, outOfLine⟩ := m
  subst hsimple hsize
  match body with
  | [] => exact absurd rfl hport
  | [w] => exact absurd rfl hport
  | w :: p :: rest =>
      have hp : p ≠ 0 := hport
      simp only [notifyType, List.getD_cons_zero] at hlong hinline hname hbits hnumber
      simp [carried, receiveRights, items, descriptor, sizeofHeader, hlong, hinline, hname, hbits,
        hnumber, isPort, msgTypePortAll, itemRights, notifyPort, portNull, hp]

end MachFormal.Service
