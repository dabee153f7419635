import Mathlib.Algebra.Order.Group.Nat
import Mathlib.Data.Int.Basic
import MachFormal.Library.Machine

/-!
# Dead references of file-backed istructs

`inode_pager_setup` hands out references to a memory object behind the pager's
back, and `inode_pager_release` forges a `memory_object_terminate` message for
an object that nobody mapped.  A release is interrupted only while it sends
that message, so it is two steps when it sends and one step otherwise.  An
istruct and its memory object port are named by one number, the order of their
creation.  Every read or write of a record that was freed is recorded as a fault.
-/

namespace MachFormal.InodePager.DeadReferences

open MachFormal.Library

/-- The fields of an `istruct` that decide its lifetime, the reference count of
its memory object port, and the number of times it went through `zfree`. -/
structure Istruct where
  clientCount : Int
  deadReferences : Int
  freeMe : Bool
  pagerGlobal : Bool
  objReferences : Int
  freed : Nat
  deriving DecidableEq, Repr

/-- The reference count behind `pager_global`, or `PORT_NULL`. -/
def Istruct.globalPort (record : Istruct) : Option Int :=
  if record.pagerGlobal then some record.objReferences else none

/-- Messages queued on the ports of the pager task. -/
inductive Message where
  | init (is : Nat)
  | terminate (is : Nat)
  deriving DecidableEq, Repr

/-- One file.  `pager` is `ip->i_vm_info->pager`; `hashed` are the associations of
the port hash table; `holding` lists the holders that did not start a release,
`sending` the releases that are inside their send. -/
structure State where
  istruct : Nat → Istruct
  created : Nat
  pager : Option Nat
  hashed : List Nat
  holding : List Nat
  sending : List Nat
  queue : List Message
  fault : Bool

/-- Read or write the fields of a record; a freed record is a fault. -/
def State.modify (s : State) (is : Nat) (f : Istruct → Istruct) : State :=
  { s with
    istruct := Function.update s.istruct is (f (s.istruct is))
    fault := s.fault || decide (0 < (s.istruct is).freed) }

/-- Change the reference count of the port, which outlives the record. -/
def State.portAdd (s : State) (is : Nat) (amount : Int) : State :=
  { s with
    istruct := Function.update s.istruct is
      { s.istruct is with objReferences := (s.istruct is).objReferences + amount } }

/-- `inode_pager_no_more_senders`: only the pager's own three references are left.
The object is given by its reference count, or is `PORT_NULL`. -/
def inodePagerNoMoreSenders (object : Option Int) (deadReferences : Int) : Bool :=
  match object with
  | none => true
  | some count => decide (count - deadReferences ≤ 3)

/-- The record `inode_pager_setup` creates: the task's port rights, the port set
membership and `pager_global` are the first three references. -/
def newIstruct : Istruct := ⟨0, 0, false, true, 3, 0⟩

/-- `inode_pager_setup` of the file. -/
def inodePagerSetup (s : State) : State :=
  match s.pager with
  | none =>
      { s with
        istruct := Function.update s.istruct s.created
          { newIstruct with objReferences := newIstruct.objReferences + 1 }
        created := s.created + 1
        pager := some s.created
        hashed := s.created :: s.hashed
        holding := s.created :: s.holding }
  | some is =>
      let s' := (if is ∈ s.hashed then s.modify is id else s).portAdd is 1
      { s' with holding := is :: s'.holding }

/-- `zfree` of the record. -/
def free (s : State) (is : Nat) : State :=
  s.modify is (fun record => { record with freed := record.freed + 1 })

/-- `inode_pager_release` after its send: drop the reference, then the dead
reference, and free the record if that was the last one. -/
def inodePagerReleaseEnd (s : State) (is : Nat) : State :=
  let s' := (s.portAdd is (-1)).modify is
    (fun record => { record with deadReferences := record.deadReferences - 1 })
  if (s'.istruct is).deadReferences = 0 ∧ (s'.istruct is).freeMe = true then free s' is else s'

/-- `inode_pager_release` of one holder, up to its send when there is one. -/
def inodePagerRelease (s : State) (is : Nat) : State :=
  let s' := { s with holding := s.holding.erase is }
  if is ∈ s.hashed then
    let s'' := s'.modify is
      (fun record => { record with deadReferences := record.deadReferences + 1 })
    if inodePagerNoMoreSenders (some (s''.istruct is).objReferences)
        (s''.istruct is).deadReferences then
      { s'' with sending := is :: s''.sending, queue := s''.queue ++ [.terminate is] }
    else inodePagerReleaseEnd s'' is
  else s'.portAdd is (-1)

/-- The handler of `memory_object_init`. -/
def memoryObjectInit (s : State) (is : Nat) : State :=
  if is ∈ s.hashed then
    s.modify is (fun record => { record with clientCount := record.clientCount + 1 })
  else s

/-- The part of `memory_object_terminate` that destroys the object. -/
def destroyObject (s : State) (is : Nat) : State :=
  let s' := (s.modify is (fun record => { record with pagerGlobal := false })).portAdd is (-3)
  let s'' := { s' with pager := none, hashed := s'.hashed.erase is }
  if (s''.istruct is).deadReferences = 0 then free s'' is
  else s''.modify is (fun record => { record with freeMe := true })

/-- The handler of `memory_object_terminate`. -/
def memoryObjectTerminate (s : State) (is : Nat) : State :=
  if is ∈ s.hashed then
    let s' := s.modify is (fun record => { record with clientCount := record.clientCount - 1 })
    if inodePagerNoMoreSenders (s'.istruct is).globalPort (s'.istruct is).deadReferences then
      destroyObject s' is
    else s'
  else s

/-- What may happen next. -/
inductive Label where
  | setup
  | release (is : Nat)
  | resume (is : Nat)
  | kernelSend (message : Message)
  | receive (index : Nat)
  deriving DecidableEq, Repr

def step (s : State) : Label → Option State
  | .setup => some (inodePagerSetup s)
  | .release is => if is ∈ s.holding then some (inodePagerRelease s is) else none
  | .resume is =>
      if is ∈ s.sending then
        some (inodePagerReleaseEnd { s with sending := s.sending.erase is } is)
      else none
  | .kernelSend message => some { s with queue := s.queue ++ [message] }
  | .receive index =>
      match s.queue[index]? with
      | none => none
      | some (.init is) => some (memoryObjectInit { s with queue := s.queue.eraseIdx index } is)
      | some (.terminate is) =>
          some (memoryObjectTerminate { s with queue := s.queue.eraseIdx index } is)

/-- The file before its first `inode_pager_setup`. -/
def initial : State :=
  ⟨fun _ => newIstruct, 0, none, [], [], [], [], false⟩

def machine : Machine State Label where
  init := fun s => s = initial
  step := step

/-- The label is not a message of a kernel that mapped the object. -/
def Unmapped (_ : State) : Label → Prop
  | .kernelSend _ => False
  | _ => True

/-! ## The lifetime invariant -/

/-- A record in use by the file: nobody freed it, dead references are the releases
in their send, and the port has three references beside those of its holders. -/
structure Attached (s : State) (is : Nat) : Prop where
  created : is < s.created
  freed : (s.istruct is).freed = 0
  freeMe : (s.istruct is).freeMe = false
  global : (s.istruct is).pagerGlobal = true
  dead : (s.istruct is).deadReferences = s.sending.count is
  references : (s.istruct is).objReferences =
    3 + s.holding.count is + s.sending.count is

/-- A destroyed record: nobody holds it, and it is freed exactly when its last
sending release is gone. -/
structure Detached (s : State) (is : Nat) : Prop where
  holding : s.holding.count is = 0
  dead : is < s.created → (s.istruct is).deadReferences = s.sending.count is
  pending : 0 < s.sending.count is →
    (s.istruct is).freed = 0 ∧ (s.istruct is).freeMe = true
  freed : is < s.created → s.sending.count is = 0 → (s.istruct is).freed = 1
  fresh : s.created ≤ is → s.sending.count is = 0

structure Inv (s : State) : Prop where
  fault : s.fault = false
  hashed : s.hashed = s.pager.toList
  attached : ∀ is, s.pager = some is → Attached s is
  detached : ∀ is, s.pager ≠ some is → Detached s is

theorem Inv.initial : Inv DeadReferences.initial := by
  refine ⟨rfl, rfl, fun is h => (Option.some_ne_none is h.symm).elim, fun is _ => ?_⟩
  exact ⟨rfl, fun h => absurd h (Nat.not_lt_zero is), fun h => absurd h (Nat.lt_irrefl 0),
    fun h => absurd h (Nat.not_lt_zero is), fun _ => rfl⟩

section Preservation

variable {s : State} {is : Nat}

theorem Inv.alive (h : Inv s) (hused : is ∈ s.holding ∨ is ∈ s.sending) :
    (s.istruct is).freed = 0 := by
  by_cases hpager : s.pager = some is
  · exact (h.attached is hpager).freed
  · have hdetached := h.detached is hpager
    rcases hused with hholding | hsending
    · have hpos : 0 < s.holding.count is := List.count_pos_iff.mpr hholding
      have hzero := hdetached.holding
      omega
    · exact (hdetached.pending (List.count_pos_iff.mpr hsending)).1

theorem Inv.mem_hashed_iff (h : Inv s) : is ∈ s.hashed ↔ s.pager = some is := by
  rw [h.hashed, Option.mem_toList]

theorem Inv.pager_of_holding (h : Inv s) (hholding : is ∈ s.holding) : s.pager = some is := by
  by_contra hpager
  have hpos : 0 < s.holding.count is := List.count_pos_iff.mpr hholding
  have hzero := (h.detached is hpager).holding
  omega

theorem Inv.of_one (h : Inv s) (is : Nat) {s' : State} (hfault : s'.fault = false)
    (hhashed : s'.hashed = s'.pager.toList)
    (hpager : ∀ x, x ≠ is → (s'.pager = some x ↔ s.pager = some x))
    (hcreated : s'.created = s.created)
    (hrecord : ∀ x, x ≠ is → s'.istruct x = s.istruct x)
    (hholding : ∀ x, x ≠ is → s'.holding.count x = s.holding.count x)
    (hsending : ∀ x, x ≠ is → s'.sending.count x = s.sending.count x)
    (hattached : s'.pager = some is → Attached s' is)
    (hdetached : s'.pager ≠ some is → Detached s' is) : Inv s' := by
  refine ⟨hfault, hhashed, fun x hx => ?_, fun x hx => ?_⟩
  · by_cases hxis : x = is
    · subst hxis
      exact hattached hx
    · have hold := h.attached x ((hpager x hxis).mp hx)
      exact ⟨hcreated ▸ hold.created, by rw [hrecord x hxis]; exact hold.freed,
        by rw [hrecord x hxis]; exact hold.freeMe,
        by rw [hrecord x hxis]; exact hold.global,
        by rw [hrecord x hxis, hsending x hxis]; exact hold.dead,
        by rw [hrecord x hxis, hholding x hxis, hsending x hxis]; exact hold.references⟩
  · by_cases hxis : x = is
    · subst hxis
      exact hdetached hx
    · have hold := h.detached x (fun heq => hx ((hpager x hxis).mpr heq))
      refine ⟨?_, ?_, ?_, ?_, ?_⟩ <;>
        simp only [hrecord x hxis, hholding x hxis, hsending x hxis, hcreated]
      · exact hold.holding
      · exact hold.dead
      · exact hold.pending
      · exact hold.freed
      · exact hold.fresh

theorem Inv.setup (h : Inv s) : Inv (inodePagerSetup s) := by
  unfold inodePagerSetup
  cases hpager : s.pager with
  | none =>
      have hfresh := h.detached s.created (by simp [hpager])
      refine ⟨h.fault, ?_, fun is his => ?_, fun is his => ?_⟩
      · have hhashed := h.hashed
        rw [hpager] at hhashed
        simp [hhashed]
      · obtain rfl : s.created = is := Option.some.inj his
        refine ⟨Nat.lt_succ_self _, by simp [newIstruct], by simp [newIstruct],
          by simp [newIstruct], ?_, ?_⟩
        · simp [newIstruct, hfresh.fresh le_rfl]
        · simp [newIstruct, hfresh.fresh le_rfl, hfresh.holding]
      · have hne : is ≠ s.created := fun heq => his (by rw [heq])
        have hold := h.detached is (by simp [hpager])
        have hlt : is < s.created + 1 ↔ is < s.created := by omega
        refine ⟨?_, ?_, ?_, ?_, ?_⟩ <;>
          simp only [Function.update_of_ne hne, List.count_cons_of_ne (Ne.symm hne), hlt]
        · exact hold.holding
        · exact hold.dead
        · exact hold.pending
        · exact hold.freed
        · intro hle
          exact hold.fresh (by omega)
  | some is =>
      have hold := h.attached is hpager
      simp only [h.mem_hashed_iff.mpr hpager, if_true]
      refine h.of_one is ?_ (by simpa [State.modify, State.portAdd, hpager] using h.hashed)
        (fun x _ => Iff.rfl) rfl ?_ ?_ (fun x _ => rfl) (fun _ => ?_) (fun hne => ?_)
      · simp [State.modify, State.portAdd, h.fault, hold.freed]
      · intro x hx
        simp [State.modify, State.portAdd, hx]
      · intro x hx
        simp [State.modify, State.portAdd, Ne.symm hx]
      · refine ⟨hold.created, ?_, ?_, ?_, ?_, ?_⟩ <;> simp [State.modify, State.portAdd]
        · exact hold.freed
        · exact hold.freeMe
        · exact hold.global
        · exact hold.dead
        · rw [hold.references]
          omega
      · exact absurd hpager hne

/-- The end of a release: the record is still there, and the last dead reference
of a destroyed record frees it. -/
theorem Inv.releaseEnd (h : Inv s) (hsending : is ∈ s.sending) :
    Inv (inodePagerReleaseEnd { s with sending := s.sending.erase is } is) := by
  have halive := h.alive (Or.inr hsending)
  have hpos : 0 < s.sending.count is := List.count_pos_iff.mpr hsending
  have herase : (s.sending.erase is).count is = s.sending.count is - 1 :=
    List.count_erase_self
  have hother : ∀ x, x ≠ is → (s.sending.erase is).count x = s.sending.count x :=
    fun x hx => List.count_erase_of_ne hx
  unfold inodePagerReleaseEnd
  by_cases hpager : s.pager = some is
  · have hold := h.attached is hpager
    have hkeep : ¬ ((s.istruct is).deadReferences - 1 = 0 ∧ (s.istruct is).freeMe = true) := by
      simp [hold.freeMe]
    simp only [State.modify, State.portAdd, Function.update_self, Function.update_idem, hkeep,
      if_false]
    refine h.of_one is ?_ h.hashed (fun x _ => Iff.rfl) rfl ?_ (fun x _ => rfl) hother
      (fun _ => ?_) (fun hne => absurd hpager hne)
    · simp [h.fault, halive]
    · intro x hx
      simp [hx]
    · refine ⟨hold.created, ?_, ?_, ?_, ?_, ?_⟩ <;> simp only [Function.update_self, herase]
      · exact hold.freed
      · exact hold.freeMe
      · exact hold.global
      · have hdead := hold.dead
        omega
      · have hreferences := hold.references
        omega
  · have hold := h.detached is hpager
    have hcreated : is < s.created := by
      by_contra hle
      have hzero := hold.fresh (by omega)
      omega
    have hdead := hold.dead hcreated
    have hpending := hold.pending hpos
    by_cases hlast : s.sending.count is = 1
    · have hfree : (s.istruct is).deadReferences - 1 = 0 ∧ (s.istruct is).freeMe = true :=
        ⟨by omega, hpending.2⟩
      simp only [State.modify, State.portAdd, Function.update_self, Function.update_idem, hfree,
        free, and_self, if_true]
      refine h.of_one is ?_ h.hashed (fun x _ => Iff.rfl) rfl ?_ (fun x _ => rfl) hother
        (fun heq => absurd heq hpager) (fun _ => ?_)
      · simp [h.fault, halive]
      · intro x hx
        simp [hx]
      · refine ⟨hold.holding, ?_, ?_, ?_, ?_⟩ <;>
          simp only [Function.update_self, herase, hlast, halive]
        · intro _
          rfl
        · intro hzero
          omega
        · intro _ _
          trivial
        · intro hle
          omega
    · have hkeep : ¬ ((s.istruct is).deadReferences - 1 = 0 ∧ (s.istruct is).freeMe = true) := by
        rintro ⟨hzero, _⟩
        omega
      simp only [State.modify, State.portAdd, Function.update_self, Function.update_idem, hkeep,
        if_false]
      refine h.of_one is ?_ h.hashed (fun x _ => Iff.rfl) rfl ?_ (fun x _ => rfl) hother
        (fun heq => absurd heq hpager) (fun _ => ?_)
      · simp [h.fault, halive]
      · intro x hx
        simp [hx]
      · refine ⟨hold.holding, ?_, ?_, ?_, ?_⟩ <;> simp only [Function.update_self, herase]
        · intro _
          omega
        · intro _
          exact hpending
        · intro _ hzero
          omega
        · intro hle
          omega

/-- A release that counted its dead reference, before it decides whether to send. -/
theorem Inv.releaseCount (h : Inv s) (hholding : is ∈ s.holding) :
    Inv { ({ s with holding := s.holding.erase is } : State).modify is
        (fun record => { record with deadReferences := record.deadReferences + 1 }) with
      sending := is :: s.sending } := by
  have hpager := h.pager_of_holding hholding
  have hold := h.attached is hpager
  have hpos : 0 < s.holding.count is := List.count_pos_iff.mpr hholding
  have herase : (s.holding.erase is).count is = s.holding.count is - 1 :=
    List.count_erase_self
  refine h.of_one is ?_ h.hashed (fun x _ => Iff.rfl) rfl ?_ ?_ ?_
    (fun _ => ?_) (fun hne => absurd hpager hne)
  · simp [State.modify, h.fault, hold.freed]
  · intro x hx
    simp [State.modify, hx]
  · intro x hx
    exact List.count_erase_of_ne hx
  · intro x hx
    exact List.count_cons_of_ne (Ne.symm hx)
  · refine ⟨hold.created, ?_, ?_, ?_, ?_, ?_⟩ <;>
      simp only [State.modify, Function.update_self, herase, List.count_cons_self]
    · exact hold.freed
    · exact hold.freeMe
    · exact hold.global
    · have hdead := hold.dead
      push_cast
      omega
    · have hreferences := hold.references
      push_cast
      omega

theorem Inv.setQueue (h : Inv s) (queue : List Message) : Inv { s with queue := queue } :=
  ⟨h.fault, h.hashed, fun is his => ⟨(h.attached is his).created, (h.attached is his).freed,
      (h.attached is his).freeMe, (h.attached is his).global, (h.attached is his).dead, (h.attached is his).references⟩,
    fun is his => ⟨(h.detached is his).holding, (h.detached is his).dead,
      (h.detached is his).pending, (h.detached is his).freed, (h.detached is his).fresh⟩⟩

theorem Inv.release (h : Inv s) (hholding : is ∈ s.holding) : Inv (inodePagerRelease s is) := by
  have hpager := h.pager_of_holding hholding
  have hcounted := h.releaseCount hholding
  unfold inodePagerRelease
  simp only [h.mem_hashed_iff.mpr hpager, if_true]
  split
  · exact hcounted.setQueue _
  · have hended := hcounted.releaseEnd (List.mem_cons_self : is ∈ is :: s.sending)
    rw [List.erase_cons_head] at hended
    exact hended

theorem Inv.memoryObjectInit (h : Inv s) (is : Nat) : Inv (memoryObjectInit s is) := by
  unfold DeadReferences.memoryObjectInit
  split
  · next hhashed =>
      have hpager := h.mem_hashed_iff.mp hhashed
      have hold := h.attached is hpager
      refine h.of_one is ?_ h.hashed (fun x _ => Iff.rfl) rfl ?_ (fun x _ => rfl)
        (fun x _ => rfl) (fun _ => ?_) (fun hne => absurd hpager hne)
      · simp [State.modify, h.fault, hold.freed]
      · intro x hx
        simp [State.modify, hx]
      · refine ⟨hold.created, ?_, ?_, ?_, ?_, ?_⟩ <;> simp only [State.modify, Function.update_self]
        · exact hold.freed
        · exact hold.freeMe
        · exact hold.global
        · exact hold.dead
        · exact hold.references
  · exact h

theorem Inv.memoryObjectTerminate (h : Inv s) (is : Nat) :
    Inv (memoryObjectTerminate s is) := by
  unfold DeadReferences.memoryObjectTerminate
  split
  · next hhashed =>
      have hpager := h.mem_hashed_iff.mp hhashed
      have hold := h.attached is hpager
      have hdead := hold.dead
      have hreferences := hold.references
      have hempty : s.hashed.erase is = [] := by
        rw [h.hashed, hpager]
        simp
      dsimp only
      split
      · next hsenders =>
          simp only [inodePagerNoMoreSenders, Istruct.globalPort, State.modify,
            Function.update_self, hold.global, if_true, decide_eq_true_eq] at hsenders
          have hholding : s.holding.count is = 0 := by omega
          unfold destroyObject
          simp only [State.modify, State.portAdd, free, Function.update_self,
            Function.update_idem]
          split
          · next hzero =>
              refine h.of_one is ?_ ?_ ?_ rfl ?_ (fun x _ => rfl) (fun x _ => rfl)
                (fun heq => ?_) (fun _ => ?_)
              · simp [h.fault, hold.freed]
              · exact hempty
              · intro x hx
                simp [hpager, Ne.symm hx]
              · intro x hx
                simp [hx]
              · cases heq
              · refine ⟨hholding, ?_, ?_, ?_, ?_⟩ <;> simp only [Function.update_self]
                · intro _
                  exact hdead
                · intro hpos
                  omega
                · intro _ _
                  rw [hold.freed]
                · intro hle
                  have hlt := hold.created
                  omega
          · next hnonzero =>
              refine h.of_one is ?_ ?_ ?_ rfl ?_ (fun x _ => rfl) (fun x _ => rfl)
                (fun heq => ?_) (fun _ => ?_)
              · simp [h.fault, hold.freed]
              · exact hempty
              · intro x hx
                simp [hpager, Ne.symm hx]
              · intro x hx
                simp [hx]
              · cases heq
              · refine ⟨hholding, ?_, ?_, ?_, ?_⟩ <;> simp only [Function.update_self]
                · intro _
                  exact hdead
                · intro _
                  exact ⟨hold.freed, trivial⟩
                · intro _ hnone
                  omega
                · intro hle
                  have hlt := hold.created
                  omega
      · refine h.of_one is ?_ h.hashed (fun x _ => Iff.rfl) rfl ?_ (fun x _ => rfl)
          (fun x _ => rfl) (fun _ => ?_) (fun hne => absurd hpager hne)
        · simp [State.modify, h.fault, hold.freed]
        · intro x hx
          simp [State.modify, hx]
        · refine ⟨hold.created, ?_, ?_, ?_, ?_, ?_⟩ <;> simp only [State.modify, Function.update_self]
          · exact hold.freed
          · exact hold.freeMe
          · exact hold.global
          · exact hdead
          · exact hreferences
  · exact h

theorem Inv.step {s' : State} {label : Label} (h : Inv s) (hstep : step s label = some s') :
    Inv s' := by
  cases label with
  | setup =>
      cases hstep
      exact h.setup
  | release is =>
      simp only [DeadReferences.step] at hstep
      split at hstep
      · next hholding =>
          cases hstep
          exact h.release hholding
      · cases hstep
  | resume is =>
      simp only [DeadReferences.step] at hstep
      split at hstep
      · next hsending =>
          cases hstep
          exact h.releaseEnd hsending
      · cases hstep
  | kernelSend message =>
      cases hstep
      exact h.setQueue _
  | receive index =>
      simp only [DeadReferences.step] at hstep
      split at hstep
      · cases hstep
      · next is _ =>
          cases hstep
          exact (h.setQueue _).memoryObjectInit is
      · next is _ =>
          cases hstep
          exact (h.setQueue _).memoryObjectTerminate is

end Preservation

/-! ## Without a kernel mapping the last release destroys the object -/

/-- The attached object still has a holder, or its termination is on its way. -/
def TerminationDue (s : State) : Prop :=
  ∀ is, s.pager = some is → is ∈ s.holding ∨ .terminate is ∈ s.queue

theorem releaseEnd_pager (s : State) (is : Nat) :
    (inodePagerReleaseEnd s is).pager = s.pager ∧
      (inodePagerReleaseEnd s is).holding = s.holding ∧
      (inodePagerReleaseEnd s is).queue = s.queue := by
  unfold inodePagerReleaseEnd
  dsimp only
  split <;> exact ⟨rfl, rfl, rfl⟩

theorem TerminationDue.setup (s : State) : TerminationDue (inodePagerSetup s) := by
  unfold inodePagerSetup
  intro x hx
  cases hpager : s.pager with
  | none =>
      simp only [hpager, Option.some.injEq] at hx
      subst hx
      simp
  | some is =>
      have hsame : (if is ∈ s.hashed then s.modify is id else s).pager = some is := by
        split <;> exact hpager
      simp only [hpager, State.portAdd, hsame, Option.some.injEq] at hx
      subst hx
      simp

theorem TerminationDue.release {s : State} {is : Nat} (hinv : Inv s)
    (hholding : is ∈ s.holding) : TerminationDue (inodePagerRelease s is) := by
  have hpager := hinv.pager_of_holding hholding
  have hold := hinv.attached is hpager
  have hdead := hold.dead
  have hreferences := hold.references
  have hpos : 0 < s.holding.count is := List.count_pos_iff.mpr hholding
  unfold inodePagerRelease
  simp only [hinv.mem_hashed_iff.mpr hpager, if_true]
  split
  · intro x hx
    obtain rfl : is = x := Option.some.inj (hpager.symm.trans hx)
    exact Or.inr (List.mem_append_right _ (List.mem_singleton.mpr rfl))
  · next hsenders =>
      simp only [inodePagerNoMoreSenders, State.modify, Function.update_self,
        decide_eq_true_eq, not_le] at hsenders
      intro x hx
      obtain ⟨hsame, hleft, -⟩ := releaseEnd_pager
        (({ s with holding := s.holding.erase is } : State).modify is
          (fun record => { record with deadReferences := record.deadReferences + 1 })) is
      rw [hsame] at hx
      obtain rfl : is = x := Option.some.inj (hpager.symm.trans hx)
      rw [hleft]
      left
      refine List.count_pos_iff.mp ?_
      have herase : (s.holding.erase is).count is = s.holding.count is - 1 :=
        List.count_erase_self
      simp only [State.modify]
      omega

theorem TerminationDue.terminate {s : State} {is : Nat} (hinv : Inv s)
    (h : ∀ x, s.pager = some x → x ≠ is → x ∈ s.holding ∨ .terminate x ∈ s.queue) :
    TerminationDue (memoryObjectTerminate s is) := by
  unfold memoryObjectTerminate
  split
  · next hhashed =>
      have hpager := hinv.mem_hashed_iff.mp hhashed
      have hold := hinv.attached is hpager
      have hdead := hold.dead
      have hreferences := hold.references
      dsimp only
      split
      · intro x hx
        unfold destroyObject at hx
        dsimp only at hx
        split at hx <;> cases hx
      · next hsenders =>
          simp only [inodePagerNoMoreSenders, Istruct.globalPort, State.modify,
            Function.update_self, hold.global, if_true, decide_eq_true_eq, not_le] at hsenders
          intro x hx
          obtain rfl : is = x := Option.some.inj (hpager.symm.trans hx)
          exact Or.inl (List.count_pos_iff.mp (by simp only [State.modify]; omega))
  · next hhashed =>
      intro x hx
      refine h x hx (fun heq => hhashed ?_)
      rw [hinv.mem_hashed_iff, ← heq]
      exact hx

theorem mem_eraseIdx_of_ne {queue : List Message} {index : Nat} {message other : Message}
    (hat : queue[index]? = some message) (hother : other ∈ queue) (hne : other ≠ message) :
    other ∈ queue.eraseIdx index := by
  obtain ⟨j, hj⟩ := List.mem_iff_getElem?.mp hother
  refine List.mem_eraseIdx_iff_getElem?.mpr ⟨j, fun heq => hne ?_, hj⟩
  rw [heq, hat] at hj
  exact (Option.some.inj hj).symm

theorem TerminationDue.step {s s' : State} {label : Label} (hinv : Inv s)
    (h : TerminationDue s) (hok : Unmapped s label) (hstep : step s label = some s') :
    TerminationDue s' := by
  cases label with
  | setup =>
      cases hstep
      exact TerminationDue.setup s
  | release is =>
      simp only [DeadReferences.step] at hstep
      split at hstep
      · next hholding =>
          cases hstep
          exact TerminationDue.release hinv hholding
      · cases hstep
  | resume is =>
      simp only [DeadReferences.step] at hstep
      split at hstep
      · cases hstep
        obtain ⟨hpager, hholding, hqueue⟩ :=
          releaseEnd_pager { s with sending := s.sending.erase is } is
        intro x hx
        rw [hpager] at hx
        rw [hholding, hqueue]
        exact h x hx
      · cases hstep
  | kernelSend message => exact hok.elim
  | receive index =>
      simp only [DeadReferences.step] at hstep
      split at hstep
      · cases hstep
      · next is hat =>
          cases hstep
          intro x hx
          have hkeep : ∀ s'' : State, (memoryObjectInit s'' is).pager = s''.pager ∧
              (memoryObjectInit s'' is).holding = s''.holding ∧
              (memoryObjectInit s'' is).queue = s''.queue := by
            intro s''
            unfold memoryObjectInit
            split <;> exact ⟨rfl, rfl, rfl⟩
          obtain ⟨hpager, hholding, hqueue⟩ := hkeep { s with queue := s.queue.eraseIdx index }
          rw [hpager] at hx
          rw [hholding, hqueue]
          exact (h x hx).imp_right (fun hin => mem_eraseIdx_of_ne hat hin (by simp))
      · next is hat =>
          cases hstep
          refine TerminationDue.terminate (hinv.setQueue _) (fun x hx hne => ?_)
          exact (h x hx).imp_right
            (fun hin => mem_eraseIdx_of_ne hat hin (by simpa using hne))

/-! ## Lifetime of an istruct -/

/-- No record is touched after it was freed, none is freed twice, and none is freed
under a holder or under a release that counted its dead reference. -/
structure LifetimeSafe (s : State) : Prop where
  no_fault : s.fault = false
  freed_le_one : ∀ is < s.created, (s.istruct is).freed ≤ 1
  holding_alive : ∀ is ∈ s.holding, (s.istruct is).freed = 0
  sending_alive : ∀ is ∈ s.sending, (s.istruct is).freed = 0

theorem Inv.lifetimeSafe {s : State} (h : Inv s) : LifetimeSafe s := by
  refine ⟨h.fault, fun is hlt => ?_, fun is hin => h.alive (Or.inl hin),
    fun is hin => h.alive (Or.inr hin)⟩
  by_cases hpager : s.pager = some is
  · rw [(h.attached is hpager).freed]
    exact Nat.zero_le 1
  · have hold := h.detached is hpager
    by_cases hzero : s.sending.count is = 0
    · exact (hold.freed hlt hzero).le
    · rw [(hold.pending (Nat.pos_of_ne_zero hzero)).1]
      exact Nat.zero_le 1

theorem Inv.of_reachable {ok : State → Label → Prop} {s : State}
    (hreach : machine.Reachable ok s) : Inv s :=
  hreach.invariant
    (fun s hinit => by
      cases (show s = DeadReferences.initial from hinit)
      exact Inv.initial)
    (fun _ _ _ hinv _ hstep => hinv.step hstep)

/-- The lifetime is safe in every reachable state; and when no kernel maps the
object, a record that no holder or sending release and no queued termination
mentions any more has been freed. -/
theorem istruct_lifetime :
    (∀ s, machine.Reachable Machine.always s → LifetimeSafe s) ∧
    (∀ s, machine.Reachable Unmapped s → ∀ is < s.created,
      is ∉ s.holding → is ∉ s.sending → .terminate is ∉ s.queue →
        (s.istruct is).freed = 1) := by
  refine ⟨fun s hreach => (Inv.of_reachable hreach).lifetimeSafe, ?_⟩
  intro s hreach is hlt hholding hsending hqueue
  have hboth := hreach.invariant (P := fun s => Inv s ∧ TerminationDue s)
    (fun s hinit => by
      cases (show s = initial from hinit)
      exact ⟨Inv.initial, fun x hx => (Option.some_ne_none x hx.symm).elim⟩)
    (fun _ _ _ h hok hstep => ⟨h.1.step hstep, h.2.step h.1 hok hstep⟩)
  have hpager : s.pager ≠ some is := fun heq => (hboth.2 is heq).elim hholding hqueue
  exact (hboth.1.detached is hpager).freed hlt (List.count_eq_zero.mpr hsending)

/-- Two holders release while the first forged termination is still queued. -/
def twoHolders : List Label :=
  [.setup, .release 0, .setup, .release 0, .receive 0, .resume 0, .resume 0, .receive 0]

theorem istruct_lifetime_two_holders :
    ∃ s, machine.run initial twoHolders = some s ∧ LifetimeSafe s ∧
      (s.istruct 0).freed = 1 := by
  refine ⟨_, rfl, istruct_lifetime.1 _
    (Machine.Reachable.of_run twoHolders (.init rfl) rfl
      (Machine.meets_of_forall (fun _ _ _ => trivial))), ?_⟩
  refine istruct_lifetime.2 _ ?_ 0 (by decide) (by decide) (by decide) (by decide)
  refine Machine.Reachable.of_run twoHolders (.init rfl) rfl
    (Machine.meets_of_forall (fun label hlabel s => ?_))
  revert label
  simp [twoHolders, Unmapped]

end MachFormal.InodePager.DeadReferences
