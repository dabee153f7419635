import MachFormal.Library.Logs
import MachFormal.Sup.NameTree
import MachFormal.Sup.Scmio

/-!
# The choice of a file server

A collection has several hosts.  They are tried once without waiting, and then those that
were busy are tried again and again, with a pause before each round.  `getcollhost` keeps
the state of the search that it saw last and the number of hosts offered since then in
static variables, which the next collection finds as they were left.

The tree of hosts is the list of its nodes in the order in which `Tprocess` visits them.
The network, the clock and the name service are a world of which nothing is known.  What
is done with a file server that has accepted the client is not in the model.
-/

namespace MachFormal.Sup.Getcoll

open Library Library.Loop
open Stree (SCMOK)

def SCMEOF : Int := 0

/-! ## The world -/

/-- What comes of a connection: the collection can be upgraded, the file server is busy, or
the attempt was in vain. -/
inductive Reply where
  | ready
  | busy
  | gone

/-- What comes of an attempt to connect: it is refused, the host cannot be reached, or the
connection stands. -/
inductive Answer where
  | refused
  | unreachable
  | connected (reply : Reply)

structure World (ω : Type) where
  thishost : Name → Bool
  /-- The microseconds, if the clock can be read. -/
  gettimeofday : ω → Option Nat × ω
  sleep : Nat → ω → ω
  attempt : Name → ω → Answer × ω

/-! ## Waiting -/

section Backoff

variable {ω : Type} (world : World ω)

/-- What is left of the time, the next pause, and this one. -/
structure Pause (ω : Type) where
  tout : CInt
  backoff : Nat
  seconds : Nat
  net : ω

/-- `dobackoff`.  It fails if there is no time left; `-1` is as much as is needed. -/
def dobackoff (tout : CInt) (backoff : Nat) (net : ω) : Option (Pause ω) :=
  if tout = 0 then none
  else
    let clock := world.gettimeofday net
    let s := backoff * 30
    let s := match clock.1 with
      | none => s
      | some tv_usec => s + (tv_usec >>> 8) % s
    let backoff := if backoff < 32 then backoff <<< 1 else backoff
    if tout = -1 then some ⟨tout, backoff, s, world.sleep s clock.2⟩
    else
      let s := if s > tout.toNat then tout.toNat else s
      some ⟨tout - BitVec.ofNat 32 s, backoff, s, world.sleep s clock.2⟩

end Backoff

/-! ## The search -/

/-- A node of the tree of hosts. -/
structure Host where
  Tname : Name
  Tflags : Int
  Tmode : Int
  deriving DecidableEq

/-- `getonehost`, but for the assignment to `Chost`. -/
def getonehost (t : Host) (state : Int) : Int × Host :=
  if t.Tflags ≠ state then (SCMOK, t)
  else if state ≠ 0 ∧ t.Tmode = SCMEOF then (SCMOK, { t with Tflags := 0 })
  else if state = 2 then (SCMEOF, { t with Tflags := t.Tflags - 1 })
  else (SCMEOF, { t with Tflags := t.Tflags + 1 })

/-- `Chost`, in its place in the tree. -/
structure Offer where
  front : List Host
  host : Host
  back : List Host

/-- The hosts after the attempt, with what it has left in `Tmode`. -/
def Offer.hosts (o : Offer) (mode : Int) : List Host :=
  o.front ++ { o.host with Tmode := mode } :: o.back

/-- `Tprocess` with `getonehost`: the hosts if none is offered, or the one that is. -/
def processHosts (state : Int) : List Host → List Host ⊕ Offer
  | [] => .inl []
  | t :: rest =>
      let r := getonehost t state
      if r.1 = SCMOK then
        match processHosts state rest with
        | .inl hosts => .inl (r.2 :: hosts)
        | .inr o => .inr { o with front := r.2 :: o.front }
      else .inr ⟨[], r.2, rest⟩

/-- The variables of `getcollhost` that stay from one collection to the next. -/
structure Statics where
  laststate : Int
  nhosts : Nat
  deriving DecidableEq

inductive Event where
  /-- A host, with the number of hosts that `signon` is told. -/
  | tried (Tname : Name) (nhosts : Nat)
  | waited (seconds : Nat)
  deriving DecidableEq

/-- `getcoll` at work: its variables, the static ones and the hosts. -/
structure Search (ω : Type) where
  hosts : List Host
  tout : CInt
  backoff : Nat
  state : Int
  nhosts : Nat
  statics : Statics
  net : ω
  log : List Event

section Search

variable {ω : Type}

/-- The number of hosts of the last state, when the state is another. -/
def Search.enter (s : Search ω) : Search ω :=
  if s.state ≠ s.statics.laststate then
    { s with nhosts := s.statics.nhosts, statics := ⟨s.state, 0⟩ }
  else s

def Search.count (s : Search ω) : Search ω :=
  { s with statics := { s.statics with nhosts := s.statics.nhosts + 1 } }

def Search.wait (s : Search ω) (p : Pause ω) : Search ω :=
  { s with tout := p.tout, backoff := p.backoff, net := p.net,
           log := s.log ++ [.waited p.seconds] }

variable (world : World ω)

/-- `getcollhost`.  It fails if it has not returned after so many calls of itself. -/
def getcollhost : Nat → Search ω → Option (Search ω × Option Offer)
  | 0, _ => none
  | calls + 1, s =>
      let s := s.enter
      match processHosts s.state s.hosts with
      | .inr o =>
          if s.state ≠ 0 ∧ s.statics.nhosts = 0 then
            match dobackoff world s.tout s.backoff s.net with
            | none => some (s, none)
            | some p => some ((s.wait p).count, some o)
          else some (s.count, some o)
      | .inl hosts =>
          let s := { s with hosts := hosts }
          if s.statics.nhosts = 0 then some (s, none)
          else getcollhost calls { s with state := if s.state = 2 then s.state - 1 else s.state + 1 }

/-! ## The attempts -/

/-- `getcoll` between two attempts, or `request` before the next one. -/
inductive Working (ω : Type) where
  | choosing (s : Search ω)
  | connecting (s : Search ω) (o : Offer) (timeout : CInt) (backoff : Nat)

/-- How the search ends. -/
structure Found (ω : Type) where
  Chost : Option Name
  s : Search ω

/-- A collection, with the hosts that can upgrade it. -/
structure Collection where
  hosts : List Name
  Ctimeout : CInt
  CFLOCAL : Bool

variable (c : Collection)

/-- The attempt has come to an end, with this in `Tmode`. -/
def Search.leave (s : Search ω) (o : Offer) (mode : Int) : Working ω :=
  .choosing { s with hosts := o.hosts mode }

/-- `getcollhost` and the beginning of `signon`. -/
def choose (s : Search ω) : Working ω ⊕ Found ω :=
  match getcollhost world 2 s with
  | none => .inl (.choosing s)
  | some (s, none) => .inr ⟨none, s⟩
  | some (s, some o) =>
      let s := { s with log := s.log ++ [.tried o.host.Tname s.nhosts] }
      if !c.CFLOCAL && world.thishost o.host.Tname then .inl (s.leave o SCMEOF)
      else .inl (.connecting s o (if s.nhosts = 1 then s.tout else 0) 1)

/-- `tout` after `request`. -/
def Search.requested (s : Search ω) (timeout : CInt) : Search ω :=
  if s.nhosts = 1 then { s with tout := timeout } else s

/-- `request` has failed. -/
def Search.failed (s : Search ω) (o : Offer) (timeout : CInt) : Working ω :=
  (s.requested timeout).leave o (if s.nhosts ≠ 0 then SCMEOF else SCMOK)

/-- The loop in `request`, and what follows the connection. -/
def connect (s : Search ω) (o : Offer) (timeout : CInt) (backoff : Nat) :
    Working ω ⊕ Found ω :=
  let r := world.attempt o.host.Tname s.net
  let s := { s with net := r.2 }
  match r.1 with
  | .refused =>
      match dobackoff world timeout backoff s.net with
      | none => .inl (s.failed o timeout)
      | some p =>
          .inl (.connecting { s with net := p.net, log := s.log ++ [.waited p.seconds] } o
            p.tout p.backoff)
  | .unreachable => .inl (s.failed o timeout)
  | .connected .ready => .inr ⟨some o.host.Tname, s.requested timeout⟩
  | .connected .busy => .inl ((s.requested timeout).leave o SCMOK)
  | .connected .gone => .inl ((s.requested timeout).leave o SCMEOF)

def turn : Working ω → Working ω ⊕ Found ω
  | .choosing s => choose world c s
  | .connecting s o timeout backoff => connect world s o timeout backoff

/-- A host that has not been tried. -/
def fresh (h : Name) : Host := ⟨h, 0, 0⟩

/-- `getcoll` before its loop. -/
def getcoll (statics : Statics) (net : ω) : Working ω :=
  .choosing ⟨c.hosts.map fresh, c.Ctimeout, 2, 0, 0, statics, net, []⟩

end Search

/-! ## One call of `getcollhost` -/

section Process

theorem eof_ne_ok : SCMEOF ≠ SCMOK := by decide

/-- What `getonehost` makes of a host that is passed over. -/
def pass (state : Int) (t : Host) : Host := (getonehost t state).2

theorem processHosts_append {state : Int} {front : List Host}
    (passed : ∀ t ∈ front, getonehost t state = (SCMOK, t)) (back : List Host) :
    processHosts state (front ++ back) =
      match processHosts state back with
      | .inl hosts => .inl (front ++ hosts)
      | .inr o => .inr { o with front := front ++ o.front } := by
  induction front with
  | nil =>
      rw [List.nil_append]
      cases processHosts state back <;> rfl
  | cons t front ih =>
      rw [List.cons_append, processHosts, passed t List.mem_cons_self]
      simp only [if_true]
      rw [ih fun x inside => passed x (List.mem_cons_of_mem t inside)]
      cases processHosts state back <;> rfl

theorem processHosts_spec (state : Int) (hosts : List Host) :
    ((∀ t ∈ hosts, (getonehost t state).1 = SCMOK) ∧
        processHosts state hosts = .inl (hosts.map (pass state))) ∨
      ∃ front t back, hosts = front ++ t :: back ∧
        (∀ u ∈ front, (getonehost u state).1 = SCMOK) ∧ (getonehost t state).1 ≠ SCMOK ∧
        processHosts state hosts = .inr ⟨front.map (pass state), pass state t, back⟩ := by
  induction hosts with
  | nil => exact .inl ⟨(fun _ inside => by cases inside), rfl⟩
  | cons t hosts ih =>
      rw [processHosts]
      by_cases passed : (getonehost t state).1 = SCMOK
      · simp only [if_pos passed]
        rcases ih with ⟨all, same⟩ | ⟨front, u, back, split, before, offered, same⟩
        · rw [same]
          exact .inl ⟨List.forall_mem_cons.mpr ⟨passed, all⟩, rfl⟩
        · rw [same]
          exact .inr ⟨t :: front, u, back, by rw [split, List.cons_append],
          List.forall_mem_cons.mpr ⟨passed, before⟩, offered, rfl⟩
      · simp only [if_neg passed]
        exact .inr ⟨[], t, hosts, rfl, (fun _ inside => by cases inside), passed, rfl⟩

/-- An attempt has been made. -/
def Settled (t : Host) : Prop := t.Tmode = SCMOK ∨ t.Tmode = SCMEOF

/-- The hosts that can be offered again have been tried. -/
def Later (hosts : List Host) : Prop := ∀ t ∈ hosts, t.Tflags ≠ 0 → Settled t

theorem pass_settled {state : Int} {t : Host} (passed : (getonehost t state).1 = SCMOK)
    (settled : t.Tflags ≠ 0 → Settled t) : (pass state t).Tflags ≠ 0 → Settled (pass state t) := by
  unfold pass
  unfold getonehost at passed ⊢
  split_ifs at passed ⊢ with other failed second
  · exact settled
  · exact fun flagged => absurd rfl flagged
  all_goals exact absurd passed eof_ne_ok

theorem offered_busy {state : Int} {t : Host} (later : state ≠ 0)
    (offered : (getonehost t state).1 ≠ SCMOK) (settled : t.Tflags ≠ 0 → Settled t) :
    (pass state t).Tmode = SCMOK ∧ t.Tflags = state := by
  unfold pass
  unfold getonehost at offered ⊢
  split_ifs at offered ⊢ with other failed second
  · exact absurd rfl offered
  · exact absurd rfl offered
  all_goals
    have same : t.Tflags = state := not_not.mp other
    rcases settled (same ▸ later) with busy | gone
    · exact ⟨busy, same⟩
    · exact absurd ⟨later, gone⟩ failed

end Process

section Calls

variable {ω : Type} {world : World ω}

@[simp] theorem enter_state (s : Search ω) : s.enter.state = s.state := by
  unfold Search.enter
  split <;> rfl

@[simp] theorem enter_hosts (s : Search ω) : s.enter.hosts = s.hosts := by
  unfold Search.enter
  split <;> rfl

@[simp] theorem enter_log (s : Search ω) : s.enter.log = s.log := by
  unfold Search.enter
  split <;> rfl

theorem enter_other {s : Search ω} (other : s.state ≠ s.statics.laststate) :
    s.enter = { s with nhosts := s.statics.nhosts, statics := ⟨s.state, 0⟩ } := if_pos other

theorem enter_same {s : Search ω} (same : s.state = s.statics.laststate) : s.enter = s :=
  if_neg fun other => other same

theorem enter_laststate (s : Search ω) : s.enter.statics.laststate = s.state := by
  by_cases same : s.state = s.statics.laststate
  · rw [enter_same same, same]
  · rw [enter_other same]

/-- The state after a round. -/
def next (state : Int) : Int := if state = 2 then state - 1 else state + 1

theorem next_ne (state : Int) : next state ≠ state := by
  unfold next
  split <;> omega

theorem next_later {state : Int} (range : state = 0 ∨ state = 1 ∨ state = 2) :
    next state = 1 ∨ next state = 2 := by
  rcases range with rfl | rfl | rfl
  · exact .inl rfl
  · exact .inr rfl
  · exact .inl rfl

/-- How a call of `getcollhost` goes: a host is offered, there is no time left for one, there
is none, or the round is over. -/
inductive Call (world : World ω) (calls : Nat) (s : Search ω) :
    Option (Search ω × Option Offer) → Prop where
  | offered {o : Offer} (offers : processHosts s.state s.hosts = .inr o)
      (first : ¬(s.state ≠ 0 ∧ s.enter.statics.nhosts = 0)) :
      Call world calls s (some (s.enter.count, some o))
  | paused {o : Offer} {p : Pause ω} (offers : processHosts s.state s.hosts = .inr o)
      (first : s.state ≠ 0 ∧ s.enter.statics.nhosts = 0)
      (time : dobackoff world s.enter.tout s.enter.backoff s.enter.net = some p) :
      Call world calls s (some ((s.enter.wait p).count, some o))
  | late {o : Offer} (offers : processHosts s.state s.hosts = .inr o)
      (first : s.state ≠ 0 ∧ s.enter.statics.nhosts = 0)
      (time : dobackoff world s.enter.tout s.enter.backoff s.enter.net = none) :
      Call world calls s (some (s.enter, none))
  | none {hosts : List Host} (ended : processHosts s.state s.hosts = .inl hosts)
      (nothing : s.enter.statics.nhosts = 0) :
      Call world calls s (some ({ s.enter with hosts := hosts }, none))
  | again {hosts : List Host} (ended : processHosts s.state s.hosts = .inl hosts)
      (some_ : s.enter.statics.nhosts ≠ 0) :
      Call world calls s
        (getcollhost world calls { s.enter with hosts := hosts, state := next s.enter.state })

theorem getcollhost_call (calls : Nat) (s : Search ω) :
    Call world calls s (getcollhost world (calls + 1) s) := by
  rw [getcollhost]
  cases round : processHosts s.enter.state s.enter.hosts with
  | inl hosts =>
      rw [enter_state, enter_hosts] at round
      by_cases nothing : s.enter.statics.nhosts = 0
      · simp only [if_pos nothing]
        exact .none round nothing
      · simp only [if_neg nothing]
        exact .again round nothing
  | inr o =>
      rw [enter_state, enter_hosts] at round
      simp only [enter_state]
      by_cases first : s.state ≠ 0 ∧ s.enter.statics.nhosts = 0
      · simp only [if_pos first]
        cases time : dobackoff world s.enter.tout s.enter.backoff s.enter.net with
        | none => exact .late round first time
        | some p => exact .paused round first time
      · simp only [if_neg first]
        exact .offered round first

theorem getcollhost_new {s : Search ω} (calls : Nat) (other : s.state ≠ s.statics.laststate) :
    (getcollhost world (calls + 1) s).isSome := by
  have call : Call world calls s (getcollhost world (calls + 1) s) := getcollhost_call calls s
  generalize getcollhost world (calls + 1) s = result at call
  cases call with
  | again _ some_ =>
      rw [enter_other other] at some_
      exact absurd rfl some_
  | _ => rfl

theorem getcollhost_returns (calls : Nat) (s : Search ω) :
    (getcollhost world (calls + 2) s).isSome := by
  have call : Call world (calls + 1) s (getcollhost world (calls + 2) s) :=
    getcollhost_call (calls + 1) s
  generalize getcollhost world (calls + 2) s = result at call
  cases call with
  | again _ _ =>
      refine getcollhost_new calls ?_
      rw [enter_laststate, enter_state]
      exact next_ne s.state
  | _ => rfl

end Calls

end MachFormal.Sup.Getcoll
