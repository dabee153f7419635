import MachFormal.Sup.Rounds

/-!
# What an earlier collection leaves to the next

The number of hosts that `getcollhost` keeps is not zero after a collection that found a
file server.  The next collection begins with it, and `signon` is told a wrong number of
hosts: at once if the state was another one then, and otherwise in the second round.
-/

namespace MachFormal.Sup.Getcoll

open Library Library.Loop
open Stree (SCMOK)

/-! ## The log -/

section Log

variable {ω : Type} {world : World ω} {c : Collection}

def Working.log : Working ω → List Event
  | .choosing s => s.log
  | .connecting s _ _ _ => s.log

theorem requested_log (s : Search ω) (timeout : CInt) : (s.requested timeout).log = s.log := by
  unfold Search.requested
  split <;> rfl

theorem getcollhost_log {calls : Nat} {s s' : Search ω} {o : Option Offer}
    (returns : getcollhost world calls s = some (s', o)) : s.log <+: s'.log := by
  induction calls generalizing s with
  | zero => cases returns
  | succ calls ih =>
      have call : Call world calls s (some (s', o)) := returns ▸ getcollhost_call calls s
      generalize result : some (s', o) = answer at call
      cases call with
      | paused _ _ _ =>
          cases result
          change s.log <+: s.enter.log ++ _
          rw [enter_log]
          exact List.prefix_append _ _
      | again _ _ =>
          have later := ih result.symm
          change s.enter.log <+: _ at later
          rwa [enter_log] at later
      | _ =>
          cases result
          change s.log <+: s.enter.log
          rw [enter_log]

/-- The log after a turn. -/
def logAfter : Working ω ⊕ Found ω → List Event
  | .inl w => w.log
  | .inr f => f.s.log

theorem choose_log (s : Search ω) : s.log <+: logAfter (choose world c s) := by
  unfold choose
  cases returns : getcollhost world 2 s with
  | none => exact List.prefix_rfl
  | some r =>
      obtain ⟨s', o⟩ := r
      have grows : s.log <+: s'.log := getcollhost_log returns
      cases o with
      | none => exact grows
      | some o =>
          dsimp only
          split_ifs
          all_goals exact grows.trans (List.prefix_append _ _)

theorem connect_log (s : Search ω) (o : Offer) (timeout : CInt) (backoff : Nat) :
    s.log <+: logAfter (connect world s o timeout backoff) := by
  have same (net : ω) : s.log <+: ({ s with net := net }.requested timeout).log := by
    rw [requested_log]
  unfold connect
  dsimp only
  split
  · split
    · exact same _
    · exact List.prefix_append _ _
  all_goals exact same _

variable (world c)

/-- What `getcoll` logs. -/
def logger : Logger (turn world c) Event where
  log := Working.log
  final f := f.s.log
  grows {w w'} here := by
    change w.log <+: logAfter (.inl w')
    rw [← here]
    cases w with
    | choosing s => exact choose_log s
    | connecting s o timeout backoff => exact connect_log s o timeout backoff
  ends {w f} here := by
    change w.log <+: logAfter (.inr f)
    rw [← here]
    cases w with
    | choosing s => exact choose_log s
    | connecting s o timeout backoff => exact connect_log s o timeout backoff

end Log

/-! ## When it does not matter -/

section Definitions

variable {ω : Type} (world : World ω) (c : Collection)

/-- The same is logged as in a fresh process. -/
def Independent (statics : Statics) (net : ω) : Prop :=
  ∀ p, Logs (logger world c) (getcoll c statics net) p ↔
    Logs (logger world c) (getcoll c ⟨0, 0⟩ net) p

/-- What comes of one attempt at each of these hosts: none if one of them upgrades the
collection, and otherwise whether one of them was busy. -/
def attempts : List Name → ω → Option (Bool × ω)
  | [], net => some (false, net)
  | h :: rest, net =>
      if !c.CFLOCAL && world.thishost h then attempts rest net
      else
        let r := world.attempt h net
        match r.1 with
        | .connected .ready => none
        | .connected .gone => attempts rest r.2
        | _ => (attempts rest r.2).map fun later => (true, later.2)

/-- The count is zero, or nothing depends on it: there are no hosts, or the state is that of
the first round and there will be no second one. -/
def Harmless (statics : Statics) (net : ω) : Prop :=
  statics.nhosts = 0 ∨ c.hosts = [] ∨
    (statics.laststate = 0 ∧
      (c.Ctimeout = 0 ∨ ∀ net', attempts world c c.hosts net ≠ some (true, net')))

end Definitions

/-! ## The first round -/

section Round

variable {ω : Type} {world : World ω} {c : Collection}

/-- The first round, with any count. -/
def inRound (hosts : List Host) (tout : CInt) (net : ω) (log : List Event) (count : Nat) :
    Working ω :=
  .choosing ⟨hosts, tout, 2, 0, 0, ⟨0, count⟩, net, log⟩

theorem getcoll_inRound (c : Collection) (count : Nat) (net : ω) :
    getcoll c ⟨0, count⟩ net = inRound (c.hosts.map fresh) c.Ctimeout net [] count := rfl

theorem dobackoff_eq_none {tout : CInt} {backoff : Nat} {net : ω} :
    dobackoff world tout backoff net = none ↔ tout = 0 := by
  unfold dobackoff
  by_cases out : tout = 0
  · simp [out]
  · rw [if_neg out]
    dsimp only
    split
    all_goals exact iff_of_false (fun same => by cases same) out

variable (world c) in
/-- What one attempt at a host leaves in `Tmode`, if the collection is not upgraded. -/
def leaves (h : Name) (net : ω) : Option (Int × ω) :=
  if !c.CFLOCAL && world.thishost h then some (SCMEOF, net)
  else
    let r := world.attempt h net
    match r.1 with
    | .connected .ready => none
    | .connected .gone => some (SCMEOF, r.2)
    | _ => some (SCMOK, r.2)

theorem attempts_cons (h : Name) (rest : List Name) (net : ω) :
    attempts world c (h :: rest) net =
      match leaves world c h net with
      | none => none
      | some (mode, net) =>
          (attempts world c rest net).map fun later => (decide (mode = SCMOK) || later.1, later.2) := by
  have same (r : Option (Bool × ω)) :
      r.map (fun later => (decide (SCMEOF = SCMOK) || later.1, later.2)) = r := by
    cases r <;> rfl
  rw [attempts, leaves]
  split_ifs with here
  · exact (same _).symm
  · dsimp only
    split <;> first | rfl | exact (same _).symm

theorem leaves_settled {h : Name} {net net' : ω} {mode : Int}
    (left : leaves world c h net = some (mode, net')) : mode = SCMOK ∨ mode = SCMEOF := by
  unfold leaves at left
  dsimp only at left
  split_ifs at left
  · cases left
    exact .inr rfl
  · split at left
    · cases left
    · cases left
      exact .inr rfl
    · cases left
      exact .inl rfl

variable (world c) in
theorem turn_inRound {front : List Host} (h : Name) (rest : List Name)
    (flagged : ∀ t ∈ front, t.Tflags = 1 ∧ Settled t) (tout : CInt) (net : ω) (log : List Event)
    (count : Nat) :
    let s : Search ω := ⟨front ++ (h :: rest).map fresh, tout, 2, 0, 0, ⟨0, count + 1⟩, net,
      log ++ [.tried h 0]⟩
    let o : Offer := ⟨front, ⟨h, 1, 0⟩, rest.map fresh⟩
    turn world c (inRound (front ++ (h :: rest).map fresh) tout net log count) =
      if !c.CFLOCAL && world.thishost h then .inl (s.leave o SCMEOF)
      else .inl (.connecting s o 0 1) := by
  have partway : Partway ⟨front ++ (h :: rest).map fresh, tout, 2, 0, 0, ⟨0, count⟩, net, log⟩
      front (h :: rest) := ⟨rfl, rfl, flagged⟩
  change choose world c _ = _
  rw [choose, partway.call_cons]
  rfl

theorem connect_inRound {s : Search ω} {o : Offer} (first : s.nhosts = 0) (backoff : Nat) :
    connect world s o 0 backoff =
      let r := world.attempt o.host.Tname s.net
      match r.1 with
      | .connected .ready => .inr ⟨some o.host.Tname, { s with net := r.2 }⟩
      | .connected .gone => .inl ({ s with net := r.2 }.leave o SCMEOF)
      | _ => .inl ({ s with net := r.2 }.leave o SCMOK) := by
  have requested (net : ω) : { s with net := net }.requested 0 = { s with net := net } :=
    if_neg (show s.nhosts ≠ 1 by omega)
  have failed (net : ω) : { s with net := net }.failed o 0 = { s with net := net }.leave o SCMOK := by
    rw [Search.failed, requested, if_neg (not_not.mpr first)]
  have late (net : ω) : dobackoff world 0 backoff net = none := dobackoff_eq_none.mpr rfl
  unfold connect
  dsimp only
  cases (world.attempt o.host.Tname s.net).1 with
  | refused =>
      dsimp only
      rw [late]
      exact congrArg Sum.inl (failed _)
  | unreachable => exact congrArg Sum.inl (failed _)
  | connected reply =>
      cases reply with
      | ready => exact congrArg (fun s' => Sum.inr (Found.mk (some o.host.Tname) s')) (requested _)
      | busy => exact congrArg (fun s' : Search ω => Sum.inl (s'.leave o SCMOK)) (requested _)
      | gone => exact congrArg (fun s' : Search ω => Sum.inl (s'.leave o SCMEOF)) (requested _)

theorem leads_inRound {front : List Host} {h : Name} (rest : List Name) {net net' : ω} {mode : Int}
    (flagged : ∀ t ∈ front, t.Tflags = 1 ∧ Settled t)
    (left : leaves world c h net = some (mode, net')) (tout : CInt) (log : List Event) (count : Nat) :
    ∃ n, Leads (turn world c) n (inRound (front ++ (h :: rest).map fresh) tout net log count)
      (inRound ((front ++ [⟨h, 1, mode⟩]) ++ rest.map fresh) tout net' (log ++ [.tried h 0])
        (count + 1)) := by
  have begins := turn_inRound world c h rest flagged tout net log
    count
  rw [List.append_assoc, List.singleton_append]
  unfold leaves at left
  dsimp only at begins left
  split_ifs at begins left with here
  · cases left
    exact ⟨1, .one begins⟩
  · refine ⟨2, .step begins (.one ?_)⟩
    change connect world _ _ 0 1 = _
    rw [connect_inRound rfl]
    revert left
    dsimp only
    cases (world.attempt h net).1 with
    | refused =>
        intro left
        cases left
        rfl
    | unreachable =>
        intro left
        cases left
        rfl
    | connected reply =>
        cases reply with
        | ready =>
            intro left
            cases left
        | _ =>
            intro left
            cases left
            rfl

theorem ends_inRound {front : List Host} {h : Name} {net : ω}
    (flagged : ∀ t ∈ front, t.Tflags = 1 ∧ Settled t) (left : leaves world c h net = none)
    (rest : List Name) (tout : CInt) (log : List Event) (count : Nat) :
    ∃ n w f, Leads (turn world c) n (inRound (front ++ (h :: rest).map fresh) tout net log count) w ∧
      turn world c w = .inr f ∧ f.s.log = log ++ [.tried h 0] := by
  have begins := turn_inRound world c h rest flagged tout net log
    count
  unfold leaves at left
  dsimp only at begins left
  split_ifs at begins left with here
  have upgrades {s : Search ω} {o : Offer} (first : s.nhosts = 0) (name : o.host.Tname = h)
      (same : s.net = net) : ∃ f, connect world s o 0 1 = .inr f ∧ f.s.log = s.log := by
    rw [connect_inRound first, name, same]
    revert left
    dsimp only
    cases (world.attempt h net).1 with
    | connected reply =>
        cases reply with
        | ready => exact fun _ => ⟨_, rfl, rfl⟩
        | _ => exact fun left => by cases left
    | _ => exact fun left => by cases left
  obtain ⟨f, result, logged⟩ := @upgrades ⟨front ++ (h :: rest).map fresh, tout, 2, 0, 0,
    ⟨0, count + 1⟩, net, log ++ [.tried h 0]⟩ ⟨front, ⟨h, 1, 0⟩, rest.map fresh⟩ rfl rfl rfl
  exact ⟨1, _, f, .one begins, result, logged⟩

variable (world c) in
/-- The first round, however many hosts have been counted before: it upgrades the collection,
or leaves the hosts as the attempts have left them. -/
theorem round (rest : List Name) {front : List Host} (tout : CInt) (net : ω) (log : List Event)
    (flagged : ∀ t ∈ front, t.Tflags = 1 ∧ Settled t) :
    (attempts world c rest net = none ∧ ∃ final, ∀ count, ∃ n w f,
      Leads (turn world c) n (inRound (front ++ rest.map fresh) tout net log count) w ∧
        turn world c w = .inr f ∧ f.s.log = final) ∨
    ∃ busy net' hosts final, attempts world c rest net = some (busy, net') ∧
      (∀ t ∈ hosts, t.Tflags = 1 ∧ Settled t) ∧
      ((∃ t ∈ hosts, t.Tmode = SCMOK) ↔ (∃ t ∈ front, t.Tmode = SCMOK) ∨ busy = true) ∧
      ∀ count, ∃ n, Leads (turn world c) n (inRound (front ++ rest.map fresh) tout net log count)
        (inRound hosts tout net' final (count + rest.length)) := by
  induction rest generalizing front net log with
  | nil =>
      refine .inr ⟨false, net, front, log, rfl, flagged, by simp, fun count => ⟨0, ?_⟩⟩
      rw [List.map_nil, List.append_nil]
      exact .refl _
  | cons h rest ih =>
      rw [attempts_cons]
      cases left : leaves world c h net with
      | none => exact .inl ⟨rfl, _, fun count => ends_inRound flagged left rest tout log count⟩
      | some r =>
          obtain ⟨mode, net'⟩ := r
          have flagged' : ∀ t ∈ front ++ [⟨h, 1, mode⟩], t.Tflags = 1 ∧ Settled t := by
            intro t inside
            rcases List.mem_append.mp inside with before | here
            · exact flagged t before
            · rw [List.mem_singleton] at here
              exact here ▸ ⟨rfl, leaves_settled left⟩
          dsimp only
          rcases ih net' (log ++ [.tried h 0]) flagged' with
            ⟨none, final, ends⟩ | ⟨busy, net'', hosts, final, same, flags, busy', goes⟩
          · refine .inl ⟨by rw [none]; rfl, final, fun count => ?_⟩
            obtain ⟨n, first⟩ := leads_inRound rest flagged left tout log count
            obtain ⟨n', w, f, later, result⟩ := ends (count + 1)
            exact ⟨n + n', w, f, first.trans later, result⟩
          · refine .inr ⟨decide (mode = SCMOK) || busy, net'', hosts, final, by rw [same]; rfl,
              flags, ?_, fun count => ?_⟩
            · rw [busy']
              simp [or_assoc, or_and_right, exists_or]
            · obtain ⟨n, first⟩ := leads_inRound rest flagged left tout log count
              obtain ⟨n', later⟩ := goes (count + 1)
              refine ⟨n + n', first.trans ?_⟩
              rwa [List.length_cons, Nat.add_comm rest.length, ← Nat.add_assoc]

/-! ## The second round -/

theorem process_idle {hosts : List Host} (flagged : ∀ t ∈ hosts, t.Tflags = 1 ∧ Settled t)
    (idle : ¬∃ t ∈ hosts, t.Tmode = SCMOK) : ∃ hosts', processHosts 1 hosts = .inl hosts' := by
  rcases processHosts_spec 1 hosts with ⟨_, same⟩ | ⟨front, t, back, split, _, offered, _⟩
  · exact ⟨_, same⟩
  · have inside : t ∈ hosts := by simp [split]
    have busy := (offered_busy (by decide) offered fun _ => (flagged t inside).2).1
    unfold pass getonehost at busy
    split_ifs at busy
    all_goals exact absurd ⟨t, inside, busy⟩ idle

theorem process_busy {hosts : List Host} (flagged : ∀ t ∈ hosts, t.Tflags = 1 ∧ Settled t)
    (busy : ∃ t ∈ hosts, t.Tmode = SCMOK) : ∃ o, processHosts 1 hosts = .inr o := by
  obtain ⟨t, inside, mode⟩ := busy
  rcases processHosts_spec 1 hosts with ⟨all, _⟩ | ⟨_, _, _, _, _, _, same⟩
  · have passed := all t inside
    unfold getonehost at passed
    rw [if_neg (not_not.mpr (flagged t inside).1), if_neg (by rw [mode]; decide)] at passed
    exact absurd passed eof_ne_ok
  · exact ⟨_, same⟩

variable (world) in
theorem call_second {hosts : List Host} (flagged : ∀ t ∈ hosts, t.Tflags = 1 ∧ Settled t)
    (tout : CInt) (net : ω) (log : List Event) {count : Nat} (some_ : count ≠ 0) :
    getcollhost world 2 ⟨hosts, tout, 2, 0, 0, ⟨0, count⟩, net, log⟩ =
      getcollhost world 1 ⟨hosts, tout, 2, 1, 0, ⟨0, count⟩, net, log⟩ := by
  have partway : Partway ⟨hosts, tout, 2, 0, 0, ⟨0, count⟩, net, log⟩ hosts [] :=
    ⟨rfl, (List.append_nil _).symm, flagged⟩
  rw [partway.call_nil]
  exact if_neg some_

theorem turn_last {hosts : List Host} (flagged : ∀ t ∈ hosts, t.Tflags = 1 ∧ Settled t)
    {tout : CInt} (last : tout = 0 ∨ ¬∃ t ∈ hosts, t.Tmode = SCMOK) (net : ω) (log : List Event)
    {count : Nat} (some_ : count ≠ 0) :
    ∃ f, turn world c (inRound hosts tout net log count) = .inr f ∧ f.s.log = log := by
  have call := call_second world flagged tout net log some_
  change ∃ f, choose world c _ = .inr f ∧ _
  rw [choose, call, getcollhost, enter_other (show (1 : Int) ≠ 0 by decide)]
  dsimp only
  rcases last with out | idle
  · cases processHosts 1 hosts with
    | inl hosts' => exact ⟨_, rfl, rfl⟩
    | inr o =>
        dsimp only
        rw [if_pos ⟨by decide, rfl⟩, dobackoff_eq_none.mpr out]
        exact ⟨_, rfl, rfl⟩
  · obtain ⟨hosts', ended⟩ := process_idle flagged idle
    rw [ended]
    exact ⟨_, rfl, rfl⟩

variable (world c) in
/-- Otherwise there is a pause and then a host, with the number of hosts as it was counted. -/
theorem turn_second {hosts : List Host} (flagged : ∀ t ∈ hosts, t.Tflags = 1 ∧ Settled t)
    {tout : CInt} (time : tout ≠ 0) (busy : ∃ t ∈ hosts, t.Tmode = SCMOK) (net : ω)
    (log : List Event) :
    ∃ seconds h, ∀ count, count ≠ 0 → ∃ w, turn world c (inRound hosts tout net log count) = .inl w ∧
      w.log = log ++ [.waited seconds] ++ [.tried h count] := by
  obtain ⟨o, offers⟩ := process_busy flagged busy
  have inTime : dobackoff world tout 2 net ≠ none := mt dobackoff_eq_none.mp time
  obtain ⟨p, pauses⟩ := Option.ne_none_iff_exists'.mp inTime
  refine ⟨p.seconds, o.host.Tname, fun count some_ => ?_⟩
  have call := call_second world flagged tout net log some_
  change ∃ w, choose world c _ = .inl w ∧ _
  rw [choose, call, getcollhost, enter_other (show (1 : Int) ≠ 0 by decide)]
  dsimp only
  rw [offers]
  dsimp only
  rw [if_pos ⟨by decide, rfl⟩, pauses]
  dsimp only
  split
  · exact ⟨_, rfl, rfl⟩
  · exact ⟨_, rfl, rfl⟩

end Round

/-! ## Which collections are independent -/

section Independence

variable {ω : Type} {world : World ω} {c : Collection}

theorem logs_ended {n : Nat} {w w' : Working ω} {f : Found ω}
    (leads : Leads (turn world c) n w w') (result : turn world c w' = .inr f) (p : List Event) :
    Logs (logger world c) w p ↔ p <+: f.s.log :=
  leads.logs_iff.trans (logs_of_result result)

theorem choose_congr {s t : Search ω} (same : s.enter = t.enter) :
    choose world c s = choose world c t := by
  have call : getcollhost world 2 s = getcollhost world 2 t := by
    rw [getcollhost, getcollhost, same]
  have some_ : (getcollhost world 2 s).isSome := getcollhost_returns 0 s
  obtain ⟨r, returns⟩ := Option.isSome_iff_exists.mp some_
  rw [choose, choose, ← call, returns]
  obtain ⟨s', o⟩ := r
  cases o <;> rfl

/-- With the count zero, the first call makes the static variables those of a fresh process. -/
theorem independent_of_zero (laststate : Int) (net : ω) : Independent world c ⟨laststate, 0⟩ net := by
  intro p
  refine logs_congr (choose_congr ?_)
  by_cases other : (0 : Int) = laststate
  · subst other
    rfl
  · rw [enter_other other]
    exact (enter_same rfl).symm

variable (world) in
theorem turn_noHosts (empty : c.hosts = []) (statics : Statics) (net : ω) :
    ∃ f, turn world c (getcoll c statics net) = .inr f ∧ f.s.log = [] := by
  change ∃ f, choose world c _ = .inr f ∧ _
  rw [empty, choose]
  generalize begun : (⟨[].map fresh, c.Ctimeout, 2, 0, 0, statics, net, []⟩ : Search ω) = s
  have partway : Partway s [] [] := by
    rw [← begun]
    exact ⟨rfl, rfl, fun _ inside => absurd inside List.not_mem_nil⟩
  have log : s.enter.log = [] := by rw [enter_log, ← begun]
  rw [partway.call_nil]
  split_ifs with nothing
  · exact ⟨_, rfl, log⟩
  · have other : (1 : Int) ≠ s.enter.statics.laststate := by
      rw [enter_laststate, partway.state]
      decide
    rw [getcollhost, enter_other other]
    exact ⟨_, rfl, log⟩

variable (world) in
theorem turn_other {h : Name} {rest : List Name} (hosts : c.hosts = h :: rest) {statics : Statics}
    (other : statics.laststate ≠ 0) (net : ω) :
    ∃ w, turn world c (getcoll c statics net) = .inl w ∧ w.log = [.tried h statics.nhosts] := by
  change ∃ w, choose world c _ = .inl w ∧ _
  rw [hosts, choose]
  have partway : Partway ⟨(h :: rest).map fresh, c.Ctimeout, 2, 0, 0, statics, net, []⟩ []
      (h :: rest) := ⟨rfl, rfl, fun _ inside => absurd inside List.not_mem_nil⟩
  rw [partway.call_cons, enter_other other.symm]
  dsimp only
  split
  · exact ⟨_, rfl, rfl⟩
  · exact ⟨_, rfl, rfl⟩

variable (world) in
theorem turn_fresh {h : Name} {rest : List Name} (hosts : c.hosts = h :: rest) (net : ω) :
    ∃ w, turn world c (getcoll c ⟨0, 0⟩ net) = .inl w ∧ w.log = [.tried h 0] := by
  rw [getcoll_inRound, hosts]
  have begins := turn_inRound world c h rest
    (fun t (inside : t ∈ []) => absurd inside List.not_mem_nil) c.Ctimeout net [] 0
  rw [List.nil_append] at begins
  rw [begins]
  split
  · exact ⟨_, rfl, rfl⟩
  · exact ⟨_, rfl, rfl⟩

theorem not_independent {statics : Statics} {net : ω} {m n : Nat} {w w' : Working ω}
    (leads : Leads (turn world c) m (getcoll c statics net) w)
    (leads' : Leads (turn world c) n (getcoll c ⟨0, 0⟩ net) w')
    (length : w.log.length = w'.log.length) (different : w.log ≠ w'.log) :
    ¬Independent world c statics net := by
  intro same
  have logged : Logs (logger world c) (getcoll c statics net) w.log :=
    .running leads List.prefix_rfl
  have logged' := leads'.logs_iff.mp ((same w.log).mp logged)
  exact not_logs length different logged'

theorem independent_of_final {statics : Statics} {net : ω} (final : List Event)
    (ends : ∃ n w f, Leads (turn world c) n (getcoll c statics net) w ∧
      turn world c w = .inr f ∧ f.s.log = final)
    (ends' : ∃ n w f, Leads (turn world c) n (getcoll c ⟨0, 0⟩ net) w ∧
      turn world c w = .inr f ∧ f.s.log = final) : Independent world c statics net := by
  intro p
  obtain ⟨_, _, _, leads, result, log⟩ := ends
  obtain ⟨_, _, _, leads', result', log'⟩ := ends'
  rw [logs_ended leads result, logs_ended leads' result', log, log']

/-- In the state of the first round, the count matters when there is a second one. -/
theorem independent_inRound {count : Nat} (hosts : c.hosts ≠ []) (some_ : count ≠ 0) (net : ω) :
    Independent world c ⟨0, count⟩ net ↔
      c.Ctimeout = 0 ∨ ∀ net', attempts world c c.hosts net ≠ some (true, net') := by
  have positive := List.length_pos_iff.mpr hosts
  have begun : ∀ t ∈ ([] : List Host), t.Tflags = 1 ∧ Settled t :=
    fun _ inside => absurd inside List.not_mem_nil
  rcases round world c c.hosts c.Ctimeout net [] begun with
    ⟨none, final, ends⟩ | ⟨busy, net', left, final, same, flagged, busy', goes⟩
  · refine iff_of_true (independent_of_final final (ends count) (ends 0))
      (.inr fun net' same => ?_)
    rw [none] at same
    cases same
  · have busyIff : (∃ t ∈ left, t.Tmode = SCMOK) ↔ busy = true := busy'.trans (by simp)
    rw [same]
    by_cases last : c.Ctimeout = 0 ∨ busy = false
    · -- the second round does not begin
      have last' : c.Ctimeout = 0 ∨ ¬∃ t ∈ left, t.Tmode = SCMOK := by
        rw [busyIff, Bool.not_eq_true]
        exact last
      have ends (count : Nat) : ∃ n w f, Leads (turn world c) n (getcoll c ⟨0, count⟩ net) w ∧
          turn world c w = .inr f ∧ f.s.log = final := by
        obtain ⟨n, leads⟩ := goes count
        obtain ⟨f, result, log⟩ := turn_last flagged last' net' final
          (show count + c.hosts.length ≠ 0 by omega)
        exact ⟨n, _, f, leads, result, log⟩
      refine iff_of_true (independent_of_final final (ends count) (ends 0)) ?_
      rcases last with out | idle
      · exact .inl out
      · exact .inr fun net'' same' => by
          rw [idle] at same'
          cases same'
    · rw [not_or, Bool.not_eq_false] at last
      obtain ⟨time, rfl⟩ := last
      obtain ⟨seconds, h, second⟩ := turn_second world c flagged time
        (busyIff.mpr rfl) net' final
      refine iff_of_false ?_ (not_or.mpr ⟨time, fun never => never net' rfl⟩)
      obtain ⟨n, leads⟩ := goes count
      obtain ⟨n', leads'⟩ := goes 0
      obtain ⟨w, here, log⟩ := second (count + c.hosts.length) (by omega)
      obtain ⟨w', here', log'⟩ := second (0 + c.hosts.length) (by omega)
      refine not_independent (leads.trans (.one here)) (leads'.trans (.one here')) ?_ ?_
      · simp [log, log']
      · rw [log, log']
        simp
        omega

theorem independent_iff (statics : Statics) (net : ω) :
    Independent world c statics net ↔ Harmless world c statics net := by
  obtain ⟨laststate, count⟩ := statics
  by_cases zero : count = 0
  · subst zero
    exact iff_of_true (independent_of_zero laststate net) (.inl rfl)
  by_cases empty : c.hosts = []
  · obtain ⟨f, result, log⟩ := turn_noHosts world empty ⟨laststate, count⟩ net
    obtain ⟨f', result', log'⟩ := turn_noHosts world empty ⟨0, 0⟩ net
    exact iff_of_true (independent_of_final [] ⟨0, _, f, .refl _, result, log⟩
      ⟨0, _, f', .refl _, result', log'⟩) (.inr (.inl empty))
  by_cases other : laststate = 0
  · subst other
    rw [independent_inRound empty zero]
    simp [Harmless, zero, empty]
  · obtain ⟨h, rest, hosts⟩ := List.exists_cons_of_ne_nil empty
    obtain ⟨w, here, log⟩ := turn_other world hosts
      (show Statics.laststate ⟨laststate, count⟩ ≠ 0 from other) net
    obtain ⟨w', here', log'⟩ := turn_fresh world hosts net
    refine iff_of_false (not_independent (.one here) (.one here') ?_ ?_) ?_
    · rw [log, log']
      rfl
    · rw [log, log']
      simpa using zero
    · simp [Harmless, zero, empty, other]

/-! ## The collections of a process -/

variable (world) in
/-- The static variables after these collections.  What else happens to the world between
them does not matter. -/
inductive Left : List Collection → Statics → Prop where
  | nil : Left [] ⟨0, 0⟩
  | more {cs : List Collection} {statics : Statics} {c : Collection} {net : ω} {f : Found ω}
      (before : Left cs statics) (ends : Ends (turn world c) (getcoll c statics net) f) :
      Left (cs ++ [c]) f.s.statics

/-- After any collections, the search for the next one is as in a fresh process exactly if
what they have left is harmless; in any case it ends each of its calls, offers every host
once in the first round, and later only those that were busy. -/
theorem selection_iff {cs : List Collection} {statics : Statics} (_left : Left world cs statics)
    (c : Collection) (net : ω) :
    (Independent world c statics net ∧ Offers world c (getcoll c statics net)) ↔
      Harmless world c statics net :=
  ⟨fun both => (independent_iff statics net).mp both.1,
    fun harmless => ⟨(independent_iff statics net).mpr harmless, offers_getcoll world c statics net⟩⟩

end Independence

/-! ## Two collections -/

/-- A world in which `a` upgrades every collection and all other hosts refuse. -/
def onlyA : World Unit :=
  ⟨fun _ => false, fun net => (none, net), fun _ net => net,
    fun h net => (if h = [97] then .connected .ready else .refused, net)⟩

/-- A collection with this host that waits as long as is needed. -/
def collectionOf (h : Name) : Collection := ⟨[h], -1, false⟩

theorem left_one : Left onlyA [collectionOf [97]] ⟨0, 1⟩ := by
  have ends : Ends (turn onlyA (collectionOf [97])) (getcoll (collectionOf [97]) ⟨0, 0⟩ ())
      ⟨some [97], ⟨[fresh [97]], -1, 2, 0, 0, ⟨0, 1⟩, (), [.tried [97] 0]⟩⟩ := ⟨2, rfl⟩
  exact .more .nil ends

/-- A collection that does not wait has no second round. -/
theorem selection_after : Independent onlyA ⟨[[98]], 0, false⟩ ⟨0, 1⟩ () ∧
    Offers onlyA ⟨[[98]], 0, false⟩ (getcoll ⟨[[98]], 0, false⟩ ⟨0, 1⟩ ()) :=
  (selection_iff left_one _ ()).mpr (.inr (.inr ⟨rfl, .inl rfl⟩))

/-- After a collection that `a` has upgraded, the search for a server of the next one is told
that it has two hosts when it has one. -/
theorem selection_second : Left onlyA [collectionOf [97]] ⟨0, 1⟩ ∧
    ¬Independent onlyA (collectionOf [98]) ⟨0, 1⟩ () := by
  refine ⟨left_one, fun same => ?_⟩
  rcases (independent_iff ⟨0, 1⟩ ()).mp same with zero | empty | ⟨_, out | never⟩
  · cases zero
  · cases empty
  · exact absurd out (by decide)
  · exact never () rfl

end MachFormal.Sup.Getcoll
