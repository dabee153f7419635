import MachFormal.Sup.Getcoll

/-!
# The rounds of the search

In the first round every host is offered once, in the order of the tree.  In the later
ones the hosts that were busy are offered again.  The static variables make no difference
to this; they do to the numbers of hosts.
-/

namespace MachFormal.Sup.Getcoll

open Library Library.Loop
open Stree (SCMOK)

/-- The hosts that have been tried. -/
def tries (log : List Event) : List Name :=
  log.filterMap fun
    | .tried Tname _ => some Tname
    | .waited _ => none

theorem tries_tried (log : List Event) (h : Name) (n : Nat) :
    tries (log ++ [.tried h n]) = tries log ++ [h] := by
  rw [tries, List.filterMap_append]
  rfl

theorem tries_waited (log : List Event) (s : Nat) : tries (log ++ [.waited s]) = tries log := by
  rw [tries, List.filterMap_append]
  exact List.append_nil _

section Rounds

variable {ω : Type} {world : World ω} {c : Collection}

/-- The first round, when the hosts up to some place have been offered. -/
structure Partway (s : Search ω) (front : List Host) (rest : List Name) : Prop where
  state : s.state = 0
  hosts : s.hosts = front ++ rest.map fresh
  flagged : ∀ t ∈ front, t.Tflags = 1 ∧ Settled t

/-- They are the first hosts of the collection, and no others have been tried. -/
structure First (c : Collection) (s : Search ω) (front : List Host) (rest : List Name) : Prop
    extends Partway s front rest where
  names : c.hosts = front.map Host.Tname ++ rest
  tried : tries s.log = front.map Host.Tname

/-- What holds between two attempts. -/
inductive Going (c : Collection) (s : Search ω) : Prop where
  | first {front : List Host} {rest : List Name} (first : First c s front rest)
  | later (state : s.state = 1 ∨ s.state = 2) (hosts : Later s.hosts)

/-- What holds also while an attempt is being made. -/
def Kept (c : Collection) : Working ω → Prop
  | .choosing s => Going c s
  | .connecting s o _ _ =>
      ∀ mode, mode = SCMOK ∨ mode = SCMEOF → Going c { s with hosts := o.hosts mode }

theorem Going.of_same {s s' : Search ω} (going : Going c s) (state : s'.state = s.state)
    (hosts : s'.hosts = s.hosts) (tried : tries s'.log = tries s.log) : Going c s' := by
  cases going with
  | first first =>
      exact .first ⟨⟨state.trans first.state, hosts.trans first.hosts, first.flagged⟩,
        first.names, tried.trans first.tried⟩
  | later range later => exact .later (state ▸ range) (hosts ▸ later)

theorem Partway.passes {s : Search ω} {front : List Host} {rest : List Name}
    (partway : Partway s front rest) : ∀ t ∈ front, getonehost t 0 = (SCMOK, t) := by
  intro t inside
  have flag := (partway.flagged t inside).1
  exact if_pos (by omega)

theorem Partway.process_cons {s : Search ω} {front : List Host} {h : Name} {rest : List Name}
    (partway : Partway s front (h :: rest)) :
    processHosts 0 s.hosts = .inr ⟨front, ⟨h, 1, 0⟩, rest.map fresh⟩ := by
  rw [partway.hosts, processHosts_append partway.passes]
  change Sum.inr (Offer.mk (front ++ []) _ _) = _
  rw [List.append_nil]
  rfl

theorem Partway.process_nil {s : Search ω} {front : List Host} (partway : Partway s front []) :
    processHosts 0 s.hosts = .inl front := by
  rw [partway.hosts, processHosts_append partway.passes]
  change Sum.inl (front ++ []) = _
  rw [List.append_nil]

theorem Partway.tries {s s' : Search ω} {front : List Host} {h : Name} {rest : List Name}
    (partway : Partway s front (h :: rest)) (state : s'.state = 0) {mode : Int}
    (settled : mode = SCMOK ∨ mode = SCMEOF)
    (hosts : s'.hosts = Offer.hosts ⟨front, ⟨h, 1, 0⟩, rest.map fresh⟩ mode) :
    Partway s' (front ++ [⟨h, 1, mode⟩]) rest where
  state := state
  hosts := by simp [hosts, Offer.hosts]
  flagged := by
    intro t inside
    rcases List.mem_append.mp inside with before | here
    · exact partway.flagged t before
    · rw [List.mem_singleton] at here
      exact here ▸ ⟨rfl, settled⟩

theorem First.tries {s s' : Search ω} {front : List Host} {h : Name} {rest : List Name}
    (first : First c s front (h :: rest)) (state : s'.state = 0) (log : s'.log = s.log)
    {mode : Int} (settled : mode = SCMOK ∨ mode = SCMEOF) (n : Nat) :
    First c { s' with hosts := Offer.hosts ⟨front, ⟨h, 1, 0⟩, rest.map fresh⟩ mode,
                      log := s'.log ++ [.tried h n] } (front ++ [⟨h, 1, mode⟩]) rest where
  toPartway := by
    refine first.toPartway.tries ?_ settled rfl
    exact state
  names := by rw [first.names]; simp
  tried := by
    rw [log, tries_tried, first.tried]
    simp

theorem Partway.later {s : Search ω} {front : List Host} {rest : List Name}
    (partway : Partway s front rest) : Later front :=
  fun t inside _ => (partway.flagged t inside).2

theorem Later.process {state : Int} {hosts : List Host} (later : Later hosts) (other : state ≠ 0) :
    (∃ hosts', processHosts state hosts = .inl hosts' ∧ Later hosts') ∨
      ∃ o, processHosts state hosts = .inr o ∧ o.host.Tmode = SCMOK ∧
        ∀ mode, mode = SCMOK ∨ mode = SCMEOF → Later (o.hosts mode) := by
  rcases processHosts_spec state hosts with
    ⟨all, same⟩ | ⟨front, t, back, split, before, offered, same⟩
  · refine .inl ⟨_, same, fun u inside => ?_⟩
    obtain ⟨t, listed, rfl⟩ := List.mem_map.mp inside
    exact pass_settled (all t listed) (later t listed)
  · subst split
    refine .inr ⟨_, same, (offered_busy other offered (later t (by simp))).1,
      fun mode settled u inside => ?_⟩
    rcases List.mem_append.mp inside with first | others
    · obtain ⟨x, listed, rfl⟩ := List.mem_map.mp first
      exact pass_settled (before x listed) (later x (by simp [listed]))
    · rcases List.mem_cons.mp others with rfl | last
      · exact fun _ => settled
      · exact later u (by simp [last])

theorem getcollhost_later {s s' : Search ω} {o : Offer} {calls : Nat}
    (range : s.state = 1 ∨ s.state = 2) (later : Later s.hosts)
    (returns : getcollhost world calls s = some (s', some o)) :
    (s'.state = 1 ∨ s'.state = 2) ∧ o.host.Tmode = SCMOK ∧
      ∀ mode, mode = SCMOK ∨ mode = SCMEOF → Later (o.hosts mode) := by
  induction calls generalizing s with
  | zero => cases returns
  | succ calls ih =>
      have other : s.state ≠ 0 := by omega
      -- what is offered in this round
      have here {o' : Offer} (offers : processHosts s.state s.hosts = .inr o') :
          o'.host.Tmode = SCMOK ∧ ∀ mode, mode = SCMOK ∨ mode = SCMEOF → Later (o'.hosts mode) := by
        rcases later.process other with ⟨_, ended, _⟩ | ⟨o'', same, busy⟩
        · rw [offers] at ended
          cases ended
        · rw [offers] at same
          exact Sum.inr.inj same ▸ busy
      have call : Call world calls s (some (s', some o)) := returns ▸ getcollhost_call calls s
      generalize result : some (s', some o) = answer at call
      cases call with
      | offered offers _ =>
          cases result
          exact ⟨(enter_state s).symm ▸ range, here offers⟩
      | paused offers _ _ =>
          cases result
          exact ⟨(enter_state s).symm ▸ range, here offers⟩
      | late _ _ _ => cases result
      | none _ _ => cases result
      | again ended _ =>
          rcases later.process other with ⟨hosts', same, kept⟩ | ⟨o', offers, _⟩
          · rw [ended] at same
            cases same
            refine ih ?_ kept result.symm
            rw [enter_state]
            exact next_later (.inr range)
          · rw [ended] at offers
            cases offers

theorem Partway.call_cons {s : Search ω} {front : List Host} {h : Name} {rest : List Name}
    (partway : Partway s front (h :: rest)) (calls : Nat) :
    getcollhost world (calls + 1) s =
      some (s.enter.count, some ⟨front, ⟨h, 1, 0⟩, rest.map fresh⟩) := by
  rw [getcollhost]
  simp only [enter_state, enter_hosts]
  rw [partway.state, partway.process_cons]
  simp

theorem Partway.call_nil {s : Search ω} {front : List Host} (partway : Partway s front [])
    (calls : Nat) :
    getcollhost world (calls + 1) s =
      if s.enter.statics.nhosts = 0 then some ({ s.enter with hosts := front }, none)
      else getcollhost world calls { s.enter with hosts := front, state := 1 } := by
  rw [getcollhost]
  simp only [enter_state, enter_hosts]
  rw [partway.state, partway.process_nil]
  simp

/-- In the first round the next host is offered, and the round is over when there is none. -/
theorem First.offers {s s' : Search ω} {front : List Host} {rest : List Name} {o : Option Offer}
    (first : First c s front rest) (returns : getcollhost world 2 s = some (s', o)) :
    (s'.state = 0 → (o.map fun o => o.host.Tname) = rest.head?) ∧ (s'.state ≠ 0 → rest = []) := by
  cases rest with
  | cons h rest =>
      rw [first.call_cons] at returns
      cases returns
      exact ⟨fun _ => rfl, fun other => absurd ((enter_state s).trans first.state) other⟩
  | nil =>
      refine ⟨fun state => ?_, fun _ => rfl⟩
      rw [first.call_nil] at returns
      split_ifs at returns
      · cases returns
        rfl
      · cases o with
        | none => rfl
        | some o =>
            have range := (getcollhost_later (.inl rfl) first.later returns).1
            omega

theorem Going.call {s s' : Search ω} {o : Offer} (going : Going c s)
    (returns : getcollhost world 2 s = some (s', some o)) :
    (s'.state ≠ 0 → o.host.Tmode = SCMOK) ∧
      ∀ mode n, mode = SCMOK ∨ mode = SCMEOF →
        Going c { s' with hosts := o.hosts mode, log := s'.log ++ [.tried o.host.Tname n] } := by
  cases going with
  | later range later =>
      obtain ⟨range', busy, kept⟩ := getcollhost_later range later returns
      exact ⟨fun _ => busy, fun mode n settled => .later range' (kept mode settled)⟩
  | @first front rest first =>
      cases rest with
      | cons h rest =>
          rw [first.call_cons] at returns
          cases returns
          have state : s.enter.count.state = 0 := (enter_state s).trans first.state
          exact ⟨fun other => absurd state other, fun mode n settled =>
            .first (first.tries state (enter_log s) settled n)⟩
      | nil =>
          rw [first.call_nil] at returns
          split_ifs at returns
          · cases returns
          · obtain ⟨range', busy, kept⟩ := getcollhost_later (.inl rfl) first.later returns
            exact ⟨fun _ => busy, fun mode n settled => .later range' (kept mode settled)⟩

theorem kept_turn {w w' : Working ω} (kept : Kept c w) (here : turn world c w = .inl w') :
    Kept c w' := by
  cases w with
  | choosing s =>
      change choose world c s = _ at here
      unfold choose at here
      split at here
      next none =>
        have returns : (getcollhost world 2 s).isSome := getcollhost_returns 0 s
        rw [none] at returns
        cases returns
      next => cases here
      next s' o returns =>
        have goes := (Going.call kept returns).2
        split_ifs at here
        · cases here
          exact goes _ _ (.inr rfl)
        · cases here
          exact fun mode settled => goes mode _ settled
  | connecting s o timeout backoff =>
      -- what `requested` changes does not matter
      have leaves (net : ω) {mode : Int} (settled : mode = SCMOK ∨ mode = SCMEOF) :
          Kept c (({ s with net := net }.requested timeout).leave o mode) := by
        have same := kept mode settled
        unfold Search.requested Search.leave
        split_ifs
        · exact same.of_same rfl rfl rfl
        · exact same.of_same rfl rfl rfl
      have fails (net : ω) : Kept c ({ s with net := net }.failed o timeout) := by
        refine leaves net ?_
        split_ifs
        · exact .inr rfl
        · exact .inl rfl
      change connect world s o timeout backoff = _ at here
      unfold connect at here
      dsimp only at here
      split at here
      · split at here
        · cases here
          exact fails _
        · cases here
          exact fun mode settled => (kept mode settled).of_same rfl rfl (tries_waited _ _)
      · cases here
        exact fails _
      · cases here
      · cases here
        exact leaves _ (.inl rfl)
      · cases here
        exact leaves _ (.inr rfl)

theorem kept_getcoll (statics : Statics) (net : ω) : Kept c (getcoll c statics net) :=
  .first (show First c _ [] c.hosts from
    ⟨⟨rfl, rfl, fun _ inside => absurd inside List.not_mem_nil⟩, rfl, rfl⟩)

theorem kept_leads {n : Nat} {w w' : Working ω} (leads : Leads (turn world c) n w w')
    (kept : Kept c w) : Kept c w' := by
  induction leads with
  | refl _ => exact kept
  | step here _ ih => exact ih (kept_turn kept here)

end Rounds

/-! ## What is always so -/

/-- In every run: `getcollhost` returns, the first round offers each host once, and the later
ones only hosts that were busy. -/
def Offers {ω : Type} (world : World ω) (c : Collection) (w : Working ω) : Prop :=
  ∀ n s, Leads (turn world c) n w (.choosing s) →
    (∀ calls, (getcollhost world (calls + 2) s).isSome) ∧
    (s.state = 0 → ∃ done rest, c.hosts = done ++ rest ∧ tries s.log = done ∧
      ∀ s' o, getcollhost world 2 s = some (s', o) →
        (s'.state = 0 → (o.map fun o => o.host.Tname) = rest.head?) ∧
        (s'.state ≠ 0 → rest = [])) ∧
    ∀ s' o, getcollhost world 2 s = some (s', some o) → s'.state ≠ 0 → o.host.Tmode = SCMOK

theorem offers_getcoll {ω : Type} (world : World ω) (c : Collection) (statics : Statics)
    (net : ω) : Offers world c (getcoll c statics net) := by
  intro n s leads
  have going : Going c s := kept_leads leads (kept_getcoll statics net)
  refine ⟨fun calls => getcollhost_returns calls s, fun state => ?_,
    fun s' o returns => (going.call returns).1⟩
  cases going with
  | first first => exact ⟨_, _, first.names, first.tried, fun s' o returns => first.offers returns⟩
  | later range _ => omega

end MachFormal.Sup.Getcoll
