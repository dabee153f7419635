import MachFormal.Library.Machine
import MachFormal.Library.Linked

/-!
# Matching port deaths with their owners

The server learns in either order which kernel of which object owns a port and
that the port has died.  Whichever comes first waits in a list of its own: an
owner in `registry`, a death in `unregistry`.  Both lists are built from
allocated entries.  What `malloc` returns is an input; following a pointer to a
freed entry has no result, and so does walking down a list that does not end.
-/

namespace MachFormal.NetMemory.PortDeath

open MachFormal.Library

/-- `struct registry`. -/
structure Entry where
  object : Nat := 0
  kernel : Nat := 0
  port : Nat := 0
  next : Option Nat := none
  deriving DecidableEq, Repr

/-- A `port_death` message: the object and the kernel it goes to, and the port. -/
structure Notice where
  object : Nat
  kernel : Nat
  port : Nat
  deriving DecidableEq, Repr

/-- The two lists; `live` are the entries that are allocated, `sent` the messages, newest
first. -/
structure Server where
  heap : Nat → Entry := fun _ => {}
  live : List Nat := []
  registry : Option Nat := none
  unregistry : Option Nat := none
  sent : List Notice := []

namespace Server

/-- The loop that looks for a port; the result is the entry found and the one before it. -/
def search (s : Server) (port : Nat) : Nat → Option Nat → Option Nat →
    Option (Option (Option Nat × Nat))
  | _, _, none => some none
  | 0, _, some _ => none
  | fuel + 1, prev, some r =>
      if r ∈ s.live then
        if (s.heap r).port = port then some (some (prev, r))
        else s.search port fuel (some r) (s.heap r).next
      else none

def setNext (s : Server) (r : Nat) (next : Option Nat) : Server :=
  { s with heap := Function.update s.heap r { s.heap r with next := next } }

def free (s : Server) (r : Nat) : Server :=
  { s with live := s.live.erase r }

/-- The block that `malloc` returned, with the values assigned to it. -/
def alloc (s : Server) (fresh : Nat) (entry : Entry) : Server :=
  { s with heap := Function.update s.heap fresh entry, live := fresh :: s.live }

def send (s : Server) (notice : Notice) : Server :=
  { s with sent := notice :: s.sent }

/-- `port_death_register`; `fresh` is what `malloc` returns. -/
def portDeathRegister (s : Server) (notice : Notice) (fresh : Nat) : Option Server :=
  (s.search notice.port s.live.length none s.unregistry).bind fun
    | some (prev, r) =>
        let next := (s.heap r).next
        let s := s.send notice
        let s := match prev with
          | some p => s.setNext p next
          | none => { s with unregistry := next }
        some (s.free r)
    | none =>
        if fresh ∈ s.live then none
        else some
          { s.alloc fresh ⟨notice.object, notice.kernel, notice.port, s.registry⟩ with
            registry := some fresh }

/-- `handle_port_death`.  An entry found at the head of `registry` is unlinked from
`unregistry`. -/
def handlePortDeath (s : Server) (port fresh : Nat) : Option Server :=
  (s.search port s.live.length none s.registry).bind fun
    | some (prev, r) =>
        let entry := s.heap r
        let s := s.send ⟨entry.object, entry.kernel, port⟩
        let s := match prev with
          | some p => s.setNext p entry.next
          | none => { s with unregistry := entry.next }
        some (s.free r)
    | none =>
        if fresh ∈ s.live then none
        else some
          { s.alloc fresh { s.heap fresh with port := port, next := s.unregistry } with
            unregistry := some fresh }

/-- The successor of an entry. -/
def next (s : Server) (r : Nat) : Option Nat := (s.heap r).next

/-- The registration kept in an entry. -/
def owner (s : Server) (r : Nat) : Notice :=
  ⟨(s.heap r).object, (s.heap r).kernel, (s.heap r).port⟩

def portOf (s : Server) (r : Nat) : Nat := (s.heap r).port

end Server

/-! ## The calls -/

/-- The server with the registrations and the deaths it has been told of, newest first. -/
structure System where
  server : Server := {}
  registrations : List Notice := []
  deaths : List Nat := []

inductive Label where
  | register (notice : Notice) (fresh : Nat)
  | death (port fresh : Nat)
  deriving DecidableEq, Repr

/-- One call.  No port is registered twice, and none dies twice. -/
def step (s : System) : Label → Option System
  | .register notice fresh =>
      if notice.port ∈ s.registrations.map Notice.port then none
      else
        (s.server.portDeathRegister notice fresh).bind fun server =>
          some { s with server := server, registrations := notice :: s.registrations }
  | .death port fresh =>
      if port ∈ s.deaths then none
      else
        (s.server.handlePortDeath port fresh).bind fun server =>
          some { s with server := server, deaths := port :: s.deaths }

def machine : Machine System Label where
  init s := s = {}
  step := step

/-- A port that dies is not the one of the newest entry of `registry`. -/
def NotNewest (s : System) : Label → Prop
  | .register _ _ => True
  | .death port _ => ∀ r, s.server.registry = some r → s.server.portOf r ≠ port

/-! ## What the server should hold -/

/-- The registrations of ports that are not dead. -/
def unmatchedOwners (s : System) : List Notice :=
  s.registrations.filter (fun notice => notice.port ∉ s.deaths)

/-- The dead ports that are not registered. -/
def unmatchedDeaths (s : System) : List Nat :=
  s.deaths.filter (fun port => port ∉ s.registrations.map Notice.port)

/-- The lists `xs` and `ys` are `registry` and `unregistry`: they hold the unmatched
registrations and the unmatched deaths, and nothing else is allocated. -/
structure Lists (s : System) (xs ys : List Nat) : Prop where
  registry : Linked s.server.next s.server.registry xs
  unregistry : Linked s.server.next s.server.unregistry ys
  live : s.server.live.Perm (xs ++ ys)
  nodup : s.server.live.Nodup
  owners : xs.map s.server.owner = unmatchedOwners s
  deaths : ys.map s.server.portOf = unmatchedDeaths s

/-- Every port that is registered and dead has caused one message, to its owner, and nothing
else has; the lists are right. -/
structure Matched (s : System) : Prop where
  notices : ∀ notice, s.server.sent.count notice =
    if notice ∈ s.registrations ∧ notice.port ∈ s.deaths then 1 else 0
  lists : ∃ xs ys, Lists s xs ys

/-- The invariant: the ports are distinct, as the callers promise. -/
structure Inv (s : System) : Prop where
  matched : Matched s
  registered : (s.registrations.map Notice.port).Nodup
  died : s.deaths.Nodup

/-! ## Searching and unlinking -/

section Search

variable {s : Server} {start prev : Option Nat} {xs : List Nat} {port fuel : Nat}

theorem search_spec (h : Linked s.next start xs) (hlive : ∀ x ∈ xs, x ∈ s.live)
    (hfuel : xs.length ≤ fuel) :
    ((∀ x ∈ xs, s.portOf x ≠ port) ∧ s.search port fuel prev start = some none) ∨
    ∃ as r bs, xs = as ++ r :: bs ∧ s.portOf r = port ∧ (∀ x ∈ as, s.portOf x ≠ port) ∧
      s.search port fuel prev start = some (some (as.getLast?.or prev, r)) := by
  induction xs generalizing start prev fuel with
  | nil =>
      obtain rfl : start = none := h
      left
      refine ⟨fun x hx => absurd hx List.not_mem_nil, ?_⟩
      cases fuel <;> rfl
  | cons x xs ih =>
      obtain ⟨rfl, hrest⟩ := h
      obtain ⟨fuel, rfl⟩ : ∃ n, fuel = n + 1 := ⟨fuel - 1, by simp at hfuel; omega⟩
      have hx : x ∈ s.live := hlive x List.mem_cons_self
      by_cases hport : s.portOf x = port
      · right
        refine ⟨[], x, xs, rfl, hport, fun y hy => absurd hy List.not_mem_nil, ?_⟩
        simp only [Server.search, if_pos hx]
        exact if_pos hport
      · have hsearch : s.search port (fuel + 1) prev (some x) =
            s.search port fuel (some x) (s.next x) := by
          simp only [Server.search, if_pos hx]
          exact if_neg hport
        rw [hsearch]
        have hfuel' : xs.length ≤ fuel := by simpa using hfuel
        rcases ih hrest (fun y hy => hlive y (List.mem_cons_of_mem x hy)) hfuel' with
          ⟨hnone, heq⟩ | ⟨as, r, bs, rfl, hr, has, heq⟩
        · left
          refine ⟨?_, heq⟩
          intro y hy
          rcases List.mem_cons.mp hy with rfl | hy
          · exact hport
          · exact hnone y hy
        · right
          refine ⟨x :: as, r, bs, rfl, hr, ?_, ?_⟩
          · intro y hy
            rcases List.mem_cons.mp hy with rfl | hy
            · exact hport
            · exact has y hy
          · rw [heq, List.getLast?_cons]
            cases as.getLast? <;> rfl

theorem next_setNext (s : Server) (r : Nat) (next : Option Nat) :
    (s.setNext r next).next = Function.update s.next r next := by
  funext a
  by_cases ha : a = r
  · subst ha
    simp [Server.next, Server.setNext]
  · simp [Server.next, Server.setNext, Function.update_of_ne ha]

theorem owner_setNext (s : Server) (r : Nat) (next : Option Nat) :
    (s.setNext r next).owner = s.owner := by
  funext a
  by_cases ha : a = r
  · subst ha
    simp [Server.owner, Server.setNext]
  · simp [Server.owner, Server.setNext, Function.update_of_ne ha]

theorem next_alloc_self (s : Server) (fresh : Nat) (entry : Entry) :
    (s.alloc fresh entry).next fresh = entry.next := by
  simp [Server.next, Server.alloc]

theorem owner_alloc_self (s : Server) (fresh : Nat) (entry : Entry) :
    (s.alloc fresh entry).owner fresh = ⟨entry.object, entry.kernel, entry.port⟩ := by
  simp [Server.owner, Server.alloc]

theorem portOf_alloc_self (s : Server) (fresh : Nat) (entry : Entry) :
    (s.alloc fresh entry).portOf fresh = entry.port := by
  simp [Server.portOf, Server.alloc]

theorem linked_alloc {fresh : Nat} (h : Linked s.next start xs) (hfresh : fresh ∉ xs)
    (entry : Entry) : Linked (s.alloc fresh entry).next start xs := by
  refine h.congr (fun x hx => ?_)
  have hne : x ≠ fresh := fun heq => hfresh (heq ▸ hx)
  simp only [Server.next, Server.alloc, Function.update_of_ne hne]

theorem map_owner_alloc {fresh : Nat} {entry : Entry} (hfresh : fresh ∉ xs) :
    xs.map (s.alloc fresh entry).owner = xs.map s.owner := by
  refine List.map_congr_left (fun x hx => ?_)
  have hne : x ≠ fresh := fun heq => hfresh (heq ▸ hx)
  simp only [Server.owner, Server.alloc, Function.update_of_ne hne]

theorem map_portOf_alloc {fresh : Nat} {entry : Entry} (hfresh : fresh ∉ xs) :
    xs.map (s.alloc fresh entry).portOf = xs.map s.portOf := by
  have hmap := congrArg (List.map Notice.port) (@map_owner_alloc s xs fresh entry hfresh)
  rw [List.map_map, List.map_map] at hmap
  exact hmap

end Search

/-! ## One call -/

section Step

variable {s s' : System} {xs ys : List Nat} {notice : Notice} {port fresh : Nat}

theorem filter_split {α : Type} (f : α → Nat) {as bs : List α} {r : α}
    (hnodup : ((as ++ r :: bs).map f).Nodup) :
    (as ++ r :: bs).filter (fun x => f x ≠ f r) = as ++ bs := by
  rw [List.map_append, List.map_cons, List.nodup_append] at hnodup
  obtain ⟨-, hrest, hdisjoint⟩ := hnodup
  have has : ∀ x ∈ as, f x ≠ f r := by
    intro x hx
    exact hdisjoint (f x) (List.mem_map_of_mem hx) (f r) List.mem_cons_self
  have hbs : ∀ x ∈ bs, f x ≠ f r := by
    intro x hx heq
    exact (List.nodup_cons.mp hrest).1 (heq ▸ List.mem_map_of_mem hx)
  rw [List.filter_append, List.filter_cons_of_neg (by simp),
    List.filter_eq_self.mpr (fun x hx => by simpa using has x hx),
    List.filter_eq_self.mpr (fun x hx => by simpa using hbs x hx)]

theorem unmatchedDeaths_cons (s : System) (notice : Notice) (server : Server) :
    unmatchedDeaths { s with server := server, registrations := notice :: s.registrations } =
      (unmatchedDeaths s).filter (fun port => port ≠ notice.port) := by
  simp only [unmatchedDeaths, List.filter_filter, List.map_cons, List.mem_cons, not_or,
    Bool.decide_and]

theorem unmatchedOwners_cons (s : System) (port : Nat) (server : Server) :
    unmatchedOwners { s with server := server, deaths := port :: s.deaths } =
      (unmatchedOwners s).filter (fun notice => notice.port ≠ port) := by
  simp only [unmatchedOwners, List.filter_filter, List.mem_cons, not_or, Bool.decide_and]

theorem mem_unmatchedDeaths : port ∈ unmatchedDeaths s ↔
    port ∈ s.deaths ∧ port ∉ s.registrations.map Notice.port := by
  simp only [unmatchedDeaths, List.mem_filter, decide_eq_true_eq]

theorem mem_unmatchedOwners : notice ∈ unmatchedOwners s ↔
    notice ∈ s.registrations ∧ notice.port ∉ s.deaths := by
  simp only [unmatchedOwners, List.mem_filter, decide_eq_true_eq]

theorem Lists.nodup_append (h : Lists s xs ys) : (xs ++ ys).Nodup :=
  h.live.nodup_iff.mp h.nodup

/-- Taking an entry out of a list with `prev` before it, as both routines do at a list of
their own. -/
theorem unlink_linked {next : Nat → Option Nat} {start : Option Nat} {as bs : List Nat}
    {p r : Nat} (h : Linked next start (as ++ r :: bs)) (hnodup : (as ++ r :: bs).Nodup)
    (hp : as.getLast? = some p) : Linked (Function.update next p (next r)) start (as ++ bs) := by
  obtain ⟨zs, rfl⟩ := List.getLast?_eq_some_iff.mp hp
  rw [List.append_assoc] at h hnodup ⊢
  exact h.unlink hnodup

theorem Lists.push_owner (h : Lists s xs ys) (hfresh : fresh ∉ s.server.live)
    (hdead : notice.port ∉ s.deaths) :
    Lists { s with
      server := { s.server.alloc fresh
          ⟨notice.object, notice.kernel, notice.port, s.server.registry⟩ with
        registry := some fresh }
      registrations := notice :: s.registrations } (fresh :: xs) ys := by
  have hxs : fresh ∉ xs := fun hx => hfresh (h.live.mem_iff.mpr (List.mem_append_left ys hx))
  have hys : fresh ∉ ys := fun hy => hfresh (h.live.mem_iff.mpr (List.mem_append_right xs hy))
  constructor
  · refine ⟨rfl, ?_⟩
    exact (next_alloc_self _ _ _).symm ▸ linked_alloc h.registry hxs _
  · exact linked_alloc h.unregistry hys _
  · exact h.live.cons fresh
  · exact List.nodup_cons.mpr ⟨hfresh, h.nodup⟩
  · have howners : unmatchedOwners { s with registrations := notice :: s.registrations } =
        notice :: unmatchedOwners s :=
      List.filter_cons_of_pos (by simpa using hdead)
    calc (fresh :: xs).map (s.server.alloc fresh _).owner
        = notice :: xs.map (s.server.alloc fresh _).owner := by
          rw [List.map_cons, owner_alloc_self]
      _ = notice :: xs.map s.server.owner := by rw [map_owner_alloc hxs]
      _ = _ := by rw [h.owners]; exact howners.symm
  · have hkept : (unmatchedDeaths s).filter (fun port => port ≠ notice.port) =
        unmatchedDeaths s := by
      refine List.filter_eq_self.mpr (fun p hp => ?_)
      have hne : p ≠ notice.port := fun heq => hdead (heq ▸ (mem_unmatchedDeaths.mp hp).1)
      simpa using hne
    calc ys.map (s.server.alloc fresh _).portOf = ys.map s.server.portOf := map_portOf_alloc hys
      _ = unmatchedDeaths s := h.deaths
      _ = _ := by rw [unmatchedDeaths_cons, hkept]

theorem Lists.push_death (h : Lists s xs ys) (hfresh : fresh ∉ s.server.live)
    (hreg : port ∉ s.registrations.map Notice.port) :
    Lists { s with
      server := { s.server.alloc fresh
          { s.server.heap fresh with port := port, next := s.server.unregistry } with
        unregistry := some fresh }
      deaths := port :: s.deaths } xs (fresh :: ys) := by
  have hxs : fresh ∉ xs := fun hx => hfresh (h.live.mem_iff.mpr (List.mem_append_left ys hx))
  have hys : fresh ∉ ys := fun hy => hfresh (h.live.mem_iff.mpr (List.mem_append_right xs hy))
  constructor
  · exact linked_alloc h.registry hxs _
  · refine ⟨rfl, ?_⟩
    exact (next_alloc_self _ _ _).symm ▸ linked_alloc h.unregistry hys _
  · exact (h.live.cons fresh).trans List.perm_middle.symm
  · exact List.nodup_cons.mpr ⟨hfresh, h.nodup⟩
  · have hkept : (unmatchedOwners s).filter (fun notice => notice.port ≠ port) =
        unmatchedOwners s := by
      refine List.filter_eq_self.mpr (fun n hn => ?_)
      have hne : n.port ≠ port :=
        fun heq => hreg (heq ▸ List.mem_map_of_mem (mem_unmatchedOwners.mp hn).1)
      simpa using hne
    calc xs.map (s.server.alloc fresh _).owner = xs.map s.server.owner := map_owner_alloc hxs
      _ = unmatchedOwners s := h.owners
      _ = _ := by rw [unmatchedOwners_cons, hkept]
  · have hdeaths : unmatchedDeaths { s with deaths := port :: s.deaths } =
        port :: unmatchedDeaths s :=
      List.filter_cons_of_pos (by simpa using hreg)
    calc (fresh :: ys).map (s.server.alloc fresh _).portOf
        = port :: ys.map (s.server.alloc fresh _).portOf := by
          rw [List.map_cons, portOf_alloc_self]
      _ = port :: ys.map s.server.portOf := by rw [map_portOf_alloc hys]
      _ = _ := by rw [h.deaths]; exact hdeaths.symm

theorem count_send (P Q : Notice → Prop) [DecidablePred P] [DecidablePred Q]
    {sent : List Notice} (h : ∀ n, sent.count n = if P n then 1 else 0) (hnot : ¬ P notice)
    (hQ : ∀ n, Q n ↔ P n ∨ n = notice) (n : Notice) :
    (notice :: sent).count n = if Q n then 1 else 0 := by
  rw [List.count_cons, h]
  by_cases hn : n = notice
  · subst hn
    simp [hnot, (hQ n).mpr (Or.inr rfl)]
  · have hbeq : (notice == n) = false := by simpa using fun heq => hn heq.symm
    by_cases hP : P n
    · simp [hP, hbeq, (hQ n).mpr (Or.inl hP)]
    · have hnQ : ¬ Q n := fun hq => ((hQ n).mp hq).elim hP hn
      simp [hP, hbeq, hnQ]

theorem live_erase {live before after : List Nat} {r : Nat}
    (hlive : live.Perm (before ++ r :: after)) : (live.erase r).Perm (before ++ after) := by
  have hcons : live.Perm (r :: (before ++ after)) := hlive.trans List.perm_middle
  simpa using hcons.erase r

theorem Lists.pop_death {as bs : List Nat} {r : Nat} (h : Lists s xs (as ++ r :: bs))
    (hports : ((as ++ r :: bs).map s.server.portOf).Nodup) (hr : s.server.portOf r = notice.port)
    (hdead : notice.port ∈ s.deaths) {server : Server}
    (hserver : server = (match as.getLast? with
      | some p => (s.server.send notice).setNext p (s.server.heap r).next
      | none => { s.server.send notice with unregistry := (s.server.heap r).next }).free r) :
    Lists { s with server := server, registrations := notice :: s.registrations }
      xs (as ++ bs) := by
  have hall := h.nodup_append
  obtain ⟨-, hnodup, hdisjoint⟩ := List.nodup_append.mp hall
  have howner : server.owner = s.server.owner := by
    subst hserver
    cases as.getLast? with
    | none => rfl
    | some p => exact owner_setNext s.server p _
  have hport : server.portOf = s.server.portOf := by
    funext a
    exact congrArg Notice.port (congrFun howner a)
  have hlive : server.live = s.server.live.erase r := by
    subst hserver
    cases as.getLast? <;> rfl
  have hlists : Linked server.next server.registry xs ∧
      Linked server.next server.unregistry (as ++ bs) := by
    subst hserver
    cases hp : as.getLast? with
    | none =>
        obtain rfl := List.getLast?_eq_none_iff.mp hp
        exact ⟨h.registry, h.unregistry.2⟩
    | some p =>
        have hpx : p ∉ xs := by
          intro hx
          have hpa : p ∈ as ++ r :: bs := List.mem_append_left _ (List.mem_of_getLast? hp)
          exact hdisjoint p hx p hpa rfl
        have hnext : (((s.server.send notice).setNext p (s.server.heap r).next).free r).next =
            Function.update s.server.next p (s.server.next r) := next_setNext s.server p _
        simp only [hnext]
        exact ⟨h.registry.update hpx _, unlink_linked h.unregistry hnodup hp⟩
  constructor
  · exact hlists.1
  · exact hlists.2
  · simp only [hlive]
    have hshape : xs ++ (as ++ r :: bs) = (xs ++ as) ++ r :: bs := by simp
    have herase := live_erase (hshape ▸ h.live)
    rwa [List.append_assoc] at herase
  · simp only [hlive]
    exact h.nodup.erase r
  · have howners : unmatchedOwners { s with registrations := notice :: s.registrations } =
        unmatchedOwners s :=
      List.filter_cons_of_neg (by simpa using hdead)
    simp only [howner]
    exact h.owners.trans howners.symm
  · simp only [hport]
    rw [unmatchedDeaths_cons, ← h.deaths, ← hr, List.filter_map]
    have hsplit := filter_split s.server.portOf hports
    exact congrArg (List.map s.server.portOf) hsplit.symm

/-- A death of a registered port: its entry leaves `registry`, when it is not the newest. -/
theorem Lists.pop_owner {as bs : List Nat} {p r : Nat} (h : Lists s (as ++ r :: bs) ys)
    (hports : ((as ++ r :: bs).map s.server.portOf).Nodup) (hp : as.getLast? = some p)
    (hreg : s.server.portOf r ∈ s.registrations.map Notice.port) {server : Server}
    (hserver : server = ((s.server.send (s.server.owner r)).setNext p
      (s.server.heap r).next).free r) :
    Lists { s with server := server, deaths := s.server.portOf r :: s.deaths }
      (as ++ bs) ys := by
  have hall := h.nodup_append
  obtain ⟨hnodup, -, hdisjoint⟩ := List.nodup_append.mp hall
  have howner : server.owner = s.server.owner := by
    subst hserver
    exact owner_setNext s.server p _
  have hport : server.portOf = s.server.portOf := by
    funext a
    exact congrArg Notice.port (congrFun howner a)
  have hnext : server.next = Function.update s.server.next p (s.server.next r) := by
    subst hserver
    exact next_setNext s.server p _
  have hlive : server.live = s.server.live.erase r := by
    subst hserver
    rfl
  have hpa : p ∈ as ++ r :: bs := List.mem_append_left _ (List.mem_of_getLast? hp)
  have hpy : p ∉ ys := fun hy => hdisjoint p hpa p hy rfl
  have hstart : server.registry = s.server.registry ∧
      server.unregistry = s.server.unregistry := by
    subst hserver
    exact ⟨rfl, rfl⟩
  constructor
  · simp only [hnext, hstart.1]
    exact unlink_linked h.registry hnodup hp
  · simp only [hnext, hstart.2]
    exact h.unregistry.update hpy _
  · simp only [hlive]
    have hshape : (as ++ r :: bs) ++ ys = as ++ r :: (bs ++ ys) := by simp
    have herase := live_erase (hshape ▸ h.live)
    rwa [← List.append_assoc] at herase
  · simp only [hlive]
    exact h.nodup.erase r
  · simp only [howner]
    rw [unmatchedOwners_cons, ← h.owners, List.filter_map]
    have hsplit := filter_split s.server.portOf hports
    exact congrArg (List.map s.server.owner) hsplit.symm
  · have hdeaths : unmatchedDeaths { s with deaths := s.server.portOf r :: s.deaths } =
        unmatchedDeaths s :=
      List.filter_cons_of_neg (by simpa using hreg)
    simp only [hport]
    exact h.deaths.trans hdeaths.symm

theorem Lists.length_le (h : Lists s xs ys) :
    xs.length ≤ s.server.live.length ∧ ys.length ≤ s.server.live.length := by
  have hlength := h.live.length_eq
  rw [List.length_append] at hlength
  omega

theorem register_inv (hs : Inv s) (hstep : step s (.register notice fresh) = some s') :
    Inv s' := by
  obtain ⟨xs, ys, hl⟩ := hs.matched.lists
  simp only [step] at hstep
  split at hstep
  · cases hstep
  · next hnew =>
      obtain ⟨server, hserver, hs'⟩ := Option.bind_eq_some_iff.mp hstep
      cases hs'
      have hregistered : ((notice :: s.registrations).map Notice.port).Nodup :=
        List.nodup_cons.mpr ⟨hnew, hs.registered⟩
      have hnotin : ¬ (notice ∈ s.registrations ∧ notice.port ∈ s.deaths) :=
        fun hin => hnew (List.mem_map_of_mem hin.1)
      have hportsNodup : (ys.map s.server.portOf).Nodup := by
        rw [hl.deaths]
        exact hs.died.filter _
      have hys : ∀ y ∈ ys, y ∈ s.server.live :=
        fun y hy => hl.live.mem_iff.mpr (List.mem_append_right xs hy)
      simp only [Server.portDeathRegister] at hserver
      rcases @search_spec s.server _ none ys notice.port _ hl.unregistry hys hl.length_le.2 with
        ⟨hnone, hsearch⟩ | ⟨as, r, bs, rfl, hr, has, hsearch⟩
      · rw [hsearch, Option.bind_some] at hserver
        dsimp only at hserver
        split at hserver
        · cases hserver
        · next hfresh =>
            cases hserver
            have hdead : notice.port ∉ s.deaths := by
              intro hin
              have hmem := mem_unmatchedDeaths.mpr ⟨hin, hnew⟩
              rw [← hl.deaths] at hmem
              obtain ⟨y, hy, hport⟩ := List.mem_map.mp hmem
              exact hnone y hy hport
            refine ⟨⟨?_, fresh :: xs, ys, hl.push_owner hfresh hdead⟩, hregistered, hs.died⟩
            intro n
            refine (hs.matched.notices n).trans ?_
            refine if_congr ?_ rfl rfl
            rw [List.mem_cons]
            constructor
            · exact fun hn => ⟨Or.inr hn.1, hn.2⟩
            · rintro ⟨rfl | hn, hd⟩
              · exact absurd hd hdead
              · exact ⟨hn, hd⟩
      · rw [hsearch, Option.bind_some, Option.or_none] at hserver
        have hdead : notice.port ∈ s.deaths := by
          have hmem : s.server.portOf r ∈ (as ++ r :: bs).map s.server.portOf :=
            List.mem_map_of_mem (by simp)
          rw [hl.deaths, hr] at hmem
          exact (mem_unmatchedDeaths.mp hmem).1
        have hsent : server.sent = notice :: s.server.sent := by
          cases Option.some.inj hserver
          cases as.getLast? <;> rfl
        refine ⟨⟨?_, xs, as ++ bs, hl.pop_death hportsNodup hr hdead
          (Option.some.inj hserver).symm⟩, hregistered, hs.died⟩
        intro n
        simp only [hsent]
        refine count_send (fun n => n ∈ s.registrations ∧ n.port ∈ s.deaths)
          (fun n => n ∈ notice :: s.registrations ∧ n.port ∈ s.deaths)
          hs.matched.notices hnotin (fun n => ?_) n
        rw [List.mem_cons]
        constructor
        · rintro ⟨rfl | hn, hd⟩
          · exact Or.inr rfl
          · exact Or.inl ⟨hn, hd⟩
        · rintro (hn | rfl)
          · exact ⟨Or.inr hn.1, hn.2⟩
          · exact ⟨Or.inl rfl, hdead⟩

theorem death_inv (hs : Inv s) (hok : NotNewest s (.death port fresh))
    (hstep : step s (.death port fresh) = some s') : Inv s' := by
  obtain ⟨xs, ys, hl⟩ := hs.matched.lists
  simp only [step] at hstep
  split at hstep
  · cases hstep
  · next hnew =>
      obtain ⟨server, hserver, hs'⟩ := Option.bind_eq_some_iff.mp hstep
      cases hs'
      have hdied : (port :: s.deaths).Nodup := List.nodup_cons.mpr ⟨hnew, hs.died⟩
      have hownersNodup : (xs.map s.server.portOf).Nodup := by
        have hfilter : ((unmatchedOwners s).map Notice.port).Nodup :=
          (List.filter_sublist.map Notice.port).nodup hs.registered
        rw [← hl.owners, List.map_map] at hfilter
        exact hfilter
      have hxs : ∀ x ∈ xs, x ∈ s.server.live :=
        fun x hx => hl.live.mem_iff.mpr (List.mem_append_left ys hx)
      simp only [Server.handlePortDeath] at hserver
      rcases @search_spec s.server _ none xs port _ hl.registry hxs hl.length_le.1 with
        ⟨hnone, hsearch⟩ | ⟨as, r, bs, rfl, hr, has, hsearch⟩
      · rw [hsearch, Option.bind_some] at hserver
        dsimp only at hserver
        split at hserver
        · cases hserver
        · next hfresh =>
            cases hserver
            have hreg : port ∉ s.registrations.map Notice.port := by
              intro hin
              obtain ⟨n, hn, hport⟩ := List.mem_map.mp hin
              have hmem := mem_unmatchedOwners.mpr ⟨hn, hport.symm ▸ hnew⟩
              rw [← hl.owners] at hmem
              obtain ⟨x, hx, howner⟩ := List.mem_map.mp hmem
              exact hnone x hx ((congrArg Notice.port howner).trans hport)
            refine ⟨⟨?_, xs, fresh :: ys, hl.push_death hfresh hreg⟩, hs.registered, hdied⟩
            intro n
            refine (hs.matched.notices n).trans ?_
            refine if_congr ?_ rfl rfl
            rw [List.mem_cons]
            constructor
            · exact fun hn => ⟨hn.1, Or.inr hn.2⟩
            · rintro ⟨hn, rfl | hd⟩
              · exact absurd (List.mem_map_of_mem hn) hreg
              · exact ⟨hn, hd⟩
      · rw [hsearch, Option.bind_some, Option.or_none] at hserver
        subst hr
        have howner : s.server.owner r ∈ s.registrations ∧
            (s.server.owner r).port ∉ s.deaths := by
          have hmem : s.server.owner r ∈ (as ++ r :: bs).map s.server.owner :=
            List.mem_map_of_mem (by simp)
          rw [hl.owners] at hmem
          exact mem_unmatchedOwners.mp hmem
        cases hp : as.getLast? with
        | none =>
            -- the guard excludes the head of the list
            obtain rfl := List.getLast?_eq_none_iff.mp hp
            exact absurd rfl (hok r hl.registry.1)
        | some p =>
            rw [hp] at hserver
            have hsent : server.sent = s.server.owner r :: s.server.sent := by
              cases Option.some.inj hserver
              rfl
            refine ⟨⟨?_, as ++ bs, ys, hl.pop_owner hownersNodup hp
              (List.mem_map_of_mem howner.1) (Option.some.inj hserver).symm⟩,
              hs.registered, hdied⟩
            intro n
            simp only [hsent]
            refine count_send (fun n => n ∈ s.registrations ∧ n.port ∈ s.deaths)
              (fun n => n ∈ s.registrations ∧ n.port ∈ s.server.portOf r :: s.deaths)
              hs.matched.notices (fun hin => howner.2 hin.2) (fun n => ?_) n
            rw [List.mem_cons]
            constructor
            · rintro ⟨hn, heq | hd⟩
              · exact Or.inr (List.inj_on_of_nodup_map hs.registered hn howner.1 heq)
              · exact Or.inl ⟨hn, hd⟩
            · rintro (hn | rfl)
              · exact ⟨hn.1, Or.inr hn.2⟩
              · exact ⟨howner.1, Or.inl rfl⟩

/-- A call on a port not used for it before, with a block from `malloc` that is not in
use. -/
def Proper (s : System) : Label → Prop
  | .register notice fresh =>
      notice.port ∉ s.registrations.map Notice.port ∧ fresh ∉ s.server.live
  | .death port fresh => port ∉ s.deaths ∧ fresh ∉ s.server.live

theorem step_defined (hs : Inv s) {label : Label} (hproper : Proper s label) :
    ∃ s', step s label = some s' := by
  obtain ⟨xs, ys, hl⟩ := hs.matched.lists
  cases label with
  | register notice fresh =>
      have hys : ∀ y ∈ ys, y ∈ s.server.live :=
        fun y hy => hl.live.mem_iff.mpr (List.mem_append_right xs hy)
      simp only [step, if_neg hproper.1, Server.portDeathRegister]
      rcases @search_spec s.server _ none ys notice.port _ hl.unregistry hys hl.length_le.2 with
        ⟨-, hsearch⟩ | ⟨as, r, bs, -, -, -, hsearch⟩
      · rw [hsearch]
        simp only [Option.bind_some, if_neg hproper.2]
        exact ⟨_, rfl⟩
      · rw [hsearch]
        exact ⟨_, rfl⟩
  | death port fresh =>
      have hxs : ∀ x ∈ xs, x ∈ s.server.live :=
        fun x hx => hl.live.mem_iff.mpr (List.mem_append_left ys hx)
      simp only [step, if_neg hproper.1, Server.handlePortDeath]
      rcases @search_spec s.server _ none xs port _ hl.registry hxs hl.length_le.1 with
        ⟨-, hsearch⟩ | ⟨as, r, bs, -, -, -, hsearch⟩
      · rw [hsearch]
        simp only [Option.bind_some, if_neg hproper.2]
        exact ⟨_, rfl⟩
      · rw [hsearch]
        exact ⟨_, rfl⟩

theorem initial_inv : Inv {} := by
  refine ⟨⟨fun n => by simp, [], [], ?_⟩, List.nodup_nil, List.nodup_nil⟩
  exact ⟨rfl, rfl, List.Perm.refl [], List.nodup_nil, rfl, rfl⟩

end Step

/-! ## All sequences of calls -/

/-- As long as no port dies whose registration is the newest one in `registry`, every port
that is registered and dead has caused its one message, the two lists hold the rest, and the
next call returns. -/
theorem matched_of_notNewest {s : System} (hreach : machine.Reachable NotNewest s) :
    Matched s ∧ ∀ label, Proper s label → ∃ s', step s label = some s' := by
  have hinv : Inv s := by
    refine hreach.invariant (fun s hs => hs ▸ initial_inv) ?_
    intro s label s' hs hok hstep
    cases label with
    | register notice fresh => exact register_inv hs hstep
    | death port fresh => exact death_inv hs hok hstep
  exact ⟨hinv.matched, fun label hproper => step_defined hinv hproper⟩

/-- A death of an older registration. -/
def olderDies : List Label :=
  [.register ⟨1, 0, 7⟩ 100, .register ⟨2, 3, 8⟩ 101, .death 7 102, .death 9 103]

theorem matched_olderDies : ∃ s, machine.run {} olderDies = some s ∧
    s.server.sent = [⟨1, 0, 7⟩] ∧ Matched s := by
  obtain ⟨s, hrun⟩ : ∃ s, machine.run {} olderDies = some s := ⟨_, rfl⟩
  have hsent : s.server.sent = [⟨1, 0, 7⟩] := by
    cases Option.some.inj hrun
    rfl
  refine ⟨s, hrun, hsent, (matched_of_notNewest (.of_run olderDies (.init rfl) hrun ?_)).1⟩
  refine ⟨trivial, trivial, ?_, ?_, trivial⟩
  · intro r hr
    cases Option.some.inj hr
    decide
  · intro r hr
    cases Option.some.inj hr
    decide

/-- A port is registered and dies: its entry is freed and stays the head of `registry`. -/
theorem newest_death_not_matched : ∃ s,
    machine.run {} [.register ⟨1, 0, 7⟩ 100, .death 7 101] = some s ∧ ¬ Matched s := by
  refine ⟨_, rfl, ?_⟩
  intro hm
  obtain ⟨xs, ys, hl⟩ := hm.lists
  have hlive : xs ++ ys = [] := List.nil_perm.mp hl.live
  obtain ⟨rfl, -⟩ := List.append_eq_nil_iff.mp hlive
  have hhead : (some 100 : Option Nat) = none := hl.registry
  cases hhead

end MachFormal.NetMemory.PortDeath
