import MachFormal.Library.Machine
import Mathlib.Algebra.Order.BigOperators.Group.Finset
import Mathlib.Data.List.Nodup
import Mathlib.Logic.Function.Basic

/-!
# Readers-writer locks with a queue

The clients of a roster share a lock: any number of them may read or one of them
may write.  A client that has to wait joins the queue, and the writer is asked to
give the lock back.  When it does, the waiting clients get the lock in the order
of the queue, up to the first one that writes; it is asked back at once if more
are waiting.  A call returns the lock and what the clients are told, oldest first.
-/

namespace MachFormal.Library.ReadersWriters

inductive Access where
  | none
  | read
  | write
  deriving DecidableEq, Repr

/-- A client that waits: for reading or for writing, and with or without the data. -/
structure Waiter (κ : Type) where
  client : κ
  write : Bool
  data : Bool
  deriving DecidableEq, Repr

structure RWLock (κ : Type) where
  access : κ → Access := fun _ => .none
  queue : List (Waiter κ) := []

/-- What a client is told: the lock is its own, no longer its own, or asked back. -/
inductive Word (κ : Type) where
  | grant (client : κ) (write data : Bool)
  | flush (client : κ)
  | recall (client : κ)
  deriving DecidableEq, Repr

variable {κ : Type}

def Word.client : Word κ → κ
  | .grant client _ _ => client
  | .flush client => client
  | .recall client => client

variable [DecidableEq κ]

/-- The access of a client after one more word: only a writer is asked to give the lock back,
and it may write until it has done so. -/
def hear (client : κ) (access : Access) (word : Word κ) : Access :=
  if word.client = client then
    match word with
    | .grant _ write _ => if write then .write else .read
    | .flush _ => .none
    | .recall _ => .write
  else access

/-! ## Calls -/

section Calls

variable (roster : List κ)

def otherReaders (access : κ → Access) (client : κ) : List κ :=
  roster.filter fun other => decide (other ≠ client ∧ access other = .read)

/-- The readers lose the lock first; a reader has the data already. -/
def admitWriter (access : κ → Access) (client : κ) (data : Bool) :
    (κ → Access) × List (Word κ) :=
  (Function.update (fun _ => .none) client .write,
    (otherReaders roster access client).map .flush ++
      [.grant client true (data || decide (access client ≠ .read))])

def admitReader (access : κ → Access) (client : κ) : (κ → Access) × List (Word κ) :=
  (Function.update access client .read, [.grant client false true])

/-- The lock without a writer goes to the waiting clients. -/
def serve : List (Waiter κ) → (κ → Access) → RWLock κ × List (Word κ)
  | [], access => (⟨access, []⟩, [])
  | waiter :: rest, access =>
      if waiter.write then
        let admitted := admitWriter roster access waiter.client waiter.data
        (⟨admitted.1, rest⟩,
          admitted.2 ++ if rest.isEmpty then [] else [.recall waiter.client])
      else
        let admitted := admitReader access waiter.client
        let served := serve rest admitted.1
        (served.1, admitted.2 ++ served.2)

/-- A client that waits asks to write. -/
def Waiter.upgrade (data : Bool) (waiter : Waiter κ) : Waiter κ :=
  { waiter with write := true, data := waiter.data || data }

namespace RWLock

def writer (lock : RWLock κ) : Option κ :=
  roster.find? fun client => decide (lock.access client = .write)

/-- A client that does not wait asks for the lock. -/
def ask (lock : RWLock κ) (client : κ) (write data : Bool) : RWLock κ × List (Word κ) :=
  match lock.writer roster with
  | some writer =>
      ({ lock with queue := lock.queue ++ [⟨client, write, data⟩] },
        if lock.queue.isEmpty then [.recall writer] else [])
  | none =>
      let admitted :=
        if write then admitWriter roster lock.access client data
        else admitReader lock.access client
      ({ lock with access := admitted.1 }, admitted.2)

/-- A client asks to read or to write; who asks for nothing is not answered. -/
def request (lock : RWLock κ) (client : κ) (write data : Bool) : RWLock κ × List (Word κ) :=
  if lock.access client = .write ∧ lock.queue.isEmpty then (lock, [.grant client true data])
  else if client ∈ lock.queue.map Waiter.client then
    if write then
      ({ lock with
        queue := lock.queue.map fun waiter =>
          if waiter.client = client then waiter.upgrade data else waiter }, [])
    else (lock, [])
  else if write || data then lock.ask roster client write data
  else (lock, [])

/-- The writer gives the lock back. -/
def giveBack (lock : RWLock κ) (client : κ) : RWLock κ × List (Word κ) :=
  serve roster lock.queue (Function.update lock.access client .none)

end RWLock

end Calls

/-! ## Sound locks -/

theorem admitWriter_access (roster : List κ) (access : κ → Access) (client : κ) (data : Bool) :
    (admitWriter roster access client data).1 = Function.update (fun _ => .none) client .write :=
  rfl

theorem admitWriter_self (roster : List κ) (access : κ → Access) (client : κ) (data : Bool) :
    (admitWriter roster access client data).1 client = .write := by
  rw [admitWriter_access, Function.update_self]

theorem admitReader_access (access : κ → Access) (client : κ) :
    (admitReader access client).1 = Function.update access client .read := rfl

/-- A writer is alone, and who waits does so for a writer, once and for something. -/
structure RWLock.Sound (roster : List κ) (lock : RWLock κ) : Prop where
  alone : ∀ c d, lock.access c = .write → d ≠ c → lock.access d = .none
  known : ∀ c, lock.access c ≠ .none → c ∈ roster
  busy : lock.queue ≠ [] → ∃ c, lock.access c = .write
  waiters : ∀ waiter ∈ lock.queue, waiter.client ∈ roster
  distinct : (lock.queue.map Waiter.client).Nodup
  asks : ∀ waiter ∈ lock.queue, waiter.write = true ∨ waiter.data = true

section Soundness

variable {roster : List κ} {lock : RWLock κ} {access : κ → Access} {queue : List (Waiter κ)}
  {client c : κ} {write data : Bool}

omit [DecidableEq κ] in
theorem RWLock.Sound.only_writer {roster : List κ} {lock : RWLock κ} {c d : κ}
    (sound : lock.Sound roster) (first : lock.access c = .write)
    (second : lock.access d = .write) : d = c := by
  by_contra apart
  have free := sound.alone c d first apart
  rw [second] at free
  cases free

omit [DecidableEq κ] in
theorem sound_new : ({} : RWLock κ).Sound roster :=
  ⟨nofun, fun _ used => absurd rfl used, fun waits => absurd rfl waits, nofun, List.nodup_nil,
    nofun⟩

omit [DecidableEq κ] in
theorem writer_eq_none (known : ∀ c, lock.access c ≠ .none → c ∈ roster) :
    lock.writer roster = none ↔ ∀ c, lock.access c ≠ .write := by
  rw [RWLock.writer, List.find?_eq_none]
  simp only [decide_eq_true_eq]
  constructor
  · intro free c writes
    refine free c (known c ?_) writes
    rw [writes]
    decide
  · exact fun free c _ => free c

omit [DecidableEq κ] in
theorem access_of_writer (found : lock.writer roster = some c) : lock.access c = .write := by
  have test := List.find?_some (p := fun client => decide (lock.access client = .write)) found
  exact of_decide_eq_true test

theorem hear_other {word : Word κ} (other : word.client ≠ c) (before : Access) :
    hear c before word = before := if_neg other

/-- Who is not spoken to hears nothing. -/
theorem foldl_hear_other {words : List (Word κ)} (other : ∀ word ∈ words, word.client ≠ c)
    (before : Access) : words.foldl (hear c) before = before := by
  induction words generalizing before with
  | nil => rfl
  | cons word words ih =>
      obtain ⟨first, rest⟩ := List.forall_mem_cons.mp other
      rw [List.foldl_cons, hear_other first, ih rest]

theorem foldl_flush_self {clients : List κ} (inside : c ∈ clients) (before : Access) :
    (clients.map Word.flush).foldl (hear c) before = .none := by
  induction clients generalizing before with
  | nil => cases inside
  | cons d clients ih =>
      rw [List.map_cons, List.foldl_cons]
      by_cases later : c ∈ clients
      · exact ih later _
      · obtain rfl : c = d := (List.mem_cons.mp inside).resolve_right later
        rw [foldl_hear_other]
        · exact if_pos rfl
        · rintro word member rfl
          obtain ⟨d, listed, rfl⟩ := List.mem_map.mp member
          exact later listed

/-- All clients know their access after a writer was let in. -/
theorem admitWriter_hears (known : ∀ c, access c ≠ .none → c ∈ roster)
    (free : ∀ c, access c ≠ .write) (client : κ) (data : Bool) (c : κ) :
    (admitWriter roster access client data).1 c =
      (admitWriter roster access client data).2.foldl (hear c) (access c) := by
  dsimp only [admitWriter]
  rw [List.foldl_append, List.foldl_cons, List.foldl_nil]
  by_cases self : c = client
  · subst self
    rw [Function.update_self]
    exact (if_pos rfl).symm
  · rw [Function.update_of_ne self, hear_other (Ne.symm self)]
    by_cases reads : access c = .read
    · refine (foldl_flush_self ?_ _).symm
      refine List.mem_filter.mpr ⟨known c ?_, decide_eq_true ⟨self, reads⟩⟩
      rw [reads]
      decide
    · rw [foldl_hear_other]
      · cases current : access c with
        | none => rfl
        | read => exact absurd current reads
        | write => exact absurd current (free c)
      · rintro word member rfl
        obtain ⟨d, listed, rfl⟩ := List.mem_map.mp member
        exact reads (of_decide_eq_true (List.mem_filter.mp listed).2).2

theorem admitReader_hears (access : κ → Access) (client c : κ) :
    (admitReader access client).1 c = (admitReader access client).2.foldl (hear c) (access c) := by
  dsimp only [admitReader]
  rw [List.foldl_cons, List.foldl_nil]
  by_cases self : c = client
  · subst self
    rw [Function.update_self]
    exact (if_pos rfl).symm
  · rw [Function.update_of_ne self, hear_other (Ne.symm self)]

/-- No client writes, and the readers are known. -/
structure Open (roster : List κ) (access : κ → Access) : Prop where
  known : ∀ c, access c ≠ .none → c ∈ roster
  free : ∀ c, access c ≠ .write

theorem Open.admitReader (opened : Open roster access) (member : client ∈ roster) :
    Open roster (admitReader access client).1 where
  known := by
    intro c used
    by_cases self : c = client
    · rwa [self]
    · rw [admitReader_access, Function.update_of_ne self] at used
      exact opened.known c used
  free := by
    intro c
    by_cases self : c = client
    · rw [self, admitReader_access, Function.update_self]
      decide
    · rw [admitReader_access, Function.update_of_ne self]
      exact opened.free c

/-- What is said while the waiting clients are served tells each client its access. -/
theorem serve_hears (opened : Open roster access)
    (members : ∀ waiter ∈ queue, waiter.client ∈ roster) (c : κ) :
    (serve roster queue access).1.access c =
      (serve roster queue access).2.foldl (hear c) (access c) := by
  induction queue generalizing access with
  | nil => rfl
  | cons waiter rest ih =>
      obtain ⟨first, members⟩ := List.forall_mem_cons.mp members
      rw [serve]
      split
      · dsimp only
        rw [List.foldl_append, ← admitWriter_hears opened.known opened.free]
        split
        · rfl
        · rw [List.foldl_cons, List.foldl_nil]
          by_cases self : waiter.client = c
          · rw [← self, admitWriter_access, Function.update_self]
            exact (if_pos rfl).symm
          · exact (if_neg self).symm
      · dsimp only
        rw [List.foldl_append, ← admitReader_hears]
        exact ih (opened.admitReader first) members

theorem alone_of_update {c d : κ}
    (writes : Function.update (fun _ => Access.none) client Access.write c = .write)
    (other : d ≠ c) : Function.update (fun _ => Access.none) client Access.write d = .none := by
  by_cases self : c = client
  · subst self
    exact Function.update_of_ne other _ _
  · rw [Function.update_of_ne self] at writes
    cases writes

theorem known_of_update (member : client ∈ roster)
    (used : Function.update (fun _ => Access.none) client Access.write c ≠ .none) :
    c ∈ roster := by
  by_cases self : c = client
  · rwa [self]
  · rw [Function.update_of_ne self] at used
    exact absurd rfl used

theorem serve_sound (opened : Open roster access)
    (members : ∀ waiter ∈ queue, waiter.client ∈ roster)
    (distinct : (queue.map Waiter.client).Nodup)
    (asks : ∀ waiter ∈ queue, waiter.write = true ∨ waiter.data = true) :
    (serve roster queue access).1.Sound roster := by
  induction queue generalizing access with
  | nil =>
      exact ⟨fun c _ writes => absurd writes (opened.free c), opened.known,
        fun waits => absurd rfl waits, nofun, List.nodup_nil, nofun⟩
  | cons waiter rest ih =>
      obtain ⟨first, members⟩ := List.forall_mem_cons.mp members
      obtain ⟨-, asks⟩ := List.forall_mem_cons.mp asks
      have distinct := (List.nodup_cons.mp distinct).2
      rw [serve]
      split
      · exact ⟨fun c d => alone_of_update, fun c => known_of_update first,
          fun _ => ⟨waiter.client, admitWriter_self roster access waiter.client waiter.data⟩,
          members, distinct, asks⟩
      · exact ih (opened.admitReader first) members distinct asks

/-- The first client that waits is served. -/
theorem serve_length (queue : List (Waiter κ)) (access : κ → Access) :
    (serve roster queue access).1.queue.length ≤ queue.length - 1 := by
  induction queue generalizing access with
  | nil => exact Nat.le_refl 0
  | cons waiter rest ih =>
      rw [serve]
      split
      · exact Nat.le_refl _
      · exact (ih _).trans (Nat.sub_le _ _)

theorem RWLock.giveBack_shorter (waits : lock.queue ≠ []) (client : κ) :
    (lock.giveBack roster client).1.queue.length < lock.queue.length :=
  (serve_length lock.queue _).trans_lt (Nat.sub_one_lt_of_lt (List.length_pos_iff.mpr waits))

/-- Whoever still waits does so for a writer that was asked last. -/
theorem serve_recalls (waits : (serve roster queue access).1.queue ≠ []) :
    ∃ words c, (serve roster queue access).2 = words ++ [.recall c] ∧
      (serve roster queue access).1.access c = .write := by
  induction queue generalizing access with
  | nil => exact absurd rfl waits
  | cons waiter rest ih =>
      rw [serve] at waits ⊢
      split at waits
      · next writes =>
          rw [if_pos writes]
          dsimp only at waits ⊢
          rw [if_neg (by simpa using waits)]
          exact ⟨_, waiter.client, rfl, admitWriter_self _ _ _ _⟩
      · next reads =>
          rw [if_neg reads]
          obtain ⟨words, c, told, writes⟩ := ih waits
          dsimp only
          rw [told]
          exact ⟨_ ++ words, c, (List.append_assoc _ _ _).symm, writes⟩

/-! ### The calls keep soundness -/

theorem RWLock.Sound.opened (sound : lock.Sound roster) (writes : lock.access client = .write) :
    Open roster (Function.update lock.access client .none) where
  known := by
    intro c used
    by_cases self : c = client
    · rw [self, Function.update_self] at used
      exact absurd rfl used
    · rw [Function.update_of_ne self] at used
      exact sound.known c used
  free := by
    intro c
    by_cases self : c = client
    · rw [self, Function.update_self]
      decide
    · rw [Function.update_of_ne self, sound.alone client c writes self]
      decide

theorem RWLock.Sound.giveBack (sound : lock.Sound roster) (writes : lock.access client = .write) :
    (lock.giveBack roster client).1.Sound roster :=
  serve_sound (sound.opened writes) sound.waiters sound.distinct sound.asks

omit [DecidableEq κ] in
theorem RWLock.Sound.opened_of_none (sound : lock.Sound roster)
    (free : lock.writer roster = none) : Open roster lock.access :=
  ⟨sound.known, (writer_eq_none sound.known).mp free⟩

omit [DecidableEq κ] in
theorem RWLock.Sound.queue_of_none (sound : lock.Sound roster)
    (free : lock.writer roster = none) : lock.queue = [] := by
  by_contra waits
  obtain ⟨c, writes⟩ := sound.busy waits
  exact (sound.opened_of_none free).free c writes

theorem RWLock.Sound.ask (sound : lock.Sound roster) (member : client ∈ roster)
    (waits : client ∉ lock.queue.map Waiter.client) (some : (write || data) = true) :
    (lock.ask roster client write data).1.Sound roster := by
  rw [RWLock.ask]
  cases found : lock.writer roster with
  | some writer =>
      refine ⟨sound.alone, sound.known, fun _ => ⟨writer, access_of_writer found⟩, ?_, ?_, ?_⟩
      · exact List.forall_mem_append.mpr
          ⟨sound.waiters, List.forall_mem_singleton.mpr member⟩
      · rw [List.map_append]
        refine List.nodup_append'.mpr ⟨sound.distinct, List.nodup_singleton _, ?_⟩
        exact List.disjoint_singleton.mpr waits
      · refine List.forall_mem_append.mpr ⟨sound.asks, List.forall_mem_singleton.mpr ?_⟩
        exact (Bool.or_eq_true _ _).mp some
  | none =>
      have opened := sound.opened_of_none found
      have empty := sound.queue_of_none found
      have nobody : ∀ access : κ → Access,
          (∀ c d, access c = .write → d ≠ c → access d = .none) →
          (∀ c, access c ≠ .none → c ∈ roster) →
          ({ lock with access := access } : RWLock κ).Sound roster := fun access alone known =>
        ⟨alone, known, fun waits => absurd empty waits, sound.waiters, sound.distinct, sound.asks⟩
      cases write with
      | true => exact nobody _ (fun c d => alone_of_update) (fun c => known_of_update member)
      | false =>
          have reader := opened.admitReader member
          exact nobody _ (fun c _ writes => absurd writes (reader.free c)) reader.known

theorem RWLock.Sound.request (sound : lock.Sound roster) (member : client ∈ roster)
    (write data : Bool) : (lock.request roster client write data).1.Sound roster := by
  rw [RWLock.request]
  split
  · exact sound
  split
  · split
    · -- an upgrade changes neither who waits nor the order
      have clients : (lock.queue.map fun waiter =>
          if waiter.client = client then waiter.upgrade data else waiter).map Waiter.client =
            lock.queue.map Waiter.client := by
        rw [List.map_map]
        refine List.map_congr_left fun waiter _ => ?_
        rw [Function.comp_apply]
        split <;> rfl
      refine ⟨sound.alone, sound.known, fun waits => sound.busy ?_, ?_, ?_, ?_⟩
      · exact fun empty => waits (by rw [empty]; rfl)
      · intro waiter inside
        obtain ⟨old, listed, rfl⟩ := List.mem_map.mp inside
        split
        · exact sound.waiters old listed
        · exact sound.waiters old listed
      · rw [clients]
        exact sound.distinct
      · intro waiter inside
        obtain ⟨old, listed, rfl⟩ := List.mem_map.mp inside
        split
        · exact Or.inl rfl
        · exact sound.asks old listed
    · exact sound
  · next waits =>
      split
      · next some => exact sound.ask member waits some
      · exact sound

/-! ### What a call says -/

theorem RWLock.Sound.request_hears (sound : lock.Sound roster) (client : κ) (write data : Bool)
    (c : κ) : (lock.request roster client write data).1.access c =
      (lock.request roster client write data).2.foldl (hear c) (lock.access c) := by
  rw [RWLock.request]
  split
  · next writes =>
      rw [List.foldl_cons, List.foldl_nil]
      by_cases self : client = c
      · rw [← self, writes.1]
        exact (if_pos rfl).symm
      · exact (if_neg self).symm
  split
  · split <;> rfl
  split
  · rw [RWLock.ask]
    cases found : lock.writer roster with
    | some writer =>
        dsimp only
        split
        · rw [List.foldl_cons, List.foldl_nil]
          by_cases self : writer = c
          · rw [← self, access_of_writer found]
            exact (if_pos rfl).symm
          · exact (if_neg self).symm
        · rfl
    | none =>
        have opened := sound.opened_of_none found
        cases write with
        | true => exact admitWriter_hears opened.known opened.free client data c
        | false => exact admitReader_hears lock.access client c
  · rfl

theorem RWLock.Sound.giveBack_hears (sound : lock.Sound roster)
    (writes : lock.access client = .write) (c : κ) :
    (lock.giveBack roster client).1.access c =
      (lock.giveBack roster client).2.foldl (hear c)
        (Function.update lock.access client .none c) :=
  serve_hears (sound.opened writes) sound.waiters c

/-- Nothing is said about a lock for which clients wait.  The first client that waits has the
writer asked. -/
theorem RWLock.Sound.request_recalls (sound : lock.Sound roster) (client : κ) (write data : Bool)
    (waits : (lock.request roster client write data).1.queue ≠ []) :
    (lock.queue ≠ [] ∧ (lock.request roster client write data).2 = []) ∨
      ∃ words c, (lock.request roster client write data).2 = words ++ [.recall c] ∧
        (lock.request roster client write data).1.access c = .write := by
  rw [RWLock.request] at waits ⊢
  split
  · next writes =>
      rw [if_pos writes] at waits
      exact absurd (List.isEmpty_iff.mp writes.2) waits
  next other =>
  rw [if_neg other] at waits
  split
  · next inside =>
      have before : lock.queue ≠ [] := by
        intro empty
        rw [empty] at inside
        cases inside
      split
      · exact Or.inl ⟨before, rfl⟩
      · exact Or.inl ⟨before, rfl⟩
  next outside =>
  rw [if_neg outside] at waits
  split
  · next some =>
      rw [if_pos some] at waits
      rw [RWLock.ask] at waits ⊢
      cases found : lock.writer roster with
      | some writer =>
          dsimp only
          by_cases empty : lock.queue = []
          · rw [if_pos (List.isEmpty_iff.mpr empty)]
            exact Or.inr ⟨[], writer, rfl, access_of_writer found⟩
          · rw [if_neg (by simpa using empty)]
            exact Or.inl ⟨empty, rfl⟩
      | none =>
          rw [found] at waits
          exact absurd (sound.queue_of_none found) waits
  · next nothing =>
      rw [if_neg nothing] at waits
      exact Or.inl ⟨waits, rfl⟩

/-! ### Who is spoken to -/

section Spoken

variable {P : κ → Prop}

theorem admitWriter_spoken (holders : ∀ c, access c ≠ .none → P c) (asker : P client) :
    ∀ word ∈ (admitWriter roster access client data).2, P word.client := by
  intro word said
  rcases List.mem_append.mp said with flushed | granted
  · obtain ⟨reader, listed, rfl⟩ := List.mem_map.mp flushed
    refine holders reader ?_
    rw [(of_decide_eq_true (List.mem_filter.mp listed).2).2]
    decide
  · rw [List.mem_singleton.mp granted]
    exact asker

theorem admitReader_spoken (access : κ → Access) (asker : P client) :
    ∀ word ∈ (admitReader access client).2, P word.client := by
  intro word said
  rw [List.mem_singleton.mp said]
  exact asker

/-- Only clients that have the lock or wait for it are spoken to. -/
theorem serve_spoken (holders : ∀ c, access c ≠ .none → P c)
    (waiters : ∀ waiter ∈ queue, P waiter.client) :
    ∀ word ∈ (serve roster queue access).2, P word.client := by
  induction queue generalizing access with
  | nil => exact fun _ said => absurd said List.not_mem_nil
  | cons waiter rest ih =>
      obtain ⟨first, waiters⟩ := List.forall_mem_cons.mp waiters
      rw [serve]
      intro word said
      split at said
      · rcases List.mem_append.mp said with admitted | recalled
        · exact admitWriter_spoken holders first word admitted
        · split at recalled
          · cases recalled
          · rw [List.mem_singleton.mp recalled]
            exact first
      · rcases List.mem_append.mp said with admitted | more
        · exact admitReader_spoken access first word admitted
        · refine ih (fun c used => ?_) waiters word more
          by_cases self : c = waiter.client
          · rwa [self]
          · rw [admitReader_access, Function.update_of_ne self] at used
            exact holders c used

theorem RWLock.giveBack_spoken (holders : ∀ c, lock.access c ≠ .none → P c)
    (waiters : ∀ waiter ∈ lock.queue, P waiter.client) :
    ∀ word ∈ (lock.giveBack roster client).2, P word.client := by
  refine serve_spoken (fun c used => holders c ?_) waiters
  by_cases self : c = client
  · rw [self, Function.update_self] at used
    exact absurd rfl used
  · rwa [Function.update_of_ne self] at used

theorem RWLock.request_spoken (holders : ∀ c, lock.access c ≠ .none → P c) (asker : P client) :
    ∀ word ∈ (lock.request roster client write data).2, P word.client := by
  intro word said
  rw [RWLock.request] at said
  split at said
  · rw [List.mem_singleton.mp said]
    exact asker
  split at said
  · split at said
    · cases said
    · cases said
  split at said
  · rw [RWLock.ask] at said
    cases found : lock.writer roster with
    | some writer =>
        rw [found] at said
        dsimp only at said
        split at said
        · rw [List.mem_singleton.mp said]
          refine holders writer ?_
          rw [access_of_writer found]
          decide
        · cases said
    | none =>
        rw [found] at said
        cases write with
        | true => exact admitWriter_spoken holders asker word said
        | false => exact admitReader_spoken lock.access asker word said
  · cases said

end Spoken

end Soundness

/-! ## An array of locks -/

/-- Locks and everything that was said, newest first. -/
structure Store (κ : Type) where
  locks : Nat → RWLock κ := fun _ => {}
  log : List (Nat × Word κ) := []

inductive Call (κ : Type) where
  | request (place : Nat) (client : κ) (write data : Bool)
  | giveBack (place : Nat) (client : κ)

namespace Store

/-- The lock at a place after a call, and what the call said. -/
def put (store : Store κ) (place : Nat) (result : RWLock κ × List (Word κ)) : Store κ where
  locks := Function.update store.locks place result.1
  log := (result.2.map (place, ·)).reverse ++ store.log

omit [DecidableEq κ] in
theorem put_self (store : Store κ) (place : Nat) (result : RWLock κ × List (Word κ)) :
    (store.put place result).locks place = result.1 := Function.update_self _ _ _

omit [DecidableEq κ] in
theorem put_other {place place' : Nat} (other : place' ≠ place) (store : Store κ)
    (result : RWLock κ × List (Word κ)) :
    (store.put place result).locks place' = store.locks place' :=
  Function.update_of_ne other _ _

/-- A known client may ask at any time; the lock is given back by a writer for which
somebody waits. -/
def step (roster : List κ) (store : Store κ) : Call κ → Option (Store κ)
  | .request place client write data =>
      if client ∈ roster then
        some (store.put place ((store.locks place).request roster client write data))
      else none
  | .giveBack place client =>
      if (store.locks place).access client = .write ∧ (store.locks place).queue ≠ [] then
        some (store.put place ((store.locks place).giveBack roster client))
      else none

/-- The locks of a roster as a machine. -/
def machine (roster : List κ) : Machine (Store κ) (Call κ) where
  init := fun store => store = {}
  step := step roster

section Runs

variable {roster : List κ} {store store' : Store κ} {place : Nat} {places : Finset Nat}

/-- A call changes one lock, and leaves it sound. -/
theorem step_cases {call : Call κ} (ran : step roster store call = some store') :
    ∃ place result, store' = store.put place result ∧
      ((store.locks place).Sound roster → result.1.Sound roster) := by
  cases call with
  | request place client write data =>
      rw [step] at ran
      split at ran
      · next member =>
          exact ⟨place, _, (Option.some.inj ran).symm, fun sound => sound.request member write data⟩
      · cases ran
  | giveBack place client =>
      rw [step] at ran
      split at ran
      · next writes =>
          exact ⟨place, _, (Option.some.inj ran).symm, fun sound => sound.giveBack writes.1⟩
      · cases ran

/-- Every lock is sound in every state. -/
theorem sound_of_reachable (reach : (machine roster).Reachable Machine.always store)
    (place : Nat) : (store.locks place).Sound roster := by
  refine reach.invariant (P := fun store => ∀ place, (store.locks place).Sound roster) ?_ ?_ place
  · rintro store rfl place
    exact sound_new
  · intro store call store' sound _ ran place'
    obtain ⟨place, result, rfl, kept⟩ := step_cases ran
    by_cases here : place' = place
    · rw [here, put_self]
      exact kept (sound place)
    · rw [put_other here]
      exact sound place'

/-- Clients wait for locks of these places only. -/
def Within (places : Finset Nat) (store : Store κ) : Prop :=
  ∀ place ∉ places, (store.locks place).queue = []

theorem exists_within (reach : (machine roster).Reachable Machine.always store) :
    ∃ places, store.Within places := by
  refine reach.invariant (P := fun store => ∃ places, store.Within places) ?_ ?_
  · rintro store rfl
    exact ⟨∅, fun _ _ => rfl⟩
  · rintro store call store' ⟨places, idle⟩ _ ran
    obtain ⟨place, result, rfl, -⟩ := step_cases ran
    refine ⟨insert place places, fun place' outside => ?_⟩
    rw [Finset.mem_insert, not_or] at outside
    rw [put_other outside.1]
    exact idle place' outside.2

/-- So many clients wait for these locks. -/
def waiting (places : Finset Nat) (store : Store κ) : Nat :=
  places.sum fun place => (store.locks place).queue.length

/-- Fewer clients wait after a lock was given back. -/
theorem waiting_giveBack (idle : store.Within places) (waits : (store.locks place).queue ≠ [])
    (client : κ) :
    (store.put place ((store.locks place).giveBack roster client)).Within places ∧
      (store.put place ((store.locks place).giveBack roster client)).waiting places <
        store.waiting places := by
  have inside : place ∈ places := by
    by_contra outside
    exact waits (idle place outside)
  have shorter := @RWLock.giveBack_shorter κ _ roster _ waits client
  refine ⟨fun place' outside => ?_, Finset.sum_lt_sum (fun place' _ => ?_) ⟨place, inside, ?_⟩⟩
  · rw [put_other (ne_of_mem_of_not_mem inside outside).symm]
    exact idle place' outside
  · by_cases here : place' = place
    · rw [here, put_self]
      exact shorter.le
    · rw [put_other here]
  · rw [put_self]
    exact shorter

end Runs

end Store

end MachFormal.Library.ReadersWriters
