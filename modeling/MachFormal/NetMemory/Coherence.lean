import MachFormal.NetMemory.OneSize.Fifo
import MachFormal.NetMemory.Siblings

/-!
# Coherence of network shared memory

While all kernels have pages of one size the scheduler is an array of
readers-writer locks with queues, one for every unit: what it sends is what the
locks say.  So the messages themselves tell who may do what with a page: a
kernel has the access that the last message about the page gave it, and a
LOCK_WRITER takes it away when it is acknowledged.  At no time does one kernel
have a page for writing while another one has it at all.
-/

namespace MachFormal.NetMemory.Coherence

open Library OneSize
open Library.ReadersWriters

variable {u : Nat}

/-! ## The log -/

/-- The range of a message has a byte of the minimal page. -/
def covers (message : Message) (page : Nat) : Bool :=
  decide (message.offset < pageToOffset (page + 1)) &&
    decide (pageToOffset page < message.offset + message.length)

/-- The last message to a port about a minimal page, with its place in the log. -/
def lastTo (port page : Nat) : List Message → Option (Nat × Message)
  | [] => none
  | message :: older =>
      if message.port = port ∧ covers message page then some (older.length, message)
      else lastTo port page older

/-- What the kernel behind a port may do with a minimal page, by the messages it was sent and
the LOCK_WRITER messages that it has acknowledged. -/
def holding (acked : List Nat) (sent : List Message) (port page : Nat) : Access :=
  match lastTo port page sent with
  | none => .none
  | some (serial, message) =>
      match message.kind with
      | .supplyRead => .read
      | .supplyAll => .write
      | .unlockWriter => .write
      | .lockReader => .none
      | .lockWriter => if serial ∈ acked then .none else .write

/-- The messages for all that the locks have said, newest first. -/
def renderLog (u : Nat) (info : Nat → Kernel) (log : List (Nat × Word Nat)) : List Message :=
  log.flatMap fun entry => render u info entry.1 entry.2

section Logs

variable {info info' : Nat → Kernel} {j k page port serial : Nat} {sent new : List Message}
  {message : Message} {acked : List Nat} {log : List (Nat × Word Nat)} {word : Word Nat}

theorem tell_cons (words : List (Word Nat)) :
    tell u info j (word :: words) sent = tell u info j words (render u info j word ++ sent) := rfl

theorem tell_renderLog (words : List (Word Nat)) :
    tell u info j words (renderLog u info log) =
      renderLog u info ((words.map (j, ·)).reverse ++ log) := by
  induction words generalizing log with
  | nil => rfl
  | cons word words ih =>
      have first : render u info j word ++ renderLog u info log =
          renderLog u info ((j, word) :: log) := rfl
      rw [tell_cons, first, ih, List.map_cons, List.reverse_cons, List.append_assoc]
      rfl

theorem renderLog_congr (same : ∀ entry ∈ log, info' entry.2.client = info entry.2.client) :
    renderLog u info' log = renderLog u info log := by
  refine List.flatMap_congr fun entry member => ?_
  have here := same entry member
  rcases entry with ⟨j, ⟨client, write, data⟩ | client | client⟩
  · change info' client = info client at here
    rcases write with _ | _ <;> rcases data with _ | _ <;> simp only [render, here]
  · change info' client = info client at here
    simp only [render, here]
  · change info' client = info client at here
    simp only [render, here]

theorem lastTo_old (apart : ∀ message ∈ new, ¬(message.port = port ∧ covers message page)) :
    lastTo port page (new ++ sent) = lastTo port page sent := by
  induction new with
  | nil => rfl
  | cons message new ih =>
      obtain ⟨first, apart⟩ := List.forall_mem_cons.mp apart
      rw [List.cons_append, lastTo, if_neg first, ih apart]

theorem lastTo_none (apart : ∀ message ∈ sent, ¬(message.port = port ∧ covers message page)) :
    lastTo port page sent = none := by
  have old := @lastTo_old page port [] sent apart
  rwa [List.append_nil] at old

theorem lastTo_spec (found : lastTo port page sent = some (serial, message)) :
    messageAt sent serial = some message ∧ message.port = port ∧ covers message page = true := by
  induction sent with
  | nil => cases found
  | cons newest older ih =>
      rw [lastTo] at found
      split at found
      · next fits =>
          obtain ⟨rfl, rfl⟩ := Prod.mk.inj (Option.some.inj found)
          refine ⟨?_, fits⟩
          rw [messageAt, List.reverse_cons]
          simp
      · obtain ⟨logged, fits⟩ := ih found
        refine ⟨?_, fits⟩
        have old := messageAt_lt logged
        exact (@messageAt_old older [newest] _ old).trans logged

end Logs

/-! ## Messages about a unit -/

/-- The pages of a kernel make up `u` minimal pages, or less than one. -/
structure Fits (u : Nat) (info : Kernel) : Prop where
  power : Object.isPowerOfTwo info.realPageSize = true
  size : max info.realPageSize minPageSize = u * minPageSize

section Units

variable {kernel : Kernel} {j page : Nat} {message : Message}

theorem covers_iff : covers message page = true ↔
    message.offset < pageToOffset (page + 1) ∧
      pageToOffset page < message.offset + message.length := by
  rw [covers, Bool.and_eq_true, decide_eq_true_eq, decide_eq_true_eq]

theorem covers_unit (hu : 0 < u) (offset : message.offset = pageToOffset (u * j))
    (length : message.length = u * minPageSize) :
    covers message page = true ↔ page / u = j := by
  rw [covers_iff, offset, length, pageToOffset, pageToOffset, pageToOffset, ← Nat.add_mul,
    Nat.mul_lt_mul_right (by decide), Nat.mul_lt_mul_right (by decide), Nat.div_eq_iff hu,
    Nat.mul_comm j u]
  omega

theorem divides_of_small (power : Object.isPowerOfTwo kernel.realPageSize = true)
    (small : kernel.realPageSize < minPageSize) :
    0 < kernel.realPageSize ∧ kernel.realPageSize ∣ minPageSize := by
  obtain ⟨i, -, same⟩ := List.any_eq_true.mp power
  have same := of_decide_eq_true same
  have whole : minPageSize = 2 ^ 12 := by decide
  rw [same, whole] at small ⊢
  exact ⟨Nat.two_pow_pos i, Nat.pow_dvd_pow 2 (Nat.le_of_lt
    ((Nat.pow_lt_pow_iff_right (by decide)).mp small))⟩

/-- The messages are for this port and about pages of the unit, and the last one is of this kind
and about all of them. -/
structure Renders (u j port : Nat) (kind : Kind) (messages : List Message) : Prop where
  about : ∀ message ∈ messages,
    message.port = port ∧ ∀ page, covers message page = true → page / u = j
  first : ∀ page, page / u = j → ∃ message older, messages = message :: older ∧
    message.port = port ∧ message.kind = kind ∧ covers message page = true

theorem renders_single (hu : 0 < u) (port : Nat) (kind : Kind) :
    Renders u j port kind [⟨port, kind, pageToOffset (u * j), u * minPageSize⟩] := by
  refine ⟨fun message member => ?_, fun page here => ?_⟩
  · rw [List.mem_singleton.mp member]
    exact ⟨rfl, fun page => (covers_unit hu rfl rfl).mp⟩
  · exact ⟨_, [], rfl, rfl, rfl, (covers_unit hu rfl rfl).mpr here⟩

/-- The pieces of a page are inside of it, and the last one is always there. -/
theorem supplies_spec (fits : Fits u kernel) (hu : 0 < u) (prot : Kind) :
    Renders u j kernel.requestPort prot (supplies kernel (pageToOffset (u * j)) prot) := by
  rw [supplies]
  split
  · next small =>
      obtain ⟨positive, count, pieces⟩ := divides_of_small fits.power small
      have size := fits.size
      rw [Nat.max_eq_right (Nat.le_of_lt small)] at size
      have one : u = 1 := by
        rw [minPageSize] at size
        omega
      subst one
      have number : (minPageSize + kernel.realPageSize - 1) / kernel.realPageSize = count := by
        rw [pieces, Nat.add_sub_assoc (by omega), Nat.mul_add_div positive,
          Nat.div_eq_of_lt (by omega), Nat.add_zero]
      have bound : ∀ i < count, (i + 1) * kernel.realPageSize ≤ minPageSize := by
        intro i below
        rw [pieces, Nat.mul_comm]
        exact Nat.mul_le_mul_left _ below
      have about : ∀ i < count, ∀ page, covers ⟨kernel.requestPort, prot,
          pageToOffset (1 * j) + i * kernel.realPageSize, kernel.realPageSize⟩ page = true ↔
            page / 1 = j := by
        intro i below page
        have inside := bound i below
        rw [Nat.add_mul, Nat.one_mul] at inside
        rw [covers_iff, Nat.div_one, Nat.one_mul, pageToOffset, pageToOffset, pageToOffset]
        dsimp only
        rw [minPageSize] at inside ⊢
        omega
      rw [number]
      refine ⟨fun message member => ?_, fun page here => ?_⟩
      · obtain ⟨i, below, rfl⟩ := List.mem_map.mp (List.mem_reverse.mp member)
        exact ⟨rfl, fun page => (about i (List.mem_range.mp below) page).mp⟩
      · obtain ⟨n, rfl⟩ : ∃ n, count = n + 1 := by
          refine ⟨count - 1, ?_⟩
          rcases Nat.eq_zero_or_pos count with rfl | positive
          · rw [Nat.mul_zero] at pieces
            exact absurd pieces (by decide)
          · omega
        rw [List.range_succ, List.map_append, List.reverse_append]
        exact ⟨_, _, rfl, rfl, rfl, (about n (Nat.lt_succ_self n) page).mpr here⟩
  · next large =>
      have size := fits.size
      rw [Nat.max_eq_left (Nat.not_lt.mp large)] at size
      rw [size]
      exact renders_single hu _ _

/-- The kind of the messages for a word. -/
def kindOf : Word Nat → Kind
  | .grant _ false _ => .supplyRead
  | .grant _ true true => .supplyAll
  | .grant _ true false => .unlockWriter
  | .flush _ => .lockReader
  | .recall _ => .lockWriter

theorem render_spec (info : Nat → Kernel) (j : Nat) (word : Word Nat) (hu : 0 < u)
    (fits : Fits u (info word.client)) :
    Renders u j (info word.client).requestPort (kindOf word) (render u info j word) := by
  rcases word with ⟨client, write, data⟩ | client | client
  · cases write with
    | false => exact supplies_spec fits hu .supplyRead
    | true =>
        cases data with
        | false => exact renders_single hu _ _
        | true => exact supplies_spec fits hu .supplyAll
  · exact renders_single hu _ _
  · exact renders_single hu _ _

end Units

/-! ## What the kernels hear -/

/-- The messages say what the locks say. -/
structure Heard (u : Nat) (object : Object) (acked : List Nat) (sent : List Message)
    (locks : Nat → RWLock Nat) : Prop where
  told : ∀ k, Attached object k → ∀ page,
    holding acked sent (object.kerninfo k).requestPort page = (locks (page / u)).access k
  pending : ∀ j k, (locks j).queue ≠ [] → (locks j).access k = .write → ∀ page, page / u = j →
    ∃ serial message,
      lastTo (object.kerninfo k).requestPort page sent = some (serial, message) ∧
        message.kind = .lockWriter ∧ serial ∉ acked
  answered : ∀ serial ∈ acked, serial < sent.length

/-- The kernels have ports of their own and pages that fit in the units. -/
structure Wired (u : Nat) (object : Object) : Prop where
  pos : 0 < u
  fits : ∀ k, Attached object k → Fits u (object.kerninfo k)
  ports : ∀ k k', Attached object k → Attached object k' →
    (object.kerninfo k).requestPort = (object.kerninfo k').requestPort → k = k'

section Hearing

variable {object : Object} {acked : List Nat} {sent : List Message}
  {locks : Nat → RWLock Nat} {j k page : Nat} {words : List (Word Nat)}

theorem holding_word (wired : Wired u object) {word : Word Nat}
    (client : Attached object word.client) (attached : Attached object k)
    (fresh : ∀ serial ∈ acked, serial < sent.length) :
    holding acked (render u object.kerninfo j word ++ sent) (object.kerninfo k).requestPort page =
      if page / u = j then
        hear k (holding acked sent (object.kerninfo k).requestPort page) word
      else holding acked sent (object.kerninfo k).requestPort page := by
  obtain ⟨about, first⟩ := render_spec object.kerninfo j word wired.pos
    (wired.fits word.client client)
  by_cases here : page / u = j
  · rw [if_pos here]
    by_cases self : word.client = k
    · obtain ⟨message, older, shape, port, kind, covered⟩ := first page here
      have unacked : (older ++ sent).length ∉ acked := by
        intro member
        have before := fresh _ member
        rw [List.length_append] at before
        omega
      rw [self] at port
      rw [shape, List.cons_append, holding, lastTo, if_pos ⟨port, covered⟩]
      dsimp only
      unfold hear
      rw [kind, if_pos self]
      rcases word with ⟨client, write, data⟩ | client | client
      · cases write with
        | false => rfl
        | true =>
            cases data with
            | false => rfl
            | true => rfl
      · rfl
      · exact if_neg unacked
    · rw [hear_other self, holding, lastTo_old, holding]
      rintro message member ⟨port, -⟩
      rw [(about message member).1] at port
      exact self (wired.ports _ _ client attached port)
  · rw [if_neg here, holding, lastTo_old, holding]
    rintro message member ⟨-, covered⟩
    exact here ((about message member).2 page covered)

theorem length_tell (words : List (Word Nat)) (info : Nat → Kernel) :
    sent.length ≤ (tell u info j words sent).length := by
  induction words generalizing sent with
  | nil => exact Nat.le_refl _
  | cons word words ih =>
      refine Nat.le_trans ?_ ih
      rw [List.length_append]
      exact Nat.le_add_left _ _

theorem holding_tell (wired : Wired u object)
    (clients : ∀ word ∈ words, Attached object word.client) (attached : Attached object k)
    (fresh : ∀ serial ∈ acked, serial < sent.length) :
    holding acked (tell u object.kerninfo j words sent) (object.kerninfo k).requestPort page =
      if page / u = j then
        words.foldl (hear k) (holding acked sent (object.kerninfo k).requestPort page)
      else holding acked sent (object.kerninfo k).requestPort page := by
  induction words generalizing sent with
  | nil => exact (ite_self _).symm
  | cons word words ih =>
      obtain ⟨first, clients⟩ := List.forall_mem_cons.mp clients
      have later : ∀ serial ∈ acked,
          serial < (render u object.kerninfo j word ++ sent).length := by
        intro serial member
        rw [List.length_append]
        exact Nat.lt_add_left _ (fresh serial member)
      rw [tell_cons, ih clients later, holding_word wired first attached fresh, List.foldl_cons]
      split
      · rfl
      · rfl

theorem lastTo_tell (wired : Wired u object)
    (clients : ∀ word ∈ words, Attached object word.client) (port : Nat) (apart : page / u ≠ j) :
    lastTo port page (tell u object.kerninfo j words sent) = lastTo port page sent := by
  induction words generalizing sent with
  | nil => rfl
  | cons word words ih =>
      obtain ⟨first, clients⟩ := List.forall_mem_cons.mp clients
      rw [tell_cons, ih clients, lastTo_old]
      rintro message member ⟨-, covered⟩
      have about := (render_spec object.kerninfo j word wired.pos
        (wired.fits word.client first)).1
      exact apart ((about message member).2 page covered)

theorem Heard.say (heard : Heard u object acked sent locks) (wired : Wired u object)
    {lock : RWLock Nat} (clients : ∀ word ∈ words, Attached object word.client)
    (hears : ∀ k, lock.access k = words.foldl (hear k) ((locks j).access k))
    (alone : ∀ c d, lock.access c = .write → lock.access d = .write → d = c)
    (recalls : lock.queue ≠ [] → ((locks j).queue ≠ [] ∧ words = []) ∨
      ∃ before c, words = before ++ [.recall c] ∧ lock.access c = .write) :
    Heard u object acked (tell u object.kerninfo j words sent)
      (Function.update locks j lock) where
  told := by
    intro k attached page
    rw [holding_tell wired clients attached heard.answered, heard.told k attached]
    split
    · next here => rw [here, Function.update_self, hears]
    · next apart => rw [Function.update_of_ne apart]
  pending := by
    intro j' k waits writes page here
    by_cases same : j' = j
    · rw [same] at here
      rw [same, Function.update_self] at waits writes
      rcases recalls waits with ⟨before, rfl⟩ | ⟨before, c, rfl, holds⟩
      · refine heard.pending j k before ?_ page here
        rw [← writes, hears]
        rfl
      · have spoken := clients (.recall c) (List.mem_append_right _ List.mem_cons_self)
        obtain ⟨message, older, shape, port, kind, covered⟩ :=
          (render_spec object.kerninfo j (.recall c) wired.pos (wired.fits c spoken)).2 page here
        have client : Word.client (.recall c) = c := rfl
        rw [client, ← alone c k holds writes] at port
        refine ⟨(older ++ tell u object.kerninfo j before sent).length, message, ?_, kind, ?_⟩
        · rw [tell_concat, shape, List.cons_append, lastTo, if_pos ⟨port, covered⟩]
        · intro member
          have early := heard.answered _ member
          have grown := @length_tell u sent j before object.kerninfo
          rw [List.length_append] at early
          omega
    · rw [Function.update_of_ne same] at waits writes
      rw [lastTo_tell wired clients _ (by rwa [here])]
      exact heard.pending j' k waits writes page here
  answered := fun serial member =>
    Nat.lt_of_lt_of_le (heard.answered serial member) (length_tell words _)

theorem Heard.ack (heard : Heard u object acked sent locks) (wired : Wired u object)
    {serial w : Nat} (attached : Attached object w)
    (logged : messageAt sent serial = some ⟨(object.kerninfo w).requestPort, .lockWriter,
      pageToOffset (u * j), u * minPageSize⟩)
    (last : ∀ page, page / u = j → ∃ message,
      lastTo (object.kerninfo w).requestPort page sent = some (serial, message) ∧
        message.kind = .lockWriter) :
    Heard u object (serial :: acked) sent
      (Function.update locks j ⟨Function.update (locks j).access w .none, []⟩) where
  told := by
    intro k known page
    have before := heard.told k known page
    by_cases this : k = w ∧ page / u = j
    · obtain ⟨rfl, rfl⟩ := this
      obtain ⟨message, found, kind⟩ := last page rfl
      rw [Function.update_self, holding, found]
      dsimp only
      rw [kind, Function.update_self]
      exact if_pos List.mem_cons_self
    · have access : (Function.update locks j ⟨Function.update (locks j).access w .none, []⟩
          (page / u)).access k = (locks (page / u)).access k := by
        by_cases here : page / u = j
        · rw [here, Function.update_self]
          exact Function.update_of_ne (fun self => this ⟨self, here⟩) _ _
        · rw [Function.update_of_ne here]
      rw [access, ← before, holding, holding]
      cases found : lastTo (object.kerninfo k).requestPort page sent with
      | none => rfl
      | some entry =>
          obtain ⟨serial', message⟩ := entry
          obtain ⟨logged', port, covered⟩ := lastTo_spec found
          have other : serial' ≠ serial := by
            rintro rfl
            rw [logged] at logged'
            obtain rfl := Option.some.inj logged'
            exact this ⟨wired.ports k w known attached port.symm,
              (covers_unit wired.pos rfl rfl).mp covered⟩
          simp only [List.mem_cons, other, false_or]
  pending := by
    intro j' k waits writes page here
    by_cases same : j' = j
    · rw [same, Function.update_self] at waits
      exact absurd rfl waits
    · rw [Function.update_of_ne same] at waits writes
      obtain ⟨serial', message, found, kind, unacked⟩ :=
        heard.pending j' k waits writes page here
      refine ⟨serial', message, found, kind, ?_⟩
      rintro (_ | ⟨_, member⟩)
      · obtain ⟨logged', -, covered⟩ := lastTo_spec found
        rw [logged] at logged'
        obtain rfl := Option.some.inj logged'
        exact same (here.symm.trans ((covers_unit wired.pos rfl rfl).mp covered))
      · exact unacked member
  answered := by
    intro serial' member
    rcases List.mem_cons.mp member with rfl | member
    · exact messageAt_lt logged
    · exact heard.answered serial' member

end Hearing

/-! ## The scheduler as an array of locks -/

/-- The scheduler has done what the locks say: every unit has the books of its lock, and every
message is one for a word of the locks. -/
structure Agrees (u : Nat) (s : System) (store : Store Nat) : Prop where
  books : ∃ lists locks, Good u s.object lists s.acked locks ∧ lists.loose = [] ∧
    ∀ j, lockOf u s.object j (lists.queue j) = store.locks j ∧
      Marked u s.object j (lists.queue j)
  fits : ∀ k, Attached s.object k → Fits u (s.object.kerninfo k)
  log : s.object.sent = renderLog u s.object.kerninfo store.log
  clients : ∀ entry ∈ store.log, Attached s.object entry.2.client
  heard : Heard u s.object s.acked s.object.sent store.locks

section Steps

variable {maxPageSize : Nat} {s s' : System} {store : Store Nat} {event : Event}
  {object object' : Object} {lists lists' : Lists} {acked acked' : List Nat}
  {locks locks' : List Lock} {j k port : Nat} {message : Message}

theorem attached_of_access (good : Good u object lists acked locks)
    (used : accessOf (object.minPages (u * j)) k ≠ .none) : Attached object k := by
  obtain ⟨use, user, looks, -, writer, readers⟩ := good.units j
  have current := looks.use_first good.pos
  cases use with
  | none =>
      rw [accessOf_none current] at used
      exact absurd rfl used
  | read =>
      rw [accessOf_read current, looks.user_first good.pos, reading] at used
      have member : setMember user k = true := by
        by_contra absent
        exact used (if_neg absent)
      refine readers rfl k ?_ member
      by_contra large
      rw [setMember_large _ (Nat.not_lt.mp large)] at member
      cases member
  | write =>
      rw [accessOf_of_looks good.pos looks rfl] at used
      by_cases self : k = writerOf user
      · rw [self]
        exact writer rfl
      · rw [Function.update_of_ne self] at used
        exact absurd rfl used

theorem attached_of_waiter (good : Good u object lists acked locks) :
    ∀ waiter ∈ (lockOf u object j (lists.queue j)).queue, Attached object waiter.client := by
  intro waiter member
  obtain ⟨r, inside, rfl⟩ := List.mem_map.mp member
  obtain ⟨kernel, named, attached⟩ := (good.waits j).kernel r inside
  have client : (waiterOf (object.minPages (u * j)) (clientOf object r)).client = kernel := by
    rw [waiterOf, clientOf, named]
    rfl
  rw [client]
  exact attached

theorem Heard.congr {sent : List Message} {held : Nat → RWLock Nat}
    (heard : Heard u object acked sent held) (info : object'.kerninfo = object.kerninfo) :
    Heard u object' acked sent held where
  told := by
    intro k attached page
    rw [info]
    exact heard.told k ((Attached.congr info).mp attached) page
  pending := by
    intro j k waits writes page here
    rw [info]
    exact heard.pending j k waits writes page here
  answered := heard.answered

theorem Agrees.wired (agrees : Agrees u s store) : Wired u s.object := by
  obtain ⟨lists, locks, good, -, -⟩ := agrees.books
  exact ⟨good.pos, agrees.fits, good.ports⟩

theorem Agrees.rounded (agrees : Agrees u s store) : Rounded u s.object :=
  fun k attached => (agrees.fits k attached).size

theorem Agrees.attached {c : Nat} (agrees : Agrees u s store)
    (used : (store.locks j).access c ≠ .none) : Attached s.object c := by
  obtain ⟨lists, locks, good, -, before⟩ := agrees.books
  rw [← (before j).1] at used
  exact attached_of_access good used

theorem Agrees.call (agrees : Agrees u s store) {result : RWLock Nat × List (Word Nat)}
    (before : ∀ j, lockOf u s.object j (lists.queue j) = store.locks j ∧
      Marked u s.object j (lists.queue j))
    (good : Good u object' lists' acked' locks') (settled : lists'.loose = [])
    (info : object'.kerninfo = s.object.kerninfo)
    (outcome : Outcome u j s.object object' lists lists' result)
    (spoken : ∀ word ∈ result.2, Attached s.object word.client)
    (heard : Heard u s.object acked' (tell u s.object.kerninfo j result.2 s.object.sent)
      (Function.update store.locks j result.1)) :
    Agrees u { s with object := object', acked := acked' } (store.put j result) where
  books := by
    refine ⟨lists', locks', good, settled, fun j' => ?_⟩
    obtain ⟨lock, marked⟩ := before j'
    by_cases same : j' = j
    · rw [same, Store.put_self]
      exact ⟨outcome.lock, outcome.marked⟩
    · rw [Store.put_other same, ← lock]
      exact ⟨outcome.other good.pos same, outcome.marked_other good.pos same marked⟩
  fits := by
    intro k attached
    dsimp only
    rw [info]
    exact agrees.fits k ((Attached.congr info).mp attached)
  log := by
    dsimp only
    rw [outcome.sent, agrees.log, tell_renderLog, info]
    rfl
  clients := by
    intro entry member
    refine (Attached.congr info).mpr ?_
    rcases List.mem_append.mp member with new | old
    · obtain ⟨word, said, rfl⟩ := List.mem_map.mp (List.mem_reverse.mp new)
      exact spoken word said
    · exact agrees.clients entry old
  heard := by
    have heard := heard.congr info
    rw [← outcome.sent] at heard
    exact heard

theorem agrees_request {offset : Nat} {write needsData : Bool} (agrees : Agrees u s store)
    (sound : ∀ j, (store.locks j).Sound kernels)
    (found : s.object.portToKernel port = some k)
    (aligned : offset % (s.object.kerninfo k).realPageSize = 0)
    (served : s.object.memoryObjectRequest port offset (s.object.kerninfo k).realPageSize write
      needsData = some object') :
    ∃ store', (∃ call, Store.step kernels store call = some store') ∧
      Agrees u { s with object := object' } store' := by
  have wired := agrees.wired
  obtain ⟨lists, locks, good, settled, before⟩ := agrees.books
  obtain ⟨attached, j, object₂, lists', locks', same, good', loose, after, outcome⟩ :=
    Locked.served write needsData ⟨good, fun j => (before j).2, fun j => (before j).1 ▸ sound j⟩
      agrees.rounded found aligned served
  obtain rfl := Option.some.inj same
  have spoken : ∀ word ∈ ((store.locks j).request kernels k write needsData).2,
      Attached s.object word.client := RWLock.request_spoken (fun c => agrees.attached) attached
  rw [(before j).1] at outcome
  refine ⟨_, ⟨.request j k write needsData, if_pos (List.mem_range.mpr attached.1)⟩,
    agrees.call before good' (loose.trans settled) after.kerninfo outcome spoken ?_⟩
  have sound' := (sound j).request (List.mem_range.mpr attached.1) write needsData
  exact agrees.heard.say wired spoken ((sound j).request_hears k write needsData)
    (fun c d => sound'.only_writer) ((sound j).request_recalls k write needsData)

/-- A LOCK_WRITER can be acknowledged, and this gives the lock of its unit back. -/
theorem agrees_lockCompleted {serial : Nat} (junk : Nat → Junk) (agrees : Agrees u s store)
    (sound : ∀ j, (store.locks j).Sound kernels)
    (logged : messageAt s.object.sent serial = some message) (kind : message.kind = .lockWriter)
    (fresh : serial ∉ s.acked) :
    ∃ object' j c, s.object.memoryObjectLockCompleted junk message.port message.offset
        message.length = some object' ∧
      (store.locks j).access c = .write ∧ (store.locks j).queue ≠ [] ∧
      Agrees u { s with object := object', acked := serial :: s.acked }
        (store.put j ((store.locks j).giveBack kernels c)) := by
  have wired := agrees.wired
  obtain ⟨lists, locks, good, settled, before⟩ := agrees.books
  obtain ⟨lock, member, rfl, rfl⟩ := good.lock_of_message logged kind fresh
  have attached := good.books.attached lock member
  have sound' := sound lock.unit
  have distinct := sound'.distinct
  rw [← (before lock.unit).1, clients_lockOf] at distinct
  obtain ⟨writes, object', lists', locks', served, good', loose, after, outcome⟩ :=
    good.lockCompleted_outcome junk member (before lock.unit).2 distinct
  rw [(before lock.unit).1] at outcome writes
  have waits : (store.locks lock.unit).queue ≠ [] := by
    obtain ⟨r, rest, queue, -⟩ := good.books.front lock member
    rw [← (before lock.unit).1, lockOf, queue]
    exact List.cons_ne_nil _ _
  have waiters : ∀ waiter ∈ (store.locks lock.unit).queue, Attached s.object waiter.client := by
    rw [← (before lock.unit).1]
    exact attached_of_waiter good
  have spoken : ∀ word ∈ ((store.locks lock.unit).giveBack kernels lock.kernel).2,
      Attached s.object word.client := RWLock.giveBack_spoken (fun c => agrees.attached) waiters
  refine ⟨object', lock.unit, lock.kernel, served, writes, waits,
    agrees.call before good' (loose.trans settled) after.kerninfo outcome spoken ?_⟩
  have heard := agrees.heard.ack wired attached logged (fun page here => ?_)
  · have answered := sound'.giveBack writes
    have said := heard.say (j := lock.unit) wired spoken (fun c => ?_)
      (fun c d => answered.only_writer) (fun queued => Or.inr (serve_recalls queued))
    · rw [Function.update_idem] at said
      exact said
    · rw [Function.update_self]
      exact sound'.giveBack_hears writes c
  · obtain ⟨serial', message, found, kind', unacked⟩ :=
      agrees.heard.pending lock.unit lock.kernel waits writes page here
    obtain ⟨logged', -, covered⟩ := lastTo_spec found
    -- the last message is the lock that is answered, since a unit has one lock at a time
    obtain ⟨other, member', rfl, rfl⟩ := good.lock_of_message logged' kind' unacked
    have unit : other.unit = lock.unit :=
      ((covers_unit good.pos rfl rfl).mp covered).symm.trans here
    obtain rfl := List.inj_on_of_nodup_map good.books.units member' member unit
    exact ⟨_, found, rfl⟩

theorem Agrees.addressee (agrees : Agrees u s store) (sent : message ∈ s.object.sent) :
    ∃ k, Attached s.object k ∧ message.port = (s.object.kerninfo k).requestPort := by
  rw [agrees.log] at sent
  obtain ⟨entry, member, inside⟩ := List.mem_flatMap.mp sent
  have attached := agrees.clients entry member
  exact ⟨_, attached,
    ((render_spec _ _ _ agrees.wired.pos (agrees.fits _ attached)).1 message inside).1⟩

theorem Agrees.holder {page : Nat} (agrees : Agrees u s store)
    (holds : holding s.acked s.object.sent port page ≠ .none) :
    ∃ k, Attached s.object k ∧ (s.object.kerninfo k).requestPort = port := by
  by_contra unknown
  rw [holding, lastTo_none] at holds
  · exact holds rfl
  · intro message sent both
    obtain ⟨k, attached, named⟩ := agrees.addressee sent
    exact unknown ⟨k, attached, named.symm.trans both.1⟩

theorem agrees_letIn {kernel : Nat} {info : Kernel} (agrees : Agrees u s store)
    (slot : s.object.portToKernel 0 = some kernel)
    (unknown : s.object.portToKernel info.requestPort = none)
    (size : info.pageSize = u * minPageSize) (fits : Fits u info) :
    Agrees u { s with object := { s.object with
      kerninfo := Function.update s.object.kerninfo kernel info } } store := by
  obtain ⟨lists, locks, good, settled, before⟩ := agrees.books
  have free : (s.object.kerninfo kernel).requestPort = 0 := by
    unfold Object.portToKernel at slot
    simpa using List.find?_some slot
  have good' := (good.letIn agrees.rounded slot unknown size fits.size).1
  have strange : ∀ k, Attached s.object k →
      (s.object.kerninfo k).requestPort ≠ info.requestPort := by
    intro k attached same
    have found := good.portToKernel attached
    rw [same, unknown] at found
    cases found
  have apart : ∀ k, Attached s.object k → k ≠ kernel := by
    rintro k attached rfl
    exact attached.2 free
  obtain ⟨after, hafter⟩ : ∃ object', object' = { s.object with
    kerninfo := Function.update s.object.kerninfo kernel info } := ⟨_, rfl⟩
  have self : after.kerninfo kernel = info := by
    rw [hafter]
    exact Function.update_self _ _ _
  have kept : ∀ k, k ≠ kernel → after.kerninfo k = s.object.kerninfo k := by
    intro k other
    rw [hafter]
    exact Function.update_of_ne other _ _
  have back : ∀ k, k ≠ kernel → Attached after k → Attached s.object k := by
    intro k other attached
    rwa [Attached, kept k other] at attached
  have sent : after.sent = s.object.sent := by rw [hafter]
  have nobody : ∀ j, (store.locks j).access kernel = .none := fun j =>
    not_not.mp fun used => (agrees.attached used).2 free
  rw [← hafter] at good' ⊢
  refine ⟨⟨lists, locks, good', settled, fun j => ?_⟩, fun k attached => ?_, ?_,
    fun entry member => ?_, ⟨fun k attached page => ?_, fun j k waits writes page here => ?_, ?_⟩⟩
  · rw [hafter]
    obtain ⟨lock, marked⟩ := before j
    exact ⟨lock, marked.write, marked.data, marked.others⟩
  · by_cases new : k = kernel
    · rw [new, self]
      exact fits
    · rw [kept k new]
      exact agrees.fits k (back k new attached)
  · rw [sent, agrees.log]
    refine (renderLog_congr fun entry member => ?_).symm
    exact kept _ (apart _ (agrees.clients entry member))
  · have attached := agrees.clients entry member
    rw [Attached, kept _ (apart _ attached)]
    exact attached
  · rw [sent]
    by_cases new : k = kernel
    · rw [new, self, nobody]
      by_contra holds
      obtain ⟨k', attached', named⟩ := agrees.holder holds
      exact strange k' attached' named
    · rw [kept k new]
      exact agrees.heard.told k (back k new attached) page
  · rw [sent, kept k]
    · exact agrees.heard.pending j k waits writes page here
    · rintro rfl
      rw [nobody j] at writes
      cases writes
  · rw [sent]
    exact agrees.heard.answered

theorem agrees_attach {pageSize : Nat} (agrees : Agrees u s store)
    (ok : Siblings.OneSize u maxPageSize s (.attach port pageSize)) :
    Agrees u { s with object := s.object.memoryObjectInitUpTo maxPageSize port pageSize }
      store := by
  unfold Object.memoryObjectInitUpTo
  split
  · exact agrees
  split
  · exact agrees
  split
  · exact agrees
  split
  · exact agrees
  next small power unknown =>
  have power : Object.isPowerOfTwo pageSize = true := by simpa using power
  obtain ⟨short, size⟩ := ok (Nat.not_lt.mp small) power
  have stored : shortSize (if pageSize < minPageSize then minPageSize else pageSize) =
      u * minPageSize := by
    rw [Object.shortSize_eq, rounded_size size]
    split
    · decide
    · exact short
  cases slot : s.object.portToKernel 0 with
  | none => exact agrees
  | some kernel =>
      refine agrees_letIn agrees slot (not_not.mp unknown) stored ⟨?_, ?_⟩
      · dsimp only
        rw [Object.shortSize_eq short]
        exact power
      · dsimp only
        rw [Object.shortSize_eq short]
        exact size

theorem Agrees.answer {serial : Nat} {junk : Nat → Junk} (agrees : Agrees u s store)
    (sound : ∀ j, (store.locks j).Sound kernels)
    (ran : stepUpTo maxPageSize s (.lockCompleted serial junk) = some s') :
    ∃ j c, (store.locks j).access c = .write ∧ (store.locks j).queue ≠ [] ∧
      Agrees u s' (store.put j ((store.locks j).giveBack kernels c)) := by
  rw [stepUpTo] at ran
  obtain ⟨message, logged, ran⟩ := Option.bind_eq_some_iff.mp ran
  split at ran
  · next pending =>
      obtain ⟨object, served, result⟩ := Option.bind_eq_some_iff.mp ran
      obtain rfl := Option.some.inj result
      obtain ⟨object', j, c, served', answer⟩ :=
        agrees_lockCompleted junk agrees sound logged pending.1 pending.2
      obtain rfl := Option.some.inj (served'.symm.trans served)
      exact ⟨j, c, answer⟩
  · cases ran

theorem agrees_step (agrees : Agrees u s store)
    (sound : ∀ j, (store.locks j).Sound kernels)
    (ok : Siblings.OneSize u maxPageSize s event) (ran : stepUpTo maxPageSize s event = some s') :
    ∃ store', (store' = store ∨ ∃ call, Store.step kernels store call = some store') ∧
      Agrees u s' store' := by
  cases event with
  | attach port pageSize =>
      obtain rfl := Option.some.inj ran
      exact ⟨store, Or.inl rfl, agrees_attach agrees ok⟩
  | request port offset length write needsData =>
      rw [stepUpTo] at ran
      split at ran
      · cases ran
      next aligned =>
      obtain ⟨object, served, result⟩ := Option.bind_eq_some_iff.mp ran
      obtain rfl := Option.some.inj result
      obtain ⟨kernel, found, rfl⟩ := Siblings.length_of_request served
      obtain ⟨store', called, agrees'⟩ :=
        agrees_request agrees sound found (not_not.mp aligned) served
      exact ⟨store', Or.inr called, agrees'⟩
  | lockCompleted serial junk =>
      obtain ⟨j, c, writes, waits, agrees'⟩ := agrees.answer sound ran
      exact ⟨_, Or.inr ⟨.giveBack j c, if_pos ⟨writes, waits⟩⟩, agrees'⟩

theorem agrees_new (pos : 0 < u) (size : Nat) :
    Agrees u { object := Object.createUpTo maxPageSize size } {} := by
  have nobody : ∀ k, ¬Attached (Object.createUpTo maxPageSize size) k :=
    fun k attached => attached.2 rfl
  have new := locked_new pos (Object.createUpTo maxPageSize size).objectSize
  refine ⟨⟨_, _, new.good, rfl, fun j => ⟨rfl, new.marked j⟩⟩,
    fun k attached => absurd attached (nobody k), rfl, nofun,
    ⟨fun k attached => absurd attached (nobody k), fun j k waits => absurd rfl waits, nofun⟩⟩

theorem exists_agrees (pos : 0 < u)
    (reach : (machineUpTo maxPageSize).Reachable (Siblings.OneSize u maxPageSize) s) :
    ∃ store, (Store.machine kernels).Reachable Machine.always store ∧ Agrees u s store := by
  refine reach.invariant (P := fun s => ∃ store,
    (Store.machine kernels).Reachable Machine.always store ∧ Agrees u s store) ?_ ?_
  · rintro s ⟨size, rfl⟩
    exact ⟨{}, .init rfl, agrees_new pos size⟩
  · rintro s event s' ⟨store, kept, agrees⟩ ok ran
    obtain ⟨store', called, agrees'⟩ :=
      agrees_step agrees (Store.sound_of_reachable kept) ok ran
    refine ⟨store', ?_, agrees'⟩
    rcases called with rfl | ⟨call, called⟩
    · exact kept
    · exact .step kept trivial called

end Steps

/-! ## A run -/

section Example

/-- One kernel has a page for writing, and gives it back when another one asks to read it. -/
def handOver : List Event :=
  [.attach 10 4096, .attach 11 4096, .request 10 0 4096 true true,
    .request 11 0 4096 false true, .lockCompleted 1 Siblings.idle]

/-- A state on the way of `handOver` is reached by kernels with pages of one minimal page. -/
theorem reachable_handOver {n : Nat} {P : System → Bool}
    (ran : ((machineUpTo 8192).run { object := Object.createUpTo 8192 8192 }
      (handOver.take n)).map P = some true) :
    ∃ s, (machineUpTo 8192).Reachable (Siblings.OneSize 1 8192) s ∧ P s = true := by
  obtain ⟨s, reached, holds⟩ := Option.map_eq_some_iff.mp ran
  refine ⟨s, .of_run (handOver.take n) (.init ⟨8192, rfl⟩) reached ?_, holds⟩
  refine Machine.meets_of_forall fun event member s => ?_
  have called := List.mem_of_mem_take member
  simp only [handOver, List.mem_cons, List.not_mem_nil, or_false] at called
  rcases called with rfl | rfl | rfl | rfl | rfl
  · exact fun _ _ => by decide
  · exact fun _ _ => by decide
  all_goals trivial

end Example

/-! ## Results -/

/-- The object is an array of locks: the books of every page are those of the lock of its unit,
the requests linked from its head are the waiting clients, and the messages are what the locks
have said. -/
structure Represents (u : Nat) (object : Object) (store : Store Nat) : Prop where
  access : ∀ page kernel,
    accessOf (object.minPages page) kernel = (store.locks (page / u)).access kernel
  waiting : ∀ j, ∃ queue,
    Linked (fun r => (object.requests r).follow) (object.minPages (u * j)).head queue ∧
      (∀ page, page / u = j → (object.minPages page).tail = queue.getLast?) ∧
      (store.locks j).queue =
        queue.map fun r => waiterOf (object.minPages (u * j)) (clientOf object r)
  sent : object.sent = renderLog u object.kerninfo store.log

/-- Nobody waits for any page. -/
def Calm (object : Object) : Prop :=
  ∀ page, (object.minPages page).head = none ∧ (object.minPages page).tail = none ∧
    (object.minPages page).writeWaiters = 0 ∧ (object.minPages page).dataWaiters = 0

section Results

variable {maxPageSize : Nat} {s : System} {store : Store Nat} {port port' page : Nat}

theorem Agrees.represents (agrees : Agrees u s store) : Represents u s.object store := by
  obtain ⟨lists, locks, good, settled, before⟩ := agrees.books
  refine ⟨fun page kernel => ?_, fun j => ⟨lists.queue j, ?_, fun page here => ?_, ?_⟩,
    agrees.log⟩
  · obtain ⟨i, inside, whole⟩ := unit_of_div good.pos (rfl : page / u = page / u)
    obtain ⟨use, user, looks, -, -, -⟩ := good.units (page / u)
    have same : accessOf (s.object.minPages page) =
        accessOf (s.object.minPages (u * (page / u))) := by
      conv_lhs => rw [whole]
      exact accessOf_congr ((looks.use i inside).trans (looks.use_first good.pos).symm)
        ((looks.user i inside).trans (looks.user_first good.pos).symm)
    rw [same, ← (before (page / u)).1]
    rfl
  · obtain ⟨use, user, looks, -, -, -⟩ := good.units j
    rw [looks.head]
    exact (good.waits j).linked
  · obtain ⟨i, inside, rfl⟩ := unit_of_div good.pos here
    obtain ⟨use, user, looks, -, -, -⟩ := good.units j
    exact looks.tail i inside
  · rw [← (before j).1]
    rfl

/-- Every run of kernels with one page size is a run of the locks. -/
theorem represents_of_oneSize (pos : 0 < u)
    (reach : (machineUpTo maxPageSize).Reachable (Siblings.OneSize u maxPageSize) s) :
    ∃ store, (Store.machine kernels).Reachable Machine.always store ∧
      Represents u s.object store := by
  obtain ⟨store, kept, agrees⟩ := exists_agrees pos reach
  exact ⟨store, kept, agrees.represents⟩

theorem represents_of_oneSize_handOver : ∃ (s : System) (store : Store Nat),
    s.acked = [1] ∧ (Store.machine kernels).Reachable Machine.always store ∧
      Represents 1 s.object store := by
  obtain ⟨s, reach, acked⟩ :=
    reachable_handOver (n := 5) (P := fun s => decide (s.acked = [1])) (by decide +kernel)
  obtain ⟨store, kept, represents⟩ := represents_of_oneSize Nat.one_pos reach
  exact ⟨s, store, of_decide_eq_true acked, kept, represents⟩

theorem exists_agrees_any
    (reach : (machineUpTo maxPageSize).Reachable (Siblings.OneSize u maxPageSize) s) :
    ∃ v store, (Store.machine kernels).Reachable Machine.always store ∧ Agrees v s store := by
  rcases Nat.eq_zero_or_pos u with rfl | pos
  · exact ⟨1, exists_agrees Nat.one_pos (reach.mono fun _ _ => Siblings.oneSize_of_zero)⟩
  · exact ⟨u, exists_agrees pos reach⟩

/-- Who has a page for writing is the only one that has it. -/
theorem alone_of_oneSize
    (reach : (machineUpTo maxPageSize).Reachable (Siblings.OneSize u maxPageSize) s)
    (writes : holding s.acked s.object.sent port page = .write) (other : port' ≠ port) :
    holding s.acked s.object.sent port' page = .none := by
  obtain ⟨v, store, kept, agrees⟩ := exists_agrees_any reach
  by_contra holds
  obtain ⟨k', attached', rfl⟩ := agrees.holder holds
  obtain ⟨k, attached, rfl⟩ := agrees.holder (ne_of_eq_of_ne writes (by decide))
  rw [agrees.heard.told k attached] at writes
  rw [agrees.heard.told k' attached'] at holds
  refine holds ((Store.sound_of_reachable kept (page / v)).alone k k' writes ?_)
  rintro rfl
  exact other rfl

/-- Kernel 11 has asked, and kernel 10 has not answered yet. -/
theorem alone_of_oneSize_handOver : ∃ s : System,
    holding s.acked s.object.sent 10 0 = .write ∧ holding s.acked s.object.sent 11 0 = .none := by
  obtain ⟨s, reach, writes⟩ := reachable_handOver (n := 4)
    (P := fun s => decide (holding s.acked s.object.sent 10 0 = .write)) (by decide +kernel)
  exact ⟨s, of_decide_eq_true writes,
    alone_of_oneSize reach (of_decide_eq_true writes) (by decide)⟩

theorem eq_zero_of_empty {set : BitVec 32} (empty : ∀ k, setMember set k ≠ true) : set = 0 := by
  refine BitVec.eq_of_getLsbD_eq fun k _ => ?_
  exact (Bool.eq_false_iff.mpr (empty k)).trans (by simp)

theorem Agrees.calm (agrees : Agrees u s store) (sound : ∀ j, (store.locks j).Sound kernels)
    (acked : ∀ serial message, messageAt s.object.sent serial = some message →
      message.kind = .lockWriter → serial ∈ s.acked) : Calm s.object := by
  have idle : ∀ j, (store.locks j).queue = [] := by
    intro j
    by_contra waits
    obtain ⟨c, writes⟩ := (sound j).busy waits
    have here : u * j / u = j := Nat.mul_div_cancel_left j agrees.wired.pos
    obtain ⟨serial, message, found, kind, unacked⟩ :=
      agrees.heard.pending j c waits writes (u * j) here
    exact unacked (acked serial message (lastTo_spec found).1 kind)
  obtain ⟨lists, locks, good, settled, before⟩ := agrees.books
  intro page
  obtain ⟨i, inside, whole⟩ := unit_of_div good.pos (rfl : page / u = page / u)
  obtain ⟨use, user, looks, -, -, -⟩ := good.units (page / u)
  obtain ⟨lock, marked⟩ := before (page / u)
  have empty : lists.queue (page / u) = [] := by
    have queue := idle (page / u)
    rw [← lock, lockOf] at queue
    exact List.map_eq_nil_iff.mp queue
  rw [empty] at looks marked
  rw [whole]
  rcases Nat.eq_zero_or_pos i with rfl | positive
  · rw [Nat.add_zero]
    have tail := looks.tail 0 inside
    rw [Nat.add_zero] at tail
    exact ⟨looks.head, tail,
      eq_zero_of_empty fun k member => absurd (marked.write k member) List.not_mem_nil,
      eq_zero_of_empty fun k member => absurd (marked.data k member) List.not_mem_nil⟩
  · exact ⟨looks.heads i positive inside, looks.tail i inside, marked.others i positive inside⟩

/-- So many LOCK_WRITERs are acknowledged, one after the other. -/
inductive Answered (maxPageSize : Nat) : Nat → System → System → Prop where
  | none (s : System) : Answered maxPageSize 0 s s
  | more {n serial : Nat} {junk : Nat → Junk} {s middle s' : System}
      (ran : stepUpTo maxPageSize s (.lockCompleted serial junk) = some middle)
      (rest : Answered maxPageSize n middle s') : Answered maxPageSize (n + 1) s s'

/-- No LOCK_WRITER is left that can be acknowledged. -/
def Silent (maxPageSize : Nat) (s : System) : Prop :=
  ∀ serial junk, stepUpTo maxPageSize s (.lockCompleted serial junk) = none

theorem Agrees.silent (agrees : Agrees u s store) (sound : ∀ j, (store.locks j).Sound kernels)
    (silent : Silent maxPageSize s) : Calm s.object := by
  refine agrees.calm sound fun serial message logged kind => ?_
  by_contra fresh
  obtain ⟨object', j, c, served, -⟩ :=
    agrees_lockCompleted Siblings.idle agrees sound logged kind fresh
  have stuck := silent serial Siblings.idle
  rw [stepUpTo, logged, Option.bind_some, if_pos ⟨kind, fresh⟩, served] at stuck
  cases stuck

theorem Agrees.answered {n : Nat} {places : Finset Nat} (agrees : Agrees u s store)
    (kept : (Store.machine kernels).Reachable Machine.always store)
    (idle : store.Within places) (answers : Answered maxPageSize n s s') :
    n ≤ store.waiting places ∧ (Silent maxPageSize s' → Calm s'.object) := by
  induction answers generalizing store with
  | none s => exact ⟨Nat.zero_le _, agrees.silent (Store.sound_of_reachable kept)⟩
  | more ran rest ih =>
      obtain ⟨j, c, writes, waits, agrees'⟩ := agrees.answer (Store.sound_of_reachable kept) ran
      obtain ⟨idle', fewer⟩ := @Store.waiting_giveBack _ _ kernels _ _ _ idle waits c
      have called : (Store.machine kernels).step store (.giveBack j c) = _ :=
        if_pos ⟨writes, waits⟩
      obtain ⟨short, calm⟩ := ih agrees' (.step kept trivial called) idle'
      exact ⟨Nat.lt_of_le_of_lt short fewer, calm⟩

/-- However the LOCK_WRITERs are acknowledged, also those that this brings about, there is an
end to it, and then nobody waits. -/
theorem answers_end
    (reach : (machineUpTo maxPageSize).Reachable (Siblings.OneSize u maxPageSize) s) :
    ∃ bound, ∀ n s', Answered maxPageSize n s s' →
      n ≤ bound ∧ (Silent maxPageSize s' → Calm s'.object) := by
  obtain ⟨v, store, kept, agrees⟩ := exists_agrees_any reach
  obtain ⟨places, idle⟩ := Store.exists_within kept
  exact ⟨store.waiting places, fun n s' answers => agrees.answered kept idle answers⟩

theorem answers_end_handOver : ∃ s : System, s.object.sent.length = 2 ∧
    ∃ bound, ∀ n s', Answered 8192 n s s' → n ≤ bound ∧ (Silent 8192 s' → Calm s'.object) := by
  obtain ⟨s, reach, told⟩ := reachable_handOver (n := 4)
    (P := fun s => decide (s.object.sent.length = 2)) (by decide +kernel)
  exact ⟨s, of_decide_eq_true told, answers_end reach⟩

end Results

end MachFormal.NetMemory.Coherence
