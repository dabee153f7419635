import MachFormal.Sup.Peek

/-!
# The bounds of the stream buffers

Both directions go through buffers of `FILEXFER` bytes.  `writedata` copies what does not
fit the buffer in use into the other one without comparing its length with the size of
that.  `readdata` stops its refill when the buffer is full, takes the `read` of no bytes
that follows for the end of the input, and is asked by `readstring` for whatever count
the peer has sent.

The reading routines are here with the sizes of the buffers they store into; a store past
the end of one is a failure, and so is a loop that goes on when nothing is left to do.
-/

namespace MachFormal.Sup.Buffers

open Library.Wire

/-! ## Reading with the sizes of the buffers -/

/-- What can come of a call instead of a result. -/
inductive Mishap where
  | failure (f : Failure)
  | spins

/-- The input, and `cryptsize`: the buffer for encryption has one byte more once it is
allocated. -/
structure Reader where
  input : Input
  cryptsize : Nat

def Reader.cryptbuf (s : Reader) : Nat := if s.cryptsize = 0 then 0 else s.cryptsize + 1

abbrev Checked := StateT Reader (Except Mishap)

/-- The refill loop of `readdata` with its pointer `p` into the buffer. -/
def fillLoop : Nat → Nat → Nat → Nat → List Byte → Stream Byte →
    Except Mishap (List Byte × Stream Byte)
  | 0, _, m, _, buffer, net => if m = 0 then .ok (buffer, net) else .error .spins
  | turns + 1, n, m, p, buffer, net =>
      if m = 0 then
        .ok (buffer, net)
      else
        match (net.read n).1 with
        | [] => .error (.failure prematureEOF)
        | x =>
            if FILEXFER < p + x.length then .error (.failure .overrun)
            else fillLoop turns (n - x.length) (m - x.length) (p + x.length) (buffer ++ x)
              (net.read n).2

/-- `readdata (count, data)` for a buffer of `size` bytes at `data`. -/
def readdataInto (size count : Nat) : Checked (List Byte) := fun s =>
  let r := s.input
  if count ≤ r.data.length then
    if size < count then .error (.failure .overrun)
    else .ok (r.data.take count, { s with
      input := { r with bufptr := r.bufptr + count, data := r.data.drop count } })
  else if size < r.data.length then .error (.failure .overrun)
  else
    let m := count - r.data.length
    match fillLoop m FILEXFER m 0 [] r.net with
    | .error mishap => .error mishap
    | .ok (buffer, net) =>
        if size < count then .error (.failure .overrun)
        else .ok (r.data ++ buffer.take m, { s with input := ⟨m, buffer.drop m, net⟩ })

section Routines

variable (e : Endpoint) (room : Nat → Bool)

/-- `malloc`: nothing as large as the address space can be had. -/
def malloc (size : Nat) : Bool := decide (size < 2 ^ 31) && room size

def getcryptbuf (x : CInt) : Checked Unit := fun s =>
  if e.rotors.isNone then .ok ((), { s with cryptsize := 0 })
  else if (s.cryptsize : Int) < x.toInt then
    if malloc room (x.toNat + 1) then .ok ((), { s with cryptsize := x.toNat })
    else .error (.failure (.scmerr "Can't allocate encryption buffer"))
  else .ok ((), s)

/-- `readcount`. -/
def readcountInto : Checked CInt := do
  let y ← readdataInto 4 4
  pure (e.bytesInt y)

/-- A count that must not be negative. -/
def checkCountInto (count : CInt) : Checked Nat :=
  if count.toInt < 0 then
    throw (.failure (.scmerr s!"Invalid message count {count.toInt}"))
  else
    pure count.toNat

/-- The loop of `readskip`. -/
def skipLoop : Nat → Nat → Checked Unit
  | 0, n => if n = 0 then pure () else throw .spins
  | turns + 1, n =>
      if n = 0 then
        pure ()
      else do
        let _ ← readdataInto FILEXFER (XFERSIZE n)
        skipLoop turns (n - XFERSIZE n)

/-- `readskip`. -/
def readskipInto : Checked Unit := do
  let count ← readcountInto e
  let n ← checkCountInto count
  skipLoop n n

/-- `readstring`: the block goes to the new string, or to the buffer for encryption first. -/
def readstringInto : Checked (Option CString) := do
  let count ← readcountInto e
  if count = NULLCOUNT then
    pure none
  else do
    let n ← checkCountInto count
    if !malloc room (n + 1) then
      throw (.failure (.scmerr s!"Can't malloc {n} bytes for string"))
    else if e.rotors.isSome then do
      getcryptbuf e room (count + 1)
      let s ← get
      let p ← readdataInto s.cryptbuf n
      pure (some (CString.ofMemory (e.cipher p)))
    else do
      let p ← readdataInto (n + 1) n
      pure (some (CString.ofMemory (e.cipher p)))

/-- The loop of `readfile`. -/
def fileLoop : Nat → Nat → List Byte → Checked (List Byte)
  | 0, count, out => if count = 0 then pure out else throw .spins
  | turns + 1, count, out =>
      if count = 0 then
        pure out
      else do
        let s ← get
        let buf ← readdataInto (if e.rotors.isSome then s.cryptbuf else FILEXFER) (XFERSIZE count)
        fileLoop turns (count - XFERSIZE count) (out ++ e.cipher buf)

/-- `readfile`. -/
def readfileInto : Checked (List Byte) := do
  if e.rotors.isSome then
    getcryptbuf e room (BitVec.ofNat 32 FILEXFER)
  let count ← readcountInto e
  let n ← checkCountInto count
  fileLoop e n n []

end Routines

/-! ## What is asked of the reading side -/

/-- The routines that take a block from the network. -/
inductive Routine where
  | readskip
  | readstring
  | readfile
  deriving DecidableEq

/-- A call of one of them. -/
def Routine.run (e : Endpoint) (room : Nat → Bool) : Routine → Checked Unit
  | .readskip => readskipInto e
  | .readstring => do
      let _ ← readstringInto e room
  | .readfile => do
      let _ ← readfileInto e room

/-- The same input, cut into other pieces by the network. -/
def Reader.cutBy (s : Reader) (frag : Nat → Nat) : Reader :=
  { s with input := { s.input with net := ⟨s.input.net.bytes, frag⟩ } }

/-- The count that comes next. -/
def announced (e : Endpoint) (s : Reader) : CInt := e.bytesInt (s.input.pending.take 4)

/-- The peer goes on to send the bytes that it has announced. -/
def Arriving (e : Endpoint) (s : Reader) : Prop :=
  4 ≤ s.input.pending.length ∧
    (0 ≤ (announced e s).toInt → 4 + (announced e s).toNat ≤ s.input.pending.length)

/-- No store outside a buffer, no loop without end, and no end of file that is not there. -/
structure ReadsWell (e : Endpoint) (room : Nat → Bool) (routine : Routine) (s : Reader) : Prop where
  inBounds : ∀ frag, routine.run e room (s.cutBy frag) ≠ .error (.failure .overrun)
  ends : ∀ frag, routine.run e room (s.cutBy frag) ≠ .error .spins
  noFalseEOF : Arriving e s → ∀ frag,
    routine.run e room (s.cutBy frag) ≠ .error (.failure prematureEOF)

/-- There is memory for a string of the length. -/
def Granted (e : Endpoint) (room : Nat → Bool) (s : Reader) (n : Nat) : Prop :=
  malloc room (n + 1) = true ∧
    (e.rotors.isSome → n + 1 ≤ s.cryptsize ∨ malloc room (n + 2) = true)

/-- A string that is announced, arrives and can be stored is no longer than one buffer and what
is buffered behind its count. -/
def ShortString (e : Endpoint) (room : Nat → Bool) (routine : Routine) (s : Reader) : Prop :=
  routine = .readstring → Arriving e s → 0 ≤ (announced e s).toInt →
    Granted e room s (announced e s).toNat →
    (announced e s).toNat ≤ FILEXFER + (s.input.data.length - 4)

/-! ## The sizes suffice -/

section Sizes

variable {α β : Type}

/-- A routine of which every store is in bounds. -/
def wrap (x : Recv α) : Checked α := fun s =>
  match x s.input with
  | .ok (a, r) => .ok (a, { s with input := r })
  | .error f => .error (.failure f)

theorem wrap_of_ok {x : Recv α} {s : Reader} {a : α} {r : Input} (ran : x s.input = .ok (a, r)) :
    wrap x s = .ok (a, { s with input := r }) := by
  rw [wrap, ran]

theorem wrap_of_error {x : Recv α} {s : Reader} {f : Failure} (ran : x s.input = .error f) :
    wrap x s = .error (.failure f) := by
  rw [wrap, ran]

theorem wrap_bind (x : Recv α) (f : α → Recv β) :
    wrap (x >>= f) = wrap x >>= fun a => wrap (f a) := by
  funext s
  simp only [wrap, bind, StateT.bind, Except.bind]
  cases x s.input <;> rfl

theorem fillLoop_eq (turns n m p : Nat) (buffer : List Byte) (net : Stream Byte)
    (enough : m ≤ turns) (whole : p + n = FILEXFER) :
    fillLoop turns n m p buffer net = (readdataLoop turns n m buffer net).mapError .failure := by
  induction turns generalizing n m p buffer net with
  | zero =>
      rw [fillLoop, if_pos (by omega)]
      rfl
  | succ turns ih =>
      rw [fillLoop, readdataLoop]
      by_cases done : m = 0
      · rw [if_pos done, if_pos done]
        rfl
      · rw [if_neg done, if_neg done]
        have size := net.read_length_le n
        cases piece : (net.read n).1 with
        | nil => rfl
        | cons b rest =>
            rw [piece] at size
            simp only [List.length_cons] at size ⊢
            rw [if_neg (by omega)]
            exact ih _ _ _ _ _ (by omega) (by omega)

theorem readdataInto_eq {size count : Nat} (fits : count ≤ size) :
    readdataInto size count = wrap (readdata count) := by
  funext s
  simp only [readdataInto, wrap, readdata]
  by_cases buffered : count ≤ s.input.data.length
  · rw [if_pos buffered, if_pos buffered, if_neg (by omega)]
  · rw [if_neg buffered, if_neg buffered, if_neg (by omega),
      fillLoop_eq _ _ _ _ _ _ (Nat.le_refl _) (by omega)]
    cases readdataLoop (count - s.input.data.length) FILEXFER (count - s.input.data.length) []
      s.input.net with
    | error f => rfl
    | ok got => exact if_neg (by omega)

theorem XFERSIZE_le (count : Nat) : XFERSIZE count ≤ FILEXFER ∧ XFERSIZE count ≤ count ∧
    (count ≠ 0 → 0 < XFERSIZE count) := by
  rw [XFERSIZE_eq]
  have : 0 < FILEXFER := by decide
  omega

variable {e : Endpoint} {room : Nat → Bool} {s : Reader}

theorem readcountInto_eq (e : Endpoint) : readcountInto e = wrap (readcount e) := by
  rw [readcountInto, readcount, readdataInto_eq (Nat.le_refl 4), wrap_bind]
  rfl

theorem skipLoop_eq (turns n : Nat) (enough : n ≤ turns) :
    skipLoop turns n = wrap (readskipLoop turns n) := by
  induction turns generalizing n with
  | zero =>
      rw [skipLoop, if_pos (by omega)]
      rfl
  | succ turns ih =>
      rw [skipLoop, readskipLoop]
      by_cases done : n = 0
      · rw [if_pos done, if_pos done]
        rfl
      · obtain ⟨most, -, some_read⟩ := XFERSIZE_le n
        have progress := some_read done
        rw [if_neg done, if_neg done, readdataInto_eq most, wrap_bind, ih _ (by omega)]

theorem fileLoop_eq (turns count : Nat) (out : List Byte) (enough : count ≤ turns) (s : Reader)
    (buffer : e.rotors.isSome → FILEXFER ≤ s.cryptbuf) :
    fileLoop e turns count out s = wrap (readfileLoop e turns count out) s := by
  induction turns generalizing count out s with
  | zero =>
      rw [fileLoop, if_pos (by omega)]
      rfl
  | succ turns ih =>
      rw [fileLoop, readfileLoop]
      by_cases done : count = 0
      · rw [if_pos done, if_pos done]
        rfl
      · obtain ⟨most, -, some_read⟩ := XFERSIZE_le count
        have progress := some_read done
        have fits : XFERSIZE count ≤ if e.rotors.isSome then s.cryptbuf else FILEXFER := by
          split
          next crypt => exact Nat.le_trans most (buffer crypt)
          next => exact most
        rw [if_neg done, if_neg done, wrap_bind]
        change (readdataInto (if e.rotors.isSome then s.cryptbuf else FILEXFER) (XFERSIZE count) >>=
          fun buf => fileLoop e turns (count - XFERSIZE count) (out ++ e.cipher buf)) s = _
        rw [readdataInto_eq fits]
        simp only [bind, StateT.bind, Except.bind]
        cases read : readdata (XFERSIZE count) s.input with
        | error f => rw [wrap_of_error read]
        | ok got =>
            obtain ⟨buf, r⟩ := got
            rw [wrap_of_ok read]
            exact ih _ _ (by omega) _ buffer

/-- Getting the buffer for encryption succeeds, with one long enough, or reports that it
cannot. -/
theorem getcryptbuf_cases (crypt : e.rotors.isSome) (x : CInt) (positive : 0 < x.toInt) :
    (∃ s', getcryptbuf e room x s = .ok ((), s') ∧ s'.input = s.input ∧ x.toNat < s'.cryptbuf ∧
        ((x.toNat ≤ s.cryptsize) ∨ malloc room (x.toNat + 1) = true)) ∨
      (getcryptbuf e room x s = .error (.failure (.scmerr "Can't allocate encryption buffer")) ∧
        ¬(x.toNat ≤ s.cryptsize ∨ malloc room (x.toNat + 1) = true)) := by
  have number : x.toInt = x.toNat := BitVec.toInt_eq_toNat_of_lt (by
    have bound := x.isLt
    have value := BitVec.toInt_eq_toNat_cond x
    split at value <;> omega)
  have some : ¬e.rotors.isNone = true := fun none =>
    Option.isSome_iff_ne_none.mp crypt (Option.isNone_iff_eq_none.mp none)
  rw [getcryptbuf, if_neg some, number]
  by_cases larger : (s.cryptsize : Int) < x.toNat
  · rw [if_pos larger]
    by_cases granted : malloc room (x.toNat + 1) = true
    · refine .inl ⟨_, if_pos granted, rfl, ?_, .inr granted⟩
      simp only [Reader.cryptbuf]
      split <;> omega
    · refine .inr ⟨if_neg granted, ?_⟩
      rintro (small | granted')
      · omega
      · exact granted granted'
  · refine .inl ⟨s, if_neg larger, rfl, ?_, .inl (by omega)⟩
    simp only [Reader.cryptbuf]
    split <;> omega

end Sizes

/-! ## What the routines return -/

section Results

variable {e : Endpoint} {room : Nat → Bool} {s : Reader} {α β : Type}

theorem malloc_text (n : Nat) : Failure.scmerr s!"Can't malloc {n} bytes for string" ≠ prematureEOF := by
  intro same
  have first := congrArg (fun text => text.toList.head?) (Failure.scmerr.inj same)
  simp [String.toList_append, ToString.toString] at first

theorem count_text (n : Int) : Failure.scmerr s!"Invalid message count {n}" ≠ prematureEOF := by
  intro same
  have first := congrArg (fun text => text.toList.head?) (Failure.scmerr.inj same)
  simp [String.toList_append, ToString.toString] at first

/-- A result, the end of an input that ends, or a report of something else. -/
def Sensible (arriving : Prop) (result : Except Mishap α) : Prop :=
  (∃ a, result = .ok a) ∨ (result = .error (.failure prematureEOF) ∧ ¬arriving) ∨
    ∃ text, result = .error (.failure (.scmerr text)) ∧ Failure.scmerr text ≠ prematureEOF

theorem Sensible.map {arriving : Prop} {x : Checked α} {s : Reader}
    (sensible : Sensible arriving (x s)) (f : α → β) :
    Sensible arriving ((x >>= fun a => pure (f a)) s) := by
  simp only [bind, StateT.bind, Except.bind]
  rcases sensible with ⟨a, ok⟩ | ⟨ended, short⟩ | ⟨text, reported, other⟩
  · rw [ok]
    exact .inl ⟨_, rfl⟩
  · rw [ended]
    exact .inr (.inl ⟨rfl, short⟩)
  · rw [reported]
    exact .inr (.inr ⟨text, rfl, other⟩)

theorem ReadsWell.of_sensible {routine : Routine}
    (sensible : ∀ frag, Sensible (Arriving e s) (routine.run e room (s.cutBy frag))) :
    ReadsWell e room routine s := by
  constructor
  · intro frag overran
    rcases sensible frag with ⟨a, ok⟩ | ⟨ended, -⟩ | ⟨text, reported, -⟩
    · exact absurd (ok.symm.trans overran) nofun
    · exact absurd (ended.symm.trans overran) nofun
    · exact absurd (reported.symm.trans overran) nofun
  · intro frag spun
    rcases sensible frag with ⟨a, ok⟩ | ⟨ended, -⟩ | ⟨text, reported, -⟩
    · exact absurd (ok.symm.trans spun) nofun
    · exact absurd (ended.symm.trans spun) nofun
    · exact absurd (reported.symm.trans spun) nofun
  · intro arriving frag eof
    rcases sensible frag with ⟨a, ok⟩ | ⟨-, short⟩ | ⟨text, reported, other⟩
    · exact absurd (ok.symm.trans eof) nofun
    · exact short arriving
    · exact other (Mishap.failure.inj (Except.error.inj (reported.symm.trans eof)))

theorem readfileLoop_result (turns count : Nat) (out : List Byte) (r : Input)
    (enough : count ≤ turns) :
    (∃ content r', readfileLoop e turns count out r = .ok (content, r')) ∨
      (readfileLoop e turns count out r = .error prematureEOF ∧ r.pending.length < count) := by
  induction turns generalizing count out r with
  | zero => exact .inl ⟨out, r, rfl⟩
  | succ turns ih =>
      rw [readfileLoop]
      by_cases done : count = 0
      · rw [if_pos done]
        exact .inl ⟨out, r, rfl⟩
      · have total : r.pending.length = r.data.length + r.net.bytes.length := List.length_append
        obtain ⟨most, part, some_read⟩ := XFERSIZE_le count
        have progress := some_read done
        rw [if_neg done]
        simp only [bind, StateT.bind, Except.bind]
        by_cases long : XFERSIZE count ≤ r.data.length + min FILEXFER r.net.bytes.length
        · obtain ⟨r', read, left, -⟩ := readdata_succeeds long
          rw [read]
          have size : r'.pending.length = r.pending.length - XFERSIZE count := by
            rw [left, List.length_drop]
          rcases ih (count - XFERSIZE count) (out ++ e.cipher (r.pending.take (XFERSIZE count))) r'
            (by omega) with whole | ⟨ended, short⟩
          · exact .inl whole
          · exact .inr ⟨ended, by omega⟩
        · rw [readdata_fails (Nat.lt_of_not_le long)]
          exact .inr ⟨rfl, by omega⟩

theorem readcount_result (e : Endpoint) (r : Input) :
    (∃ r', readcount e r = .ok (e.bytesInt (r.pending.take 4), r') ∧
        r'.pending = r.pending.drop 4 ∧ r.data.length - 4 ≤ r'.data.length ∧
        4 ≤ r.pending.length) ∨
      (readcount e r = .error prematureEOF ∧ r.pending.length < 4) := by
  have total : r.pending.length = r.data.length + r.net.bytes.length := List.length_append
  have big : 4 ≤ FILEXFER := by decide
  simp only [readcount, bind, StateT.bind, Except.bind]
  by_cases four : 4 ≤ r.pending.length
  · obtain ⟨r', read, left, -⟩ := @readdata_succeeds 4 r (by omega)
    refine .inl ⟨r', by rw [read]; rfl, left, ?_, four⟩
    by_cases buffered : 4 ≤ r.data.length
    · have direct : readdata 4 r = .ok (r.data.take 4, ⟨r.bufptr + 4, r.data.drop 4, r.net⟩) :=
        if_pos buffered
      rw [read] at direct
      obtain ⟨-, rfl⟩ := Prod.mk.inj (Except.ok.inj direct)
      simp only [List.length_drop, Nat.le_refl]
    · omega
  · rw [readdata_fails (by omega)]
    exact .inr ⟨rfl, by omega⟩

theorem readskipLoop_result (e : Endpoint) (n : Nat) (r : Input) :
    (∃ r', readskipLoop n n r = .ok ((), r')) ∨
      (readskipLoop n n r = .error prematureEOF ∧ r.pending.length < n) := by
  rw [@readskipLoop_eq e n n []]
  simp only [bind, StateT.bind, Except.bind]
  rcases @readfileLoop_result e n n [] r (Nat.le_refl n) with ⟨content, r', read⟩ | ⟨ended, short⟩
  · rw [read]
    exact .inl ⟨r', rfl⟩
  · rw [ended]
    exact .inr ⟨rfl, short⟩

/-- What follows a count is run on what is left behind the count, if a count is there and is not
negative. -/
theorem Sensible.counted {next : Nat → Checked α} {s' : Reader}
    (same : s'.input.pending = s.input.pending)
    (tail : ∀ r', r'.pending = s.input.pending.drop 4 →
      Sensible ((announced e s).toNat ≤ r'.pending.length)
        (next (announced e s).toNat { s' with input := r' })) :
    Sensible (Arriving e s)
      ((readcountInto e >>= fun count => checkCountInto count >>= next) s') := by
  rw [readcountInto_eq]
  simp only [bind, StateT.bind, Except.bind]
  rcases readcount_result e s'.input with ⟨r', read, left, -, four⟩ | ⟨ended, short⟩
  · rw [same] at read left four
    rw [wrap_of_ok read]
    change Sensible _ ((checkCountInto (announced e s) >>= next) _)
    by_cases negative : (announced e s).toInt < 0
    · simp only [checkCountInto, if_pos negative]
      exact .inr (.inr ⟨_, rfl, count_text _⟩)
    · simp only [checkCountInto, if_neg negative]
      change Sensible _ (next (announced e s).toNat { s' with input := r' })
      rcases tail r' left with ok | ⟨ended, short⟩ | reported
      · exact .inl ok
      · refine .inr (.inl ⟨ended, fun arriving => short ?_⟩)
        have whole := arriving.2 (Int.not_lt.mp negative)
        rw [left, List.length_drop]
        omega
      · exact .inr (.inr reported)
  · rw [same] at short
    rw [wrap_of_error ended]
    exact .inr (.inl ⟨rfl, fun arriving => absurd arriving.1 (Nat.not_le.mpr short)⟩)

theorem readskip_sensible (frag : Nat → Nat) :
    Sensible (Arriving e s) (readskipInto e (s.cutBy frag)) := by
  refine Sensible.counted rfl fun r' _ => ?_
  rw [skipLoop_eq _ _ (Nat.le_refl _)]
  rcases readskipLoop_result e (announced e s).toNat r' with ⟨r'', read⟩ | ⟨ended, short⟩
  · exact .inl ⟨_, wrap_of_ok read⟩
  · exact .inr (.inl ⟨wrap_of_error ended, Nat.not_le.mpr short⟩)

theorem readfile_sensible_of_buffer {s' : Reader} (same : s'.input.pending = s.input.pending)
    (buffer : e.rotors.isSome → FILEXFER ≤ s'.cryptbuf) :
    Sensible (Arriving e s)
      ((readcountInto e >>= fun count => checkCountInto count >>= fun n => fileLoop e n n []) s') := by
  refine Sensible.counted same fun r' _ => ?_
  rw [fileLoop_eq _ _ _ (Nat.le_refl _) { s' with input := r' } buffer]
  rcases @readfileLoop_result e _ (announced e s).toNat [] r' (Nat.le_refl _) with
    ⟨content, r'', read⟩ | ⟨ended, short⟩
  · exact .inl ⟨_, wrap_of_ok read⟩
  · exact .inr (.inl ⟨wrap_of_error ended, Nat.not_le.mpr short⟩)

theorem readfile_sensible (frag : Nat → Nat) :
    Sensible (Arriving e s) (readfileInto e room (s.cutBy frag)) := by
  by_cases crypt : e.rotors.isSome
  · rw [readfileInto, if_pos crypt]
    simp only [bind, StateT.bind, Except.bind]
    rcases @getcryptbuf_cases e room (s.cutBy frag) crypt (BitVec.ofNat 32 FILEXFER) (by decide) with
      ⟨s', got, same, large, -⟩ | ⟨refused, -⟩
    · rw [got]
      refine readfile_sensible_of_buffer ?_ fun _ => Nat.le_of_lt large
      rw [same]
      rfl
    · rw [refused]
      exact .inr (.inr ⟨_, rfl, by decide⟩)
  · rw [readfileInto, if_neg crypt]
    exact readfile_sensible_of_buffer rfl fun yes => absurd yes crypt

/-! ## Strings -/

/-- What `readstring` does with a count that is not negative. -/
def stringBody (e : Endpoint) (room : Nat → Bool) (count : CInt) (n : Nat) :
    Checked (Option CString) :=
  if !malloc room (n + 1) then
    throw (.failure (.scmerr s!"Can't malloc {n} bytes for string"))
  else if e.rotors.isSome then do
    getcryptbuf e room (count + 1)
    let s ← get
    let p ← readdataInto s.cryptbuf n
    pure (some (CString.ofMemory (e.cipher p)))
  else do
    let p ← readdataInto (n + 1) n
    pure (some (CString.ofMemory (e.cipher p)))

theorem readBlock_result {size n : Nat} (fits : n ≤ size) (f : List Byte → α) :
    (n ≤ s.input.data.length + min FILEXFER s.input.net.bytes.length →
      ∃ a, (readdataInto size n >>= fun p => pure (f p)) s = .ok a) ∧
    (s.input.data.length + min FILEXFER s.input.net.bytes.length < n →
      (readdataInto size n >>= fun p => pure (f p)) s = .error (.failure prematureEOF)) := by
  rw [readdataInto_eq fits]
  simp only [bind, StateT.bind, Except.bind]
  constructor
  · intro long
    obtain ⟨r', read, -⟩ := readdata_succeeds long
    rw [wrap_of_ok read]
    exact ⟨_, rfl⟩
  · intro short
    rw [wrap_of_error (readdata_fails short)]

/-- A string that cannot be stored is reported; one that can is read if it is buffered or fits
one buffer. -/
theorem stringBody_cases (count : CInt) :
    (Granted e room s count.toNat ∧
      (count.toNat ≤ s.input.data.length + min FILEXFER s.input.net.bytes.length →
        ∃ a, stringBody e room count count.toNat s = .ok a) ∧
      (s.input.data.length + min FILEXFER s.input.net.bytes.length < count.toNat →
        stringBody e room count count.toNat s = .error (.failure prematureEOF))) ∨
    (¬Granted e room s count.toNat ∧
      ∃ text, stringBody e room count count.toNat s = .error (.failure (.scmerr text)) ∧
        Failure.scmerr text ≠ prematureEOF) := by
  rw [stringBody]
  by_cases granted : malloc room (count.toNat + 1) = true
  · rw [granted, Bool.not_true, if_neg Bool.false_ne_true]
    by_cases crypt : e.rotors.isSome
    · rw [if_pos crypt]
      have small : count.toNat + 1 < 2 ^ 31 := by
        rw [malloc, Bool.and_eq_true, decide_eq_true_eq] at granted
        exact granted.1
      have next : (count + 1).toNat = count.toNat + 1 := by
        rw [BitVec.toNat_add]
        exact Nat.mod_eq_of_lt (show count.toNat + 1 < 2 ^ 32 by omega)
      have positive : 0 < (count + 1).toInt := by
        rw [BitVec.toInt_eq_toNat_of_lt (by omega), next]
        omega
      simp only [bind, StateT.bind, Except.bind]
      rcases @getcryptbuf_cases e room s crypt (count + 1) positive with
        ⟨s', got, same, large, enough⟩ | ⟨refused, none⟩
      · rw [next] at large enough
        rw [got]
        refine .inl ⟨⟨granted, fun _ => enough⟩, ?_⟩
        rw [← same]
        exact readBlock_result (show count.toNat ≤ s'.cryptbuf by omega)
          fun p => some (CString.ofMemory (e.cipher p))
      · rw [next] at none
        rw [refused]
        exact .inr ⟨fun all => none (all.2 crypt), _, rfl, by decide⟩
    · rw [if_neg crypt]
      exact .inl ⟨⟨granted, fun yes => absurd yes crypt⟩, readBlock_result (Nat.le_succ _) _⟩
  · rw [Bool.eq_false_of_not_eq_true granted, Bool.not_false, if_pos rfl]
    exact .inr ⟨fun all => granted all.1, _, rfl, malloc_text _⟩

theorem readstringInto_counted {r' : Input} {count : CInt}
    (read : readcount e s.input = .ok (count, r')) :
    readstringInto e room s =
      if count = NULLCOUNT then .ok (none, { s with input := r' })
      else if count.toInt < 0 then
        .error (.failure (.scmerr s!"Invalid message count {count.toInt}"))
      else stringBody e room count count.toNat { s with input := r' } := by
  rw [readstringInto, readcountInto_eq]
  simp only [bind, StateT.bind, Except.bind, wrap_of_ok read]
  by_cases null : count = NULLCOUNT
  · rw [if_pos null, if_pos null]
    rfl
  · rw [if_neg null, if_neg null]
    by_cases negative : count.toInt < 0
    · simp only [checkCountInto, if_pos negative]
      rfl
    · simp only [checkCountInto, if_neg negative]
      rfl

theorem readstring_sensible (short : ShortString e room .readstring s) (frag : Nat → Nat) :
    Sensible (Arriving e s) (readstringInto e room (s.cutBy frag)) := by
  rcases readcount_result e (s.cutBy frag).input with ⟨r', read, left, buffered, four⟩ | ⟨ended, cut⟩
  · rw [readstringInto_counted read]
    change Sensible _ (if announced e s = NULLCOUNT then _ else _)
    by_cases null : announced e s = NULLCOUNT
    · rw [if_pos null]
      exact .inl ⟨_, rfl⟩
    · rw [if_neg null]
      change Sensible _ (if (announced e s).toInt < 0 then _ else _)
      by_cases negative : (announced e s).toInt < 0
      · rw [if_pos negative]
        exact .inr (.inr ⟨_, rfl, count_text _⟩)
      · rw [if_neg negative]
        have nonneg := Int.not_lt.mp negative
        change Sensible _ (stringBody e room (announced e s) (announced e s).toNat
          { s.cutBy frag with input := r' })
        rcases @stringBody_cases e room { s.cutBy frag with input := r' } (announced e s) with
          ⟨granted, whole, ended⟩ | ⟨-, text, reported, other⟩
        · have total : r'.pending.length = r'.data.length + r'.net.bytes.length :=
            List.length_append
          rw [left, List.length_drop] at total
          rcases Nat.lt_or_ge (r'.data.length + min FILEXFER r'.net.bytes.length)
            (announced e s).toNat with long | fits
          · refine .inr (.inl ⟨ended long, fun arriving => ?_⟩)
            have most := short rfl arriving nonneg granted
            have all := arriving.2 nonneg
            change 4 + (announced e s).toNat ≤ (s.cutBy frag).input.pending.length at all
            change s.input.data.length - 4 ≤ r'.data.length at buffered
            omega
          · exact .inl (whole fits)
        · exact .inr (.inr ⟨text, reported, other⟩)
  · have result : readstringInto e room (s.cutBy frag) = .error (.failure prematureEOF) := by
      rw [readstringInto, readcountInto_eq]
      simp only [bind, StateT.bind, Except.bind, wrap_of_error ended]
    exact .inr (.inl ⟨result, fun arriving => absurd arriving.1 (Nat.not_le.mpr cut)⟩)

/-- A network that cuts the input right behind the count. -/
def behindCount (s : Reader) : Nat → Nat := fun _ => 3 - s.input.data.length

theorem readdataLoop_once {n m : Nat} {net : Stream Byte} (missing : 0 < m)
    (piece : (net.read n).1.length = m) :
    readdataLoop m n m [] net = .ok ((net.read n).1, (net.read n).2) := by
  obtain ⟨turns, rfl⟩ := Nat.exists_eq_succ_of_ne_zero (Nat.ne_of_gt missing)
  rw [readdataLoop, if_neg (Nat.succ_ne_zero turns)]
  cases got : (net.read n).1 with
  | nil =>
      rw [got] at piece
      exact absurd piece (Nat.ne_of_lt missing)
  | cons b rest =>
      rw [got] at piece
      simp only [piece, Nat.sub_self, List.nil_append]
      cases turns with
      | zero => rfl
      | succ turns => exact if_pos rfl

theorem readdata_once {count : Nat} {r : Input} (missing : r.data.length < count)
    (piece : (r.net.read FILEXFER).1.length = count - r.data.length) :
    ∃ y r', readdata count r = .ok (y, r') ∧ r'.data = [] := by
  have ran := readdataLoop_once (Nat.sub_pos_of_lt missing) piece
  rw [readdata, if_neg (Nat.not_le.mpr missing)]
  simp only [ran]
  exact ⟨_, _, rfl, List.drop_eq_nil_of_le (Nat.le_of_eq piece)⟩

theorem readcount_behindCount (four : 4 ≤ s.input.pending.length) :
    ∃ r', readcount e (s.cutBy (behindCount s)).input = .ok (announced e s, r') ∧
      r'.data.length = s.input.data.length - 4 := by
  have total : s.input.pending.length = s.input.data.length + s.input.net.bytes.length :=
    List.length_append
  rcases readcount_result e (s.cutBy (behindCount s)).input with ⟨r', read, -⟩ | ⟨-, cut⟩
  · refine ⟨r', read, ?_⟩
    simp only [readcount, bind, StateT.bind, Except.bind] at read
    by_cases buffered : 4 ≤ s.input.data.length
    · have direct : readdata 4 (s.cutBy (behindCount s)).input =
          .ok (s.input.data.take 4, ⟨s.input.bufptr + 4, s.input.data.drop 4,
            ⟨s.input.net.bytes, behindCount s⟩⟩) := if_pos buffered
      rw [direct] at read
      obtain ⟨-, rfl⟩ := Prod.mk.inj (Except.ok.inj read)
      exact List.length_drop
    · have piece : ((s.cutBy (behindCount s)).input.net.read FILEXFER).1.length =
          4 - s.input.data.length := by
        have : 4 ≤ FILEXFER := by decide
        simp only [Reader.cutBy, Stream.read, List.length_take, behindCount]
        omega
      obtain ⟨y, r'', direct, empty⟩ :=
        @readdata_once 4 (s.cutBy (behindCount s)).input (Nat.lt_of_not_le buffered) piece
      rw [direct] at read
      obtain ⟨-, rfl⟩ := Prod.mk.inj (Except.ok.inj read)
      rw [empty, List.length_nil]
      omega
  · exact absurd four (Nat.not_le.mpr cut)

theorem readstring_falseEOF (arriving : Arriving e s) (nonneg : 0 ≤ (announced e s).toInt)
    (granted : Granted e room s (announced e s).toNat)
    (long : FILEXFER + (s.input.data.length - 4) < (announced e s).toNat) :
    readstringInto e room (s.cutBy (behindCount s)) = .error (.failure prematureEOF) := by
  obtain ⟨r', read, buffered⟩ := @readcount_behindCount e s arriving.1
  have counted : announced e s ≠ NULLCOUNT := by
    intro null
    rw [null] at nonneg
    exact absurd nonneg (by decide)
  rw [readstringInto_counted read, if_neg counted, if_neg (Int.not_lt.mpr nonneg)]
  rcases @stringBody_cases e room { s.cutBy (behindCount s) with input := r' } (announced e s) with
    ⟨-, -, ended⟩ | ⟨refused, -⟩
  · exact ended (show r'.data.length + min FILEXFER r'.net.bytes.length < _ by omega)
  · exact absurd granted refused

/-- The reading side: `readstring` is wrong about a string that does not fit one buffer beside
what is buffered of it, and nothing else goes wrong. -/
theorem readsWell_iff (e : Endpoint) (room : Nat → Bool) (routine : Routine) (s : Reader) :
    ReadsWell e room routine s ↔ ShortString e room routine s := by
  constructor
  · rintro ⟨-, -, noFalseEOF⟩ rfl arriving nonneg granted
    refine Nat.le_of_not_lt fun long => noFalseEOF arriving (behindCount s) ?_
    change (readstringInto e room >>= fun _ => pure ()) _ = _
    simp only [bind, StateT.bind, Except.bind]
    rw [readstring_falseEOF arriving nonneg granted long]
  · intro short
    refine .of_sensible fun frag => ?_
    cases routine with
    | readskip => exact readskip_sensible frag
    | readstring => exact (readstring_sensible short frag).map fun _ => ()
    | readfile => exact (readfile_sensible frag).map fun _ => ()

end Results

/-! ## The writing side -/

/-- No copy past the end of a buffer, and every string that `writestring` takes is there for the
peer. -/
structure WritesWell (w : Endpoint) (out : Output) (items : List Item) : Prop where
  inBounds : writeitems w items out ≠ .error .overrun
  readBack : ∀ front p back out' out'', items = front ++ .string (some p) :: back →
    writeitems w front out = .ok ((), out') → writestring w (some p) out' = .ok ((), out'') →
    ∃ bytes, out''.emitted = out'.emitted ++ bytes ∧
      ∀ r, Peers w r → Consumes Input.pending (readstring r) bytes (some p)

/-- An item that can be written without buffering: there is something to write. -/
def Writable : Item → Prop
  | .string (some p) => p.data ≠ []
  | _ => True

/-- Every string up to the first that is not taken fits a buffer. -/
def ShortStrings (out : Output) (items : List Item) : Prop :=
  ∀ front p back, items = front ++ .string (some p) :: back →
    (out.Closed → ∀ item ∈ front, Writable item) → p.data.length ≤ FILEXFER

section Writing

variable {w r : Endpoint} {out : Output}

theorem writedata_overruns (isOpen : out.Open) {data : List Byte} (long : FILEXFER < data.length) :
    writedata data out = .error .overrun := by
  obtain ⟨b, current⟩ := Option.ne_none_iff_exists'.mp isOpen
  simp only [writedata, current]
  rw [if_neg (by omega), if_pos long]

theorem writestring_overruns (isOpen : out.Open) {p : CString} (long : FILEXFER < p.data.length) :
    writestring w (some p) out = .error .overrun := by
  obtain ⟨out', wrote, stillOpen, -⟩ :=
    writedata_intBytes w (BitVec.ofNat 32 (w.cipher p.data).length) out isOpen
  rw [writestring, writeblock]
  simp only [bind, StateT.bind, Except.bind, wrote]
  exact writedata_overruns stillOpen (by rwa [length_cipher])

theorem writeitems_cons_of_ok {item : Item} {items : List Item} {out' : Output}
    (wrote : writeitem w item out = .ok ((), out')) :
    writeitems w (item :: items) out = writeitems w items out' := by
  simp only [writeitems, bind, StateT.bind, Except.bind, wrote]

theorem writeitems_cons_of_error {item : Item} {items : List Item} {f : Failure}
    (failed : writeitem w item out = .error f) :
    writeitems w (item :: items) out = .error f := by
  simp only [writeitems, bind, StateT.bind, Except.bind, failed]

theorem writeitem_overruns (isOpen : out.Open) {item : Item} (long : ¬item.Fits) :
    writeitem w item out = .error .overrun := by
  cases item with
  | int i => exact absurd trivial long
  | string p =>
      cases p with
      | none => exact absurd trivial long
      | some p => exact writestring_overruns isOpen (Nat.lt_of_not_le long)
  | file f => exact absurd trivial long

theorem fits_of_no_overrun (items : List Item) (isOpen : out.Open)
    (inBounds : writeitems w items out ≠ .error .overrun) : ∀ item ∈ items, item.Fits := by
  induction items generalizing out with
  | nil => exact fun item member => absurd member List.not_mem_nil
  | cons item items ih =>
      by_cases fits : item.Fits
      · obtain ⟨out', wrote, stillOpen, -⟩ := writeitem_produces w fits out isOpen
        rw [writeitems_cons_of_ok wrote] at inBounds
        intro other member
        rcases List.mem_cons.mp member with rfl | later
        · exact fits
        · exact ih stillOpen inBounds other later
      · exact absurd (writeitems_cons_of_error (writeitem_overruns isOpen fits)) inBounds

theorem fits_of_shortStrings {items : List Item} (isOpen : out.Open)
    (short : ShortStrings out items) : ∀ item ∈ items, item.Fits := by
  intro item member
  obtain ⟨front, back, split⟩ := List.append_of_mem member
  cases item with
  | int i => trivial
  | string p =>
      cases p with
      | none => trivial
      | some p => exact short front p back split fun closed => absurd closed isOpen
  | file f => trivial

theorem writesWell_iff_of_open (isOpen : out.Open) (items : List Item) :
    WritesWell w out items ↔ ShortStrings out items := by
  constructor
  · rintro ⟨inBounds, -⟩ front p back rfl -
    exact fits_of_no_overrun _ isOpen inBounds (.string (some p)) (by simp)
  · intro short
    have fits := fits_of_shortStrings isOpen short
    constructor
    · obtain ⟨out', wrote, -⟩ := writeitems_produces w fits out isOpen
      rw [wrote]
      exact nofun
    · rintro front p back out' out'' rfl before wrote
      have fitsFront : ∀ item ∈ front, item.Fits := fun item member =>
        fits item (List.mem_append_left _ member)
      have fitsString : p.data.length ≤ FILEXFER := fits (.string (some p)) (by simp)
      obtain ⟨middle, ran, stillOpen, -⟩ := writeitems_produces w fitsFront out isOpen
      obtain rfl := (Prod.mk.inj (Except.ok.inj (ran.symm.trans before))).2
      obtain ⟨final, ran', -, added⟩ := writestring_produces w fitsString middle stillOpen
      obtain rfl := (Prod.mk.inj (Except.ok.inj (ran'.symm.trans wrote))).2
      exact ⟨_, added, fun r peers => readstring_consumes peers p fitsString⟩

theorem writedata_closed {data : List Byte} (more : data ≠ []) :
    Produces Output.Closed Output.Closed Output.emitted (writedata data) data () := by
  intro out closed
  have current : out.bufptr = none := closed
  refine ⟨{ out with sent := out.sent ++ data }, ?_, closed, ?_⟩
  · simp only [writedata, current, netWrite, if_neg more]
  · simp only [Output.emitted, current]

theorem closed_takes : Output.Takes Output.Closed := fun _ more _ => writedata_closed more

theorem writestring_closed {p : CString} (more : p.data ≠ []) :
    Produces Output.Closed Output.Closed Output.emitted (writestring w (some p))
      (w.intBytes (BitVec.ofNat 32 p.data.length) ++ w.cipher p.data) () := by
  have sent : w.cipher p.data ≠ [] := by
    rw [← List.length_pos_iff_ne_nil, length_cipher]
    exact List.length_pos_of_ne_nil more
  rw [writestring, writeblock, length_cipher]
  exact (closed_takes.intBytes w _).bind (writedata_closed sent)

theorem writeitem_closed {item : Item} (writable : Writable item) :
    Produces Output.Closed Output.Closed Output.emitted (writeitem w item) (item.bytes w) () := by
  cases item with
  | int i => exact closed_takes.writeint w i
  | string p =>
      cases p with
      | none => exact closed_takes.intBytes w NULLCOUNT
      | some p => exact writestring_closed writable
  | file f => exact closed_takes.writefile w f

theorem writeitem_not_writable (closed : out.Closed) {item : Item} (empty : ¬Writable item) :
    writeitem w item out = .error (.scmerr "Write retries failed") := by
  cases item with
  | int i => exact absurd trivial empty
  | string p =>
      cases p with
      | none => exact absurd trivial empty
      | some p =>
          obtain ⟨out', wrote, still, -⟩ :=
            closed_takes.intBytes w (BitVec.ofNat 32 (w.cipher p.data).length) out closed
          have none : w.cipher p.data = [] := by
            rw [← List.length_eq_zero_iff, length_cipher, not_not.mp empty, List.length_nil]
          have current : out'.bufptr = .none := still
          rw [writeitem, writestring, writeblock]
          simp only [bind, StateT.bind, Except.bind, wrote]
          simp only [writedata, current, netWrite, if_pos none]
  | file f => exact absurd trivial empty

/-- Without buffering, either everything is written or the first empty string is reported. -/
theorem writeitems_closed (items : List Item) (closed : out.Closed) :
    ((∀ item ∈ items, Writable item) ∧
        ∃ out', writeitems w items out = .ok ((), out') ∧ out'.Closed) ∨
      (¬(∀ item ∈ items, Writable item) ∧
        writeitems w items out = .error (.scmerr "Write retries failed")) := by
  induction items generalizing out with
  | nil => exact .inl ⟨fun item member => absurd member List.not_mem_nil, out, rfl, closed⟩
  | cons item items ih =>
      simp only [List.forall_mem_cons]
      by_cases writable : Writable item
      · obtain ⟨out', wrote, still, -⟩ := @writeitem_closed w item writable out closed
        rw [writeitems_cons_of_ok wrote]
        rcases ih still with ⟨all, result⟩ | ⟨notAll, result⟩
        · exact .inl ⟨⟨writable, all⟩, result⟩
        · exact .inr ⟨fun both => notAll both.2, result⟩
      · exact .inr ⟨fun both => writable both.1,
          writeitems_cons_of_error (writeitem_not_writable closed writable)⟩

theorem exists_peer (w : Endpoint) : ∃ r, Peers w r := by
  cases swap : w.swapmode with
  | false => exact ⟨w, rfl, .inl ⟨swap, by simp [swap]⟩⟩
  | true =>
      cases order : w.order with
      | little => exact ⟨⟨.big, false, w.rotors⟩, rfl, .inr ⟨rfl, by simp [swap, order]⟩⟩
      | big => exact ⟨⟨.little, false, w.rotors⟩, rfl, .inr ⟨rfl, by simp [swap, order]⟩⟩

/-- A string that is returned was buffered behind its count, up to one buffer. -/
theorem readstring_length {s s' final : Input} {count : CInt} {p : CString}
    (counted : readcount r s = .ok (count, s')) (read : readstring r s = .ok (some p, final)) :
    p.data.length ≤ s'.data.length + FILEXFER := by
  obtain ⟨count', s'', counted', rest⟩ := bind_eq_ok read
  obtain ⟨rfl, rfl⟩ := Prod.mk.inj (Except.ok.inj (counted'.symm.trans counted))
  by_cases null : count' = NULLCOUNT
  · rw [if_pos null] at rest
    cases rest
  · rw [if_neg null] at rest
    obtain ⟨n, s₁, checked, body⟩ := bind_eq_ok rest
    have same : s₁ = s'' := by
      rw [checkCount] at checked
      split at checked
      · cases checked
      · exact (Prod.mk.inj (Except.ok.inj checked)).2.symm
    subst same
    obtain ⟨block, s₂, took, made⟩ := bind_eq_ok body
    obtain ⟨string, -⟩ := Prod.mk.inj (Except.ok.inj made)
    rcases Nat.lt_or_ge (s₁.data.length + min FILEXFER s₁.net.bytes.length) n with short | long
    · rw [readdata_fails short] at took
      cases took
    · obtain ⟨s₃, read', -⟩ := readdata_succeeds long
      obtain ⟨rfl, -⟩ := Prod.mk.inj (Except.ok.inj (took.symm.trans read'))
      rw [← Option.some.inj string]
      calc (CString.ofMemory (r.cipher (s₁.pending.take n))).data.length
          ≤ (r.cipher (s₁.pending.take n)).length := (List.takeWhile_prefix _).length_le
        _ = (s₁.pending.take n).length := length_cipher r _
        _ ≤ n := List.length_take_le n _
        _ ≤ s₁.data.length + FILEXFER := by omega

/-- A string that does not fit a buffer is not read back when its count comes on its own. -/
theorem long_not_consumed {p : CString} {bytes : List Byte} (long : FILEXFER < p.data.length)
    (four : 4 ≤ bytes.length) : ¬Consumes Input.pending (readstring r) bytes (some p) := by
  intro consumed
  have piece : ((⟨bytes, fun _ => 3⟩ : Stream Byte).read FILEXFER).1.length = 4 := by
    have : 4 ≤ FILEXFER := by decide
    simp only [Stream.read, List.length_take]
    omega
  obtain ⟨final, read, -⟩ := consumed ⟨0, [], ⟨bytes, fun _ => 3⟩⟩ [] (List.append_nil _).symm
  obtain ⟨y, s', took, empty⟩ := @readdata_once 4 ⟨0, [], ⟨bytes, fun _ => 3⟩⟩ (Nat.zero_lt_succ 3) piece
  have counted : readcount r ⟨0, [], ⟨bytes, fun _ => 3⟩⟩ = .ok (r.bytesInt y, s') := by
    simp only [readcount, bind, StateT.bind, Except.bind, took]
    rfl
  have most := readstring_length counted read
  rw [empty, List.length_nil, Nat.zero_add] at most
  exact Nat.not_le.mpr long most

theorem writesWell_iff_of_closed (closed : out.Closed) (items : List Item) :
    WritesWell w out items ↔ ShortStrings out items := by
  constructor
  · rintro ⟨-, readBack⟩ front p back split writable
    refine Nat.le_of_not_lt fun long => ?_
    have more : p.data ≠ [] := by
      intro empty
      rw [empty] at long
      exact absurd long (Nat.not_lt_zero _)
    rcases @writeitems_closed w out front closed with ⟨-, out', before, still⟩ | ⟨notAll, -⟩
    · obtain ⟨out'', wrote, -, added⟩ := @writestring_closed w p more out' still
      obtain ⟨bytes, added', consumed⟩ := readBack front p back out' out'' split before wrote
      obtain rfl := List.append_cancel_left (added.symm.trans added')
      obtain ⟨r, peers⟩ := exists_peer w
      refine long_not_consumed long ?_ (consumed r peers)
      rw [List.length_append, length_intBytes]
      exact Nat.le_add_right 4 _
    · exact notAll (writable closed)
  · intro short
    constructor
    · rcases @writeitems_closed w out items closed with ⟨-, out', wrote, -⟩ | ⟨-, failed⟩
      · rw [wrote]
        exact nofun
      · rw [failed]
        exact nofun
    · rintro front p back out' out'' rfl before wrote
      rcases @writeitems_closed w out front closed with ⟨writable, middle, ran, still⟩ | ⟨-, failed⟩
      · obtain rfl := (Prod.mk.inj (Except.ok.inj (ran.symm.trans before))).2
        have fits := short front p back rfl fun _ => writable
        have more : p.data ≠ [] := by
          intro empty
          have := @writeitem_not_writable w middle still (.string (some p)) (not_not.mpr empty)
          rw [writeitem, wrote] at this
          cases this
        obtain ⟨final, ran', -, added⟩ := @writestring_closed w p more middle still
        obtain rfl := (Prod.mk.inj (Except.ok.inj (ran'.symm.trans wrote))).2
        exact ⟨_, added, fun r peers => readstring_consumes peers p fits⟩
      · rw [failed] at before
        cases before

theorem writesWell_iff (w : Endpoint) (out : Output) (items : List Item) :
    WritesWell w out items ↔ ShortStrings out items := by
  by_cases closed : out.Closed
  · exact writesWell_iff_of_closed closed items
  · exact writesWell_iff_of_open closed items

end Writing

/-- On either side the buffers are kept in bounds, and nothing is lost, exactly as long as the
strings fit. -/
theorem buffers_bounded_iff (w : Endpoint) (out : Output) (items : List Item)
    (e : Endpoint) (room : Nat → Bool) (routine : Routine) (s : Reader) :
    (WritesWell w out items ↔ ShortStrings out items) ∧
      (ReadsWell e room routine s ↔ ShortString e room routine s) :=
  ⟨writesWell_iff w out items, readsWell_iff e room routine s⟩

/-- A string of one byte more than a buffer. -/
def longString : CString where
  data := List.replicate (FILEXFER + 1) 97
  noNul := fun member => absurd (List.eq_of_mem_replicate member) (by decide)

/-- In a message such a string runs past the end of the buffer. -/
theorem longString_overruns :
    ∃ out, writemsg ⟨.little, false, none⟩ 1 Output.start = .ok ((), out) ∧
      ¬WritesWell ⟨.little, false, none⟩ out [.string (some longString)] := by
  obtain ⟨out, wrote, isOpen, -⟩ := writemsg_produces ⟨.little, false, none⟩ 1 Output.start rfl
  refine ⟨out, wrote, fun well => well.inBounds (writeitems_cons_of_error ?_)⟩
  refine writestring_overruns isOpen ?_
  rw [longString, List.length_replicate]
  exact Nat.lt_succ_self FILEXFER

end MachFormal.Sup.Buffers
