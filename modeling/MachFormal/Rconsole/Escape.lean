import MachFormal.Rconsole.Daemon
import Mathlib.Data.List.GetD

/-!
# What the client makes of the keyboard

`read_tty` reads a block of characters, clears their parity bits, looks for the escape character
and writes what lies between the commands.  An escape that ends a block is remembered in
`esc_flag`.  Of the commands only those that leave the client matter here.
-/

namespace MachFormal.Rconsole.Escape

/-- The ordinary characters that are written to the daemon, the commands that are performed,
`esc_flag` at the end, and whether the client has left. -/
structure Output where
  sent : List UInt8
  commands : List UInt8
  escFlag : Bool
  ended : Bool
  deriving DecidableEq, Repr

/-- The characters `q` and `e`. -/
def quits (c : UInt8) : Bool := c = 0x71 || c = 0x65

/-- The block that has been read, with `cp` and `sp` in it. -/
structure Tty where
  cbuf : List UInt8
  cp : Nat
  sp : Nat
  escFlag : Bool
  sent : List UInt8
  commands : List UInt8

/-- `flush` writes from `sp` to `cp`, less a pending escape. -/
def Tty.flush (st : Tty) : List UInt8 :=
  let stop := st.cp - if st.escFlag then 1 else 0
  if st.sp < stop then st.sent ++ (st.cbuf.take stop).drop st.sp else st.sent

def parity (c : UInt8) : UInt8 := c &&& 0x7f

/-- The loop over the block.  `++esc_flag > 1` only asks whether an escape is pending. -/
def ttyLoop (esc : UInt8) (st : Tty) : Output :=
  if st.cp < st.cbuf.length then
    let c := parity (st.cbuf.getD st.cp 0)
    let cbuf := st.cbuf.set st.cp c
    if c = esc then
      ttyLoop esc { st with cbuf := cbuf, cp := st.cp + 1, escFlag := !st.escFlag }
    else if st.escFlag then
      let sent := { st with cbuf := cbuf }.flush
      if quits c then ⟨sent, st.commands ++ [c], false, true⟩
      else ttyLoop esc ⟨cbuf, st.cp + 1, st.cp + 1, false, sent, st.commands ++ [c]⟩
    else ttyLoop esc { st with cbuf := cbuf, cp := st.cp + 1 }
  else ⟨st.flush, st.commands, st.escFlag, false⟩
termination_by st.cbuf.length - st.cp
decreasing_by all_goals simp only [List.length_set]; omega

def readTty (esc : UInt8) (escFlag : Bool) (block : List UInt8) : Output :=
  ttyLoop esc ⟨block, 0, 0, escFlag, [], []⟩

def Output.followedBy (first later : Output) : Output :=
  if first.ended then first
  else ⟨first.sent ++ later.sent, first.commands ++ later.commands, later.escFlag, later.ended⟩

/-- One block after the other. -/
def session (esc : UInt8) : Bool → List (List UInt8) → Output
  | escFlag, [] => ⟨[], [], escFlag, false⟩
  | escFlag, block :: blocks =>
      let out := readTty esc escFlag block
      out.followedBy (session esc out.escFlag blocks)

/-! ## What should be made of it -/

def Output.sends (c : UInt8) (out : Output) : Output := { out with sent := c :: out.sent }

def Output.performs (c : UInt8) (out : Output) : Output :=
  { out with commands := c :: out.commands }

/-- Two escapes stand for one, an escape before another character makes a command of it. -/
def unescaped (esc : UInt8) : Bool → List UInt8 → Output
  | pending, [] => ⟨[], [], pending, false⟩
  | false, b :: stream =>
      if parity b = esc then unescaped esc true stream
      else (unescaped esc false stream).sends (parity b)
  | true, b :: stream =>
      if parity b = esc then (unescaped esc false stream).sends esc
      else if quits (parity b) then ⟨[], [parity b], false, true⟩
      else (unescaped esc false stream).performs (parity b)

/-- The pairs of escapes that lie within a block; `none` if no escape is pending, else whether
the pending one is in the block. -/
def doubles (esc : UInt8) : Option Bool → List UInt8 → Nat
  | _, [] => 0
  | none, b :: block =>
      if parity b = esc then doubles esc (some true) block else doubles esc none block
  | some inside, b :: block =>
      if parity b = esc then (if inside then 1 else 0) + doubles esc none block
      else if quits (parity b) then 0
      else doubles esc none block

/-- The escape that is pending before a block is not in it. -/
def earlier (pending : Bool) : Option Bool := if pending then some false else none

/-- No pair of escapes is within a block that the client reads before it leaves. -/
def Apart (esc : UInt8) : Bool → List (List UInt8) → Prop
  | _, [] => True
  | pending, block :: blocks =>
      doubles esc (earlier pending) block = 0 ∧
        ((unescaped esc pending block).ended = true ∨
          Apart esc (unescaped esc pending block).escFlag blocks)

/-! ## One block -/

section Block

variable {esc b : UInt8} {st : Tty} {done seg rest block : List UInt8} {pending : Bool}

/-- What the loop makes of the rest of a block, with what lies between `sp` and `cp`. -/
def typed (esc : UInt8) : Bool → List UInt8 → List UInt8 → Output
  | pending, seg, [] => ⟨if pending then seg.dropLast else seg, [], pending, false⟩
  | pending, seg, b :: block =>
      if parity b = esc then typed esc (!pending) (seg ++ [parity b]) block
      else if pending then
        if quits (parity b) then ⟨seg.dropLast, [parity b], false, true⟩
        else (⟨seg.dropLast, [parity b], false, false⟩ : Output).followedBy
          (typed esc false [] block)
      else typed esc false (seg ++ [parity b]) block

/-- The buffer: what has been dealt with, what lies between `sp` and `cp`, and the rest. -/
structure At (st : Tty) (done seg rest : List UInt8) : Prop where
  cbuf : st.cbuf = done ++ seg ++ rest
  sp : st.sp = done.length
  cp : st.cp = done.length + seg.length

theorem At.flush (h : At st done seg rest) :
    st.flush = st.sent ++ if st.escFlag then seg.dropLast else seg := by
  have cut : ∀ n ≤ seg.length, (st.cbuf.take (done.length + n)).drop done.length = seg.take n := by
    intro n le
    rw [h.cbuf, List.append_assoc, List.take_length_add_append, List.drop_left,
      List.take_append_of_le_length le]
  rw [Tty.flush, h.sp, h.cp]
  cases st.escFlag with
  | false =>
      simp only [Bool.false_eq_true, if_false, Nat.sub_zero]
      rw [cut _ (Nat.le_refl _), List.take_length]
      split
      · rfl
      · rename_i short
        rw [List.length_eq_zero_iff.mp (show seg.length = 0 by omega), List.append_nil]
  | true =>
      simp only [if_true]
      rw [List.dropLast_eq_take]
      split
      · rw [show done.length + seg.length - 1 = done.length + (seg.length - 1) by omega,
          cut _ (Nat.sub_le _ _)]
      · rw [show seg.length - 1 = 0 by omega, List.take_zero, List.append_nil]

theorem At.get (h : At st done seg (b :: rest)) : st.cbuf.getD st.cp 0 = b := by
  rw [h.cbuf, h.cp, ← List.length_append, List.getD_append_right _ _ _ _ (Nat.le_refl _),
    Nat.sub_self]
  rfl

theorem At.within (h : At st done seg (b :: rest)) : st.cp < st.cbuf.length := by
  rw [h.cbuf, h.cp, List.length_append, List.length_append, List.length_cons]
  omega

theorem At.set (h : At st done seg (b :: rest)) (c : UInt8) :
    st.cbuf.set st.cp c = done ++ (seg ++ [c]) ++ rest := by
  rw [h.cbuf, h.cp, ← List.length_append, List.set_append_right _ _ (Nat.le_refl _), Nat.sub_self]
  simp

theorem ttyLoop_spec (h : At st done seg rest) :
    ttyLoop esc st = ⟨st.sent ++ (typed esc st.escFlag seg rest).sent,
      st.commands ++ (typed esc st.escFlag seg rest).commands,
      (typed esc st.escFlag seg rest).escFlag, (typed esc st.escFlag seg rest).ended⟩ := by
  induction rest generalizing st done seg with
  | nil =>
      have past : ¬st.cp < st.cbuf.length := by
        rw [h.cbuf, h.cp, List.append_nil, List.length_append]
        omega
      rw [ttyLoop, if_neg past, h.flush, typed, List.append_nil]
  | cons b rest ih =>
      obtain ⟨cbuf, cp, sp, escFlag, sent, commands⟩ := st
      have longer : ∀ flag, At ⟨cbuf.set cp (parity b), cp + 1, sp, flag, sent, commands⟩ done
          (seg ++ [parity b]) rest := by
        refine fun flag => ⟨h.set _, h.sp, ?_⟩
        rw [List.length_append, List.length_singleton, ← Nat.add_assoc, ← h.cp]
      rw [ttyLoop, if_pos h.within, h.get, typed]
      by_cases escape : parity b = esc
      · rw [if_pos escape, if_pos escape]
        exact ih (longer _)
      · rw [if_neg escape, if_neg escape]
        cases escFlag with
        | false =>
            rw [if_neg Bool.false_ne_true, if_neg Bool.false_ne_true]
            exact ih (longer _)
        | true =>
            have here : At ⟨cbuf.set cp (parity b), cp, sp, true, sent, commands⟩ done seg
                (parity b :: rest) := ⟨(h.set _).trans (by simp), h.sp, h.cp⟩
            have behind : ∀ sent commands, At ⟨cbuf.set cp (parity b), cp + 1, cp + 1, false, sent,
                commands⟩ (done ++ (seg ++ [parity b])) [] rest := by
              intro sent commands
              have length : (done ++ (seg ++ [parity b])).length = cp + 1 := by
                rw [List.length_append, ← (longer true).cp]
              exact ⟨(h.set _).trans (by simp), length.symm, length.symm⟩
            have flushed := here.flush
            rw [if_pos rfl] at flushed
            rw [if_pos rfl, if_pos rfl]
            dsimp only
            rw [flushed]
            split
            · rfl
            · rw [ih (behind _ _), Output.followedBy]
              simp

theorem readTty_eq (esc : UInt8) (pending : Bool) (block : List UInt8) :
    readTty esc pending block = typed esc pending [] block :=
  have whole : At ⟨block, 0, 0, pending, [], []⟩ [] [] block := ⟨rfl, rfl, rfl⟩
  ttyLoop_spec whole

/-- What is made of the rest of a block, as against what should be made of it: `n` pairs of
escapes have not been made one escape. -/
structure Meets (out should : Output) (before : List UInt8) (n : Nat) : Prop where
  length : out.sent.length = before.length + should.sent.length + n
  same : n = 0 → out.sent = before ++ should.sent
  commands : out.commands = should.commands
  escFlag : out.escFlag = should.escFlag
  ended : out.ended = should.ended

/-- A pending escape of the block is behind what will be written. -/
def held (esc : UInt8) : Option Bool → List UInt8 → List UInt8
  | some true, before => before ++ [esc]
  | _, before => before

theorem typed_meets (at_start : Option Bool) (before : List UInt8)
    (fresh : at_start = some false → before = []) :
    Meets (typed esc at_start.isSome (held esc at_start before) block)
      (unescaped esc at_start.isSome block) before (doubles esc at_start block) := by
  induction block generalizing at_start before with
  | nil =>
      rcases at_start with - | - | -
      · exact ⟨by simp [typed, unescaped, doubles, held], fun _ => by simp [typed, unescaped, held],
          rfl, rfl, rfl⟩
      · cases fresh rfl
        exact ⟨rfl, fun _ => rfl, rfl, rfl, rfl⟩
      · exact ⟨by simp [typed, unescaped, doubles, held], fun _ => by simp [typed, unescaped, held],
          rfl, rfl, rfl⟩
  | cons b block ih =>
      by_cases escape : parity b = esc
      · rcases at_start with - | - | -
        · have later := ih (some true) before (by rintro ⟨⟩)
          rw [Option.isSome_none, typed, unescaped, doubles, if_pos escape, if_pos escape,
            if_pos escape, escape]
          exact later
        · cases fresh rfl
          have later := ih none [esc] (by rintro ⟨⟩)
          rw [Option.isSome_some, typed, unescaped, doubles, if_pos escape, if_pos escape,
            if_pos escape, escape]
          refine ⟨?_, fun none => ?_, later.commands, later.escFlag, later.ended⟩
          · have := later.length
            simp only [Output.sends, List.length_cons, List.length_nil] at this ⊢
            simpa [held, Nat.add_comm, Nat.add_left_comm, Nat.add_assoc] using this
          · exact later.same (by simpa using none)
        · have later := ih none (before ++ [esc, esc]) (by rintro ⟨⟩)
          have longer : held esc (some true) before ++ [esc] = before ++ [esc, esc] := by
            simp [held]
          rw [Option.isSome_some, typed, unescaped, doubles, if_pos escape, if_pos escape,
            if_pos escape, escape, longer]
          refine ⟨?_, fun none => ?_, later.commands, later.escFlag, later.ended⟩
          · have := later.length
            simp only [Output.sends, List.length_cons, List.length_append, List.length_nil,
              if_true] at this ⊢
            have equal : (typed esc (!true) (before ++ [esc, esc]) block).sent.length =
              before.length + (0 + 1 + 1) + (unescaped esc false block).sent.length +
                doubles esc Option.none block := this
            omega
          · rw [if_pos rfl] at none
            omega
      · have command : ∀ out should : Output, Meets out should [] (doubles esc none block) →
            Meets
              (if quits (parity b) then ⟨before, [parity b], false, true⟩
                else (⟨before, [parity b], false, false⟩ : Output).followedBy out)
              (if quits (parity b) then ⟨[], [parity b], false, true⟩
                else should.performs (parity b))
              before (if quits (parity b) then 0 else doubles esc none block) := by
          intro out should h
          split
          · exact ⟨rfl, fun _ => (List.append_nil _).symm, rfl, rfl, rfl⟩
          · refine ⟨?_, fun none => ?_, congrArg (parity b :: ·) h.commands, h.escFlag, h.ended⟩
            · have length := h.length
              change (before ++ out.sent).length = before.length + should.sent.length + _
              rw [List.length_append, length, List.length_nil]
              omega
            · change before ++ out.sent = before ++ should.sent
              rw [h.same none]
              rfl
        have later := ih none [] (by rintro ⟨⟩)
        rcases at_start with - | - | -
        · have next := ih none (before ++ [parity b]) (by rintro ⟨⟩)
          rw [Option.isSome_none, typed, unescaped, doubles, if_neg escape, if_neg escape,
            if_neg escape, if_neg Bool.false_ne_true]
          refine ⟨?_, fun none => ?_, next.commands, next.escFlag, next.ended⟩
          · have length := next.length
            rw [List.length_append, List.length_singleton] at length
            change _ = before.length + ((unescaped esc false block).sent.length + 1) + _
            exact length.trans (by rw [Option.isSome_none]; omega)
          · exact (next.same none).trans (by rw [List.append_assoc]; rfl)
        · cases fresh rfl
          rw [Option.isSome_some, typed, unescaped, doubles, if_neg escape, if_neg escape,
            if_neg escape, if_pos rfl]
          exact command _ _ later
        · rw [Option.isSome_some, typed, unescaped, doubles, if_neg escape, if_neg escape,
            if_neg escape, if_pos rfl, held, List.dropLast_concat]
          exact command _ _ later

theorem readTty_meets (esc : UInt8) (pending : Bool) (block : List UInt8) :
    Meets (readTty esc pending block) (unescaped esc pending block) []
      (doubles esc (earlier pending) block) := by
  rw [readTty_eq]
  cases pending with
  | false => exact typed_meets none [] (by rintro ⟨⟩)
  | true => exact typed_meets (some false) [] fun _ => rfl

end Block

/-! ## The session -/

section Sessions

variable {esc : UInt8} {pending : Bool}

theorem unescaped_append (esc : UInt8) (pending : Bool) (block stream : List UInt8) :
    unescaped esc pending (block ++ stream) = (unescaped esc pending block).followedBy
      (unescaped esc (unescaped esc pending block).escFlag stream) := by
  have sends : ∀ (first later : Output) c,
      (first.followedBy later).sends c = (first.sends c).followedBy later := by
    intro first later c
    rw [Output.followedBy, Output.followedBy, Output.sends, Output.sends]
    cases finished : first.ended <;> simp [finished]
  have performs : ∀ (first later : Output) c,
      (first.followedBy later).performs c = (first.performs c).followedBy later := by
    intro first later c
    rw [Output.followedBy, Output.followedBy, Output.performs, Output.performs]
    cases finished : first.ended <;> simp [finished]
  induction block generalizing pending with
  | nil => rfl
  | cons b block ih =>
      rw [List.cons_append]
      cases pending with
      | false =>
          rw [unescaped, unescaped]
          split
          · exact ih true
          · rw [ih false, sends]
            rfl
      | true =>
          rw [unescaped, unescaped]
          split
          · rw [ih false, sends]
            rfl
          · split
            · rfl
            · rw [ih false, performs]
              rfl

theorem session_meets (esc : UInt8) (pending : Bool) (blocks : List (List UInt8)) :
    ∃ n, Meets (session esc pending blocks) (unescaped esc pending blocks.flatten) [] n ∧
      (n = 0 ↔ Apart esc pending blocks) := by
  induction blocks generalizing pending with
  | nil => exact ⟨0, ⟨rfl, fun _ => rfl, rfl, rfl, rfl⟩, ⟨fun _ => trivial, fun _ => rfl⟩⟩
  | cons block blocks ih =>
      have first := readTty_meets esc pending block
      obtain ⟨n, later, apart⟩ := ih (unescaped esc pending block).escFlag
      rw [List.flatten_cons, unescaped_append, session, first.escFlag, Output.followedBy,
        Output.followedBy, first.ended, Apart]
      cases ended : (unescaped esc pending block).ended with
      | true =>
          refine ⟨_, ⟨first.length, first.same, first.commands, first.escFlag, ?_⟩, ?_⟩
          · exact first.ended
          · exact ⟨fun none => ⟨none, Or.inl rfl⟩, fun h => h.1⟩
      | false =>
          refine ⟨doubles esc (earlier pending) block + n, ⟨?_, ?_, ?_, later.escFlag,
            later.ended⟩, ?_⟩
          · have length := first.length
            have length' := later.length
            simp only [Bool.false_eq_true, if_false, List.length_append, List.length_nil] at *
            omega
          · intro none
            have same := first.same (by omega)
            have same' := later.same (by omega)
            simp only [Bool.false_eq_true, if_false, same, same', List.nil_append]
          · simp only [Bool.false_eq_true, if_false, first.commands, later.commands]
          · rw [Nat.add_eq_zero_iff, apart]
            exact ⟨fun h => ⟨h.1, Or.inr h.2⟩, fun h => ⟨h.1, h.2.resolve_left Bool.false_ne_true⟩⟩

/-- What is sent and performed is what the stream says, if and only if no two escapes in a row
are in one block. -/
theorem escapes_iff (esc : UInt8) (blocks : List (List UInt8)) :
    ((session esc false blocks).sent = (unescaped esc false blocks.flatten).sent ∧
      (session esc false blocks).commands = (unescaped esc false blocks.flatten).commands) ↔
      Apart esc false blocks := by
  obtain ⟨n, meets, apart⟩ := session_meets esc false blocks
  rw [← apart]
  constructor
  · rintro ⟨sent, -⟩
    have length := meets.length
    rw [sent, List.length_nil] at length
    omega
  · exact fun none => ⟨meets.same none, meets.commands⟩

/-- Two escapes that are typed at once. -/
theorem escapes_doubled :
    (session 0x1f false [[0x1f, 0x1f]]).sent ≠
      (unescaped 0x1f false [[0x1f, 0x1f]].flatten).sent := by
  rw [session, readTty_eq]
  decide

end Sessions

end MachFormal.Rconsole.Escape
