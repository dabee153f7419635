import MachFormal.Rconsole.Daemon
import Mathlib.Data.List.GetD
import Mathlib.Data.Nat.Init

/-!
# What the daemon relays to the console

The branch of `loop` for the connected client.  The pieces between the out-of-band sequences are
written from where they were read, while their bytes are moved to the front of `logline`, over
the sequences.  The request to terminate ends the daemon, and nothing behind it is looked at.
-/

namespace MachFormal.Rconsole.Relay

/-- What the writes to the console line add up to, the calls of `oob_char`, and whether the
daemon has ended. -/
structure Output where
  tty : List UInt8
  oob : List UInt8
  ended : Bool
  deriving DecidableEq, Repr

/-- The buffer, the three pointers into it, and what has been done. -/
structure Line where
  logline : List UInt8
  cp : Nat
  np : Nat
  lp : Nat
  tty : List UInt8
  oob : List UInt8

/-- `write` of what lies between `lp` and `cp`. -/
def Line.write (st : Line) : List UInt8 := st.tty ++ (st.logline.take st.cp).drop st.lp

/-- The loop over the bytes that have been read. -/
def relayLoop (cpe : Nat) (st : Line) : Output :=
  if st.cp < cpe then
    let c := st.logline.getD st.cp 0
    if c = oobChar then
      let d := st.logline.getD (st.cp + 1) 0
      if d = oobTerm then ⟨st.write, st.oob ++ [d], true⟩
      else relayLoop cpe { st with
        cp := st.cp + 2
        lp := st.cp + 2
        tty := st.write
        oob := st.oob ++ [d] }
    else relayLoop cpe { st with
      logline := st.logline.set st.np c
      np := st.np + 1
      cp := st.cp + 1 }
  else ⟨st.write, st.oob, false⟩
termination_by cpe - st.cp

/-- One `read` from the client.  Behind the bytes that it returns lies a byte that `logline` held
before. -/
def relay (read : List UInt8) (stale : UInt8) : Output :=
  relayLoop read.length ⟨read ++ [stale], 0, 0, 0, [], []⟩

def Output.followedBy (first : Output) (later : Output) : Output :=
  if first.ended then first
  else ⟨first.tty ++ later.tty, first.oob ++ later.oob, later.ended⟩

/-- One `read` after the other. -/
def serve : List (List UInt8 × UInt8) → Output
  | [] => ⟨[], [], false⟩
  | (read, stale) :: reads => (relay read stale).followedBy (serve reads)

/-! ## A faithful relay -/

def Output.sends (b : UInt8) (out : Output) : Output := { out with tty := b :: out.tty }

def Output.calls (c : UInt8) (out : Output) : Output := { out with oob := c :: out.oob }

/-- What is made of a stream: its out-of-band sequences are called, the rest is sent. -/
def faithful : List UInt8 → Output
  | [] => ⟨[], [], false⟩
  | [b] => ⟨[b], [], false⟩
  | b :: c :: stream =>
      if b = oobChar then
        if c = oobTerm then ⟨[], [c], true⟩ else (faithful stream).calls c
      else (faithful (c :: stream)).sends b

/-- No sequence is cut by the end of the bytes. -/
def Whole : List UInt8 → Prop
  | [] => True
  | [b] => b ≠ oobChar
  | b :: c :: read => if b = oobChar then c = oobTerm ∨ Whole read else Whole (c :: read)

/-- The pieces that the sequences separate. -/
def pieces : List UInt8 → List (List UInt8)
  | [] => [[]]
  | [b] => [[b]]
  | b :: c :: read =>
      if b = oobChar then if c = oobTerm then [[]] else [] :: pieces read
      else (pieces (c :: read)).modifyHead (b :: ·)

/-- Moved by two places for each sequence before it, no piece is changed. -/
def Undisturbed (read : List UInt8) : Prop :=
  ∀ k s, (pieces read)[k]? = some s → s.drop (2 * k) <+: s

/-- Of every `read` until the daemon ends. -/
def Intact : List (List UInt8) → Prop
  | [] => True
  | read :: reads => Whole read ∧ Undisturbed read ∧ ((faithful read).ended = true ∨ Intact reads)

/-! ## The buffer -/

section Buffer

variable {j k n : Nat} {b stale : UInt8} {seg front rest : List UInt8}

/-- A piece after its bytes have been moved `j` places to the front. -/
def shifted (j : Nat) (seg : List UInt8) : List UInt8 := seg.drop j ++ seg.drop (seg.length - j)

theorem length_shifted (j : Nat) (seg : List UInt8) : (shifted j seg).length = seg.length := by
  rw [shifted, List.length_append, List.length_drop, List.length_drop]
  omega

theorem shifted_nil (j : Nat) : shifted j [] = [] := by
  rw [shifted, List.drop_nil, List.drop_nil, List.append_nil]

theorem shifted_short (short : seg.length ≤ j) : shifted j seg = seg := by
  rw [shifted, List.drop_of_length_le short, Nat.sub_eq_zero_of_le short, List.drop_zero,
    List.nil_append]

theorem shifted_eq_iff : shifted j seg = seg ↔ seg.drop j <+: seg := by
  refine ⟨fun same => ⟨_, same⟩, ?_⟩
  rintro ⟨t, same⟩
  have tail : t = seg.drop (seg.length - j) := by
    have cut := congrArg (List.drop (seg.length - j)) same
    rwa [List.drop_left' (List.length_drop ..)] at cut
  rw [shifted, ← tail, same]

/-- One more byte is moved and then stored. -/
theorem shifted_concat (long : j ≤ seg.length) :
    shifted j (seg ++ [b]) = (shifted j seg ++ [b]).set (seg.length - j) b := by
  have first : (seg.drop j).length = seg.length - j := List.length_drop ..
  rw [shifted, shifted, List.drop_append_of_le_length long, List.append_assoc, List.append_assoc,
    List.set_append_right _ _ (Nat.le_of_eq first), first, Nat.sub_self]
  refine congrArg (seg.drop j ++ ·) ?_
  cases j with
  | zero =>
      rw [Nat.sub_zero, Nat.sub_zero, List.drop_of_length_le (Nat.le_refl _),
        List.drop_of_length_le (Nat.le_refl _)]
      rfl
  | succ j =>
      have less : seg.length - (j + 1) < seg.length := by omega
      rw [List.length_append, List.length_singleton,
        show seg.length + 1 - (j + 1) = seg.length - (j + 1) + 1 by omega,
        List.drop_append_of_le_length (by omega), List.drop_eq_getElem_cons less]
      rfl

end Buffer

def Output.after (out : Output) (tty : List UInt8) (c : UInt8) : Output :=
  ⟨tty ++ out.tty, c :: out.oob, out.ended⟩

/-- What one `read` makes the daemon do, with the number of sequences so far and what has been
read of the piece behind them. -/
def relayed (stale : UInt8) : Nat → List UInt8 → List UInt8 → Output
  | k, seg, [] => ⟨shifted (2 * k) seg, [], false⟩
  | k, seg, [b] =>
      if b = oobChar then ⟨shifted (2 * k) seg, [stale], stale = oobTerm⟩
      else ⟨shifted (2 * k) (seg ++ [b]), [], false⟩
  | k, seg, b :: c :: read =>
      if b = oobChar then
        if c = oobTerm then ⟨shifted (2 * k) seg, [c], true⟩
        else (relayed stale (k + 1) [] read).after (shifted (2 * k) seg) c
      else relayed stale k (seg ++ [b]) (c :: read)

section Loop

variable {k : Nat} {b c stale : UInt8} {seg front read : List UInt8} {st : Line}

/-- The buffer: before the piece anything, then the piece as its moved bytes have left it, then
what has not been looked at. -/
structure At (st : Line) (front : List UInt8) (k : Nat) (seg later : List UInt8) : Prop where
  logline : st.logline = front ++ shifted (2 * k) seg ++ later
  lp : st.lp = front.length
  cp : st.cp = front.length + seg.length
  np : st.np + 2 * k = st.cp

theorem At.length (h : At st front k seg read) :
    (front ++ shifted (2 * k) seg).length = st.cp := by
  rw [List.length_append, length_shifted, h.cp]

theorem At.get (h : At st front k seg (b :: read)) : st.logline.getD st.cp 0 = b := by
  rw [h.logline, ← h.length, List.getD_append_right _ _ _ _ (Nat.le_refl _), Nat.sub_self]
  rfl

theorem At.next (h : At st front k seg (b :: c :: read)) :
    st.logline.getD (st.cp + 1) 0 = c := by
  rw [h.logline, ← h.length, List.getD_append_right _ _ _ _ (Nat.le_add_right _ _),
    Nat.add_sub_cancel_left]
  rfl

theorem At.write (h : At st front k seg read) : st.write = st.tty ++ shifted (2 * k) seg := by
  rw [Line.write, h.logline, List.take_left' h.length, h.lp, List.drop_left]

/-- An ordinary byte. -/
theorem At.ordinary (h : At st front k seg (b :: read)) :
    ∃ front', At { st with logline := st.logline.set st.np b, np := st.np + 1, cp := st.cp + 1 }
      front' k (seg ++ [b]) read ∧ front'.length = front.length := by
  have np := h.np
  have cp := h.cp
  have whole : front ++ shifted (2 * k) seg ++ b :: read =
      front ++ ((shifted (2 * k) seg ++ [b]) ++ read) := by simp
  have moved : (shifted (2 * k) seg ++ [b]).length = seg.length + 1 := by
    rw [List.length_append, length_shifted]
    rfl
  by_cases long : 2 * k ≤ seg.length
  · refine ⟨front, ⟨?_, h.lp, ?_, ?_⟩, rfl⟩
    · change st.logline.set st.np b = _
      rw [h.logline, whole, List.set_append_right _ _ (by omega),
        List.set_append_left _ _ (by omega), shifted_concat long, List.append_assoc]
      refine congrArg (front ++ ·) (congrArg (· ++ read) ?_)
      exact congrArg (List.set _ · b) (by omega)
    · rw [List.length_append, List.length_singleton]
      exact (congrArg (· + 1) cp).trans (Nat.add_assoc _ _ _)
    · change st.np + 1 + 2 * k = st.cp + 1
      omega
  · refine ⟨front.set st.np b, ⟨?_, ?_, ?_, ?_⟩, List.length_set⟩
    · change st.logline.set st.np b = _
      rw [h.logline, whole, List.set_append_left _ _ (by omega),
        shifted_short (show (seg ++ [b]).length ≤ 2 * k by
          rw [List.length_append, List.length_singleton]; omega),
        shifted_short (show seg.length ≤ 2 * k by omega), List.append_assoc (front.set st.np b)]
    · rw [List.length_set]
      exact h.lp
    · rw [List.length_set, List.length_append, List.length_singleton]
      exact (congrArg (· + 1) cp).trans (Nat.add_assoc _ _ _)
    · change st.np + 1 + 2 * k = st.cp + 1
      omega

theorem relayLoop_end {cpe : Nat} (past : cpe ≤ st.cp) :
    relayLoop cpe st = ⟨st.write, st.oob, false⟩ := by
  rw [relayLoop, if_neg (Nat.not_lt.mpr past)]

theorem relayLoop_ordinary {cpe : Nat} (within : st.cp < cpe)
    (here : st.logline.getD st.cp 0 = b) (other : b ≠ oobChar) :
    relayLoop cpe st = relayLoop cpe
      { st with logline := st.logline.set st.np b, np := st.np + 1, cp := st.cp + 1 } := by
  subst here
  rw [relayLoop, if_pos within, if_neg other]

theorem relayLoop_oob {cpe : Nat} (within : st.cp < cpe)
    (here : st.logline.getD st.cp 0 = oobChar) (next : st.logline.getD (st.cp + 1) 0 = c) :
    relayLoop cpe st =
      if c = oobTerm then ⟨st.write, st.oob ++ [c], true⟩
      else relayLoop cpe { st with
        cp := st.cp + 2
        lp := st.cp + 2
        tty := st.write
        oob := st.oob ++ [c] } := by
  subst next
  rw [relayLoop, if_pos within, if_pos here]

/-- The next sequence has been called. -/
theorem At.called (h : At st front k seg (b :: c :: read)) (tty oob : List UInt8) :
    At { st with cp := st.cp + 2, lp := st.cp + 2, tty := tty, oob := oob }
      (front ++ shifted (2 * k) seg ++ [b, c]) (k + 1) [] read := by
  have length : (front ++ shifted (2 * k) seg ++ [b, c]).length = st.cp + 2 := by
    rw [List.length_append, h.length]
    rfl
  refine ⟨?_, length.symm, length.symm, ?_⟩
  · rw [shifted_nil, List.append_nil, List.append_assoc]
    exact h.logline
  · have := h.np
    change st.np + 2 * (k + 1) = st.cp + 2
    omega

theorem relayLoop_spec {cpe : Nat} (h : At st front k seg (read ++ [stale]))
    (limit : cpe = st.cp + read.length) :
    relayLoop cpe st = ⟨st.tty ++ (relayed stale k seg read).tty,
      st.oob ++ (relayed stale k seg read).oob, (relayed stale k seg read).ended⟩ := by
  induction size : read.length using Nat.strong_induction_on
    generalizing read st front k seg with
  | _ n ih =>
      subst size
      match read with
      | [] => rw [relayLoop_end (Nat.le_of_eq limit), h.write, relayed, List.append_nil]
      | [b] =>
          have within : st.cp < cpe := by rw [limit]; exact Nat.lt_succ_self _
          by_cases oob : b = oobChar
          · subst oob
            rw [relayLoop_oob within h.get h.next, relayed, if_pos rfl]
            by_cases term : stale = oobTerm
            · rw [if_pos term, h.write, decide_eq_true term]
            · rw [if_neg term, relayLoop_end (limit ▸ Nat.le_succ _), Line.write, h.write,
                List.drop_of_length_le (List.length_take_le _ _), List.append_nil,
                decide_eq_false term]
          · obtain ⟨front', h', -⟩ := At.ordinary h
            rw [relayLoop_ordinary within h.get oob, ih 0 Nat.zero_lt_one h' limit rfl, relayed,
              relayed, if_neg oob]
      | b :: c :: read =>
          have within : st.cp < cpe := by
            rw [limit, List.length_cons]
            omega
          by_cases oob : b = oobChar
          · subst oob
            rw [relayLoop_oob within h.get h.next, relayed, if_pos rfl]
            by_cases term : c = oobTerm
            · rw [if_pos term, if_pos term, h.write]
            · rw [if_neg term, if_neg term, ih read.length
                (Nat.lt_of_lt_of_le (Nat.lt_succ_self _) (Nat.le_succ _)) (h.called _ _)
                (limit.trans (by simp; omega)) rfl, h.write]
              simp [Output.after]
          · obtain ⟨front', h', -⟩ := At.ordinary h
            rw [relayLoop_ordinary within h.get oob, ih (read.length + 1) (Nat.lt_succ_self _) h'
              (limit.trans (by simp; omega)) rfl, relayed, if_neg oob]

/-- What one `read` makes the daemon do. -/
theorem relay_eq (read : List UInt8) (stale : UInt8) :
    relay read stale = relayed stale 0 [] read := by
  have start : At ⟨read ++ [stale], 0, 0, 0, [], []⟩ [] 0 [] (read ++ [stale]) :=
    ⟨rfl, rfl, rfl, rfl⟩
  exact relayLoop_spec start (Nat.zero_add _).symm

end Loop

/-! ## Streams -/

section Streams

variable {k : Nat} {seg read rest : List UInt8} {reads : List (List UInt8 × UInt8)}

/-- The pieces as they are written, from the `k`-th sequence on. -/
def written : Nat → List (List UInt8) → List UInt8
  | _, [] => []
  | k, s :: ps => shifted (2 * k) s ++ written (k + 1) ps

theorem length_written (k : Nat) (ps : List (List UInt8)) :
    (written k ps).length = ps.flatten.length := by
  induction ps generalizing k with
  | nil => rfl
  | cons s ps ih =>
      rw [written, List.flatten_cons, List.length_append, List.length_append, length_shifted, ih]

theorem written_eq_iff (k : Nat) (ps : List (List UInt8)) :
    written k ps = ps.flatten ↔ ∀ i s, ps[i]? = some s → s.drop (2 * (k + i)) <+: s := by
  induction ps generalizing k with
  | nil => exact ⟨fun _ i s no => (by cases no), fun _ => rfl⟩
  | cons s ps ih =>
      have cut : written k (s :: ps) = (s :: ps).flatten ↔
          shifted (2 * k) s = s ∧ written (k + 1) ps = ps.flatten := by
        rw [written, List.flatten_cons]
        refine ⟨fun same => List.append_inj same (length_shifted ..), ?_⟩
        rintro ⟨first, later⟩
        rw [first, later]
      rw [cut, shifted_eq_iff, ih]
      constructor
      · rintro ⟨first, later⟩ i t at_i
        cases i with
        | zero =>
            cases at_i
            exact first
        | succ i =>
            rw [show k + (i + 1) = k + 1 + i by omega]
            exact later i t at_i
      · refine fun all => ⟨all 0 s rfl, fun i t at_i => ?_⟩
        rw [show k + 1 + i = k + (i + 1) by omega]
        exact all (i + 1) t at_i

theorem pieces_cons (read : List UInt8) : ∃ s ps, pieces read = s :: ps := by
  induction read using pieces.induct with
  | case1 => exact ⟨[], [], rfl⟩
  | case2 b => exact ⟨[b], [], rfl⟩
  | case3 read => exact ⟨[], [], by rw [pieces, if_pos rfl, if_pos rfl]⟩
  | case4 c read other ih => exact ⟨[], pieces read, by rw [pieces, if_pos rfl, if_neg other]⟩
  | case5 b c read other ih =>
      obtain ⟨s, ps, equal⟩ := ih
      exact ⟨b :: s, ps, by rw [pieces, if_neg other, equal]; rfl⟩

theorem faithful_tty (read : List UInt8) : (faithful read).tty = (pieces read).flatten := by
  induction read using faithful.induct with
  | case1 => rfl
  | case2 b => rfl
  | case3 read => rw [faithful, pieces, if_pos rfl, if_pos rfl, if_pos rfl, if_pos rfl]; rfl
  | case4 c read other ih =>
      rw [faithful, pieces, if_pos rfl, if_pos rfl, if_neg other, if_neg other]
      exact ih
  | case5 b c read other ih =>
      obtain ⟨s, ps, equal⟩ := pieces_cons (c :: read)
      rw [faithful, pieces, if_neg other, if_neg other, Output.sends, ih, equal]
      rfl

/-- As long as no sequence is cut, the sequences are called as they should be. -/
theorem relayed_whole (stale : UInt8) (whole : Whole read) :
    relayed stale k seg read = ⟨written k ((pieces read).modifyHead (seg ++ ·)),
      (faithful read).oob, (faithful read).ended⟩ := by
  induction read using faithful.induct generalizing k seg with
  | case1 =>
      rw [relayed, pieces, List.modifyHead_cons, written, written, List.append_nil,
        List.append_nil]
      rfl
  | case2 b =>
      rw [relayed, if_neg whole, pieces, List.modifyHead_cons, written, written, List.append_nil]
      rfl
  | case3 read =>
      rw [relayed, faithful, pieces, if_pos rfl, if_pos rfl, if_pos rfl, if_pos rfl, if_pos rfl,
        if_pos rfl, List.modifyHead_cons, written, written, List.append_nil, List.append_nil]
  | case4 c read other ih =>
      rw [Whole, if_pos rfl] at whole
      rw [relayed, faithful, pieces, if_pos rfl, if_pos rfl, if_pos rfl, if_neg other,
        if_neg other, if_neg other, ih (whole.resolve_left other), List.modifyHead_cons, written,
        List.append_nil]
      obtain ⟨s, ps, equal⟩ := pieces_cons read
      rw [equal]
      rfl
  | case5 b c read other ih =>
      rw [Whole, if_neg other] at whole
      obtain ⟨s, ps, equal⟩ := pieces_cons (c :: read)
      rw [relayed, faithful, pieces, if_neg other, if_neg other, if_neg other, ih whole, equal,
        List.modifyHead_cons, List.modifyHead_cons, List.modifyHead_cons, List.append_assoc]
      rfl

/-- What follows bytes that cut no sequence is relayed for itself. -/
theorem faithful_append (whole : Whole read) (rest : List UInt8) :
    faithful (read ++ rest) = (faithful read).followedBy (faithful rest) := by
  induction read using faithful.induct with
  | case1 => rfl
  | case2 b =>
      cases rest with
      | nil => rfl
      | cons c rest =>
          change faithful (b :: c :: rest) = _
          rw [faithful, faithful, if_neg whole]
          rfl
  | case3 read =>
      change faithful (oobChar :: oobTerm :: (read ++ rest)) = _
      rw [faithful, faithful, if_pos rfl, if_pos rfl, if_pos rfl, if_pos rfl]
      rfl
  | case4 c read other ih =>
      rw [Whole, if_pos rfl] at whole
      change faithful (oobChar :: c :: (read ++ rest)) = _
      rw [faithful, faithful, if_pos rfl, if_pos rfl, if_neg other, if_neg other,
        ih (whole.resolve_left other)]
      rw [Output.followedBy, Output.followedBy]
      cases finished : (faithful read).ended <;> simp [Output.calls, finished]
  | case5 b c read other ih =>
      rw [Whole, if_neg other] at whole
      change faithful (b :: c :: (read ++ rest)) = _
      rw [faithful, faithful, if_neg other, if_neg other]
      rw [show faithful (c :: (read ++ rest)) = _ from ih whole]
      rw [Output.followedBy, Output.followedBy]
      cases finished : (faithful (c :: read)).ended <;> simp [Output.sends, finished]

/-- Where a sequence is cut, the byte behind the buffer is called for the one that follows. -/
theorem relayed_cut (cut : ¬Whole read) :
    ∃ calls, (∀ stale k seg, (relayed stale k seg read).oob = calls ++ [stale]) ∧
      ∀ rest, ∃ tail, (faithful (read ++ rest)).oob = calls ++ tail ∧ tail.head? = rest.head? := by
  induction read using faithful.induct with
  | case1 => exact absurd trivial cut
  | case2 b =>
      rw [Whole, Ne, not_not] at cut
      subst cut
      refine ⟨[], fun stale k seg => by rw [relayed, if_pos rfl]; rfl, fun rest => ?_⟩
      cases rest with
      | nil => exact ⟨[], rfl, rfl⟩
      | cons c rest =>
          change ∃ tail, (faithful (oobChar :: c :: rest)).oob = _ ∧ _
          rw [faithful, if_pos rfl]
          split
          · exact ⟨[c], rfl, rfl⟩
          · exact ⟨c :: (faithful rest).oob, rfl, rfl⟩
  | case3 read =>
      rw [Whole, if_pos rfl] at cut
      exact absurd (Or.inl rfl) cut
  | case4 c read other ih =>
      rw [Whole, if_pos rfl, not_or] at cut
      obtain ⟨calls, called, faithfully⟩ := ih cut.2
      refine ⟨c :: calls, fun stale k seg => ?_, fun rest => ?_⟩
      · rw [relayed, if_pos rfl, if_neg other, Output.after, called]
        rfl
      · obtain ⟨tail, equal, head⟩ := faithfully rest
        refine ⟨tail, ?_, head⟩
        change (faithful (oobChar :: c :: (read ++ rest))).oob = _
        rw [faithful, if_pos rfl, if_neg other, Output.calls, equal]
        rfl
  | case5 b c read other ih =>
      rw [Whole, if_neg other] at cut
      obtain ⟨calls, called, faithfully⟩ := ih cut
      refine ⟨calls, fun stale k seg => ?_, fun rest => ?_⟩
      · rw [relayed, if_neg other, called]
      · obtain ⟨tail, equal, head⟩ := faithfully rest
        refine ⟨tail, ?_, head⟩
        change (faithful (b :: c :: (read ++ rest))).oob = _
        rw [faithful, if_neg other, Output.sends]
        exact equal

theorem relay_whole (stale : UInt8) (whole : Whole read) :
    relay read stale = ⟨written 0 (pieces read), (faithful read).oob, (faithful read).ended⟩ := by
  obtain ⟨s, ps, equal⟩ := pieces_cons read
  rw [relay_eq, relayed_whole stale whole, equal]
  rfl

theorem undisturbed_iff : written 0 (pieces read) = (pieces read).flatten ↔ Undisturbed read := by
  rw [written_eq_iff]
  simp only [Nat.zero_add]
  rfl

/-- What has been done is what should have been. -/
def Relayed (out should : Output) : Prop := out.tty = should.tty ∧ out.oob = should.oob

instance (out should : Output) : Decidable (Relayed out should) :=
  inferInstanceAs (Decidable (_ ∧ _))

theorem paired (s : UInt8) (blocks : List (List UInt8)) :
    (blocks.map fun read => (read, s)).map Prod.fst = blocks := by
  rw [List.map_map]
  exact List.map_id blocks

/-- One `read` that cuts no sequence, before others. -/
theorem relayed_cons (stale : UInt8) (whole : Whole read) (later should : Output) :
    Relayed ((relay read stale).followedBy later) ((faithful read).followedBy should) ↔
      Undisturbed read ∧ ((faithful read).ended = true ∨ Relayed later should) := by
  have first : relay read stale =
      ⟨written 0 (pieces read), (faithful read).oob, (faithful read).ended⟩ :=
    relay_whole stale whole
  have length := length_written 0 (pieces read)
  rw [first, ← undisturbed_iff, Output.followedBy, Output.followedBy]
  cases ended : (faithful read).ended with
  | true =>
      rw [if_pos rfl, if_pos rfl, Relayed, faithful_tty]
      exact ⟨fun h => ⟨h.1, Or.inl rfl⟩, fun h => ⟨h.1, rfl⟩⟩
  | false =>
      rw [if_neg Bool.false_ne_true, if_neg Bool.false_ne_true, Relayed, faithful_tty]
      constructor
      · rintro ⟨tty, oob⟩
        obtain ⟨same, rest⟩ := List.append_inj tty length
        exact ⟨same, Or.inr ⟨rest, List.append_cancel_left oob⟩⟩
      · rintro ⟨same, no | ⟨tty, oob⟩⟩
        · cases no
        · exact ⟨by rw [same, tty], by rw [oob]⟩

/-- The stream is relayed as it should be, whatever lies behind the bytes of each `read`, if and
only if no `read` ends within a sequence and none disturbs its pieces. -/
theorem relays_faithfully_iff (blocks : List (List UInt8)) :
    (∀ reads, reads.map Prod.fst = blocks → Relayed (serve reads) (faithful blocks.flatten)) ↔
      Intact blocks := by
  induction blocks with
  | nil =>
      refine ⟨fun _ => trivial, fun _ reads none => ?_⟩
      rw [List.map_eq_nil_iff.mp none]
      exact ⟨rfl, rfl⟩
  | cons read blocks ih =>
      constructor
      · intro all
        have whole : Whole read := by
          by_contra cut
          obtain ⟨calls, called, faithfully⟩ := relayed_cut cut
          obtain ⟨tail, should, head⟩ := faithfully blocks.flatten
          -- the byte that is found there need not be the one that comes next
          obtain ⟨stale, other⟩ : ∃ stale, blocks.flatten.head? ≠ some stale := by
            by_cases zero : blocks.flatten.head? = some 0
            · exact ⟨1, by rw [zero]; decide⟩
            · exact ⟨0, zero⟩
          have oob := (all ((read, stale) :: blocks.map fun read => (read, 0))
            (congrArg (read :: ·) (paired 0 blocks))).2
          have first : (relay read stale).oob = calls ++ [stale] := by rw [relay_eq, called]
          have begun : ∃ more, (serve ((read, stale) :: blocks.map fun read => (read, 0))).oob =
              calls ++ stale :: more := by
            rw [serve, Output.followedBy]
            split
            · exact ⟨[], first⟩
            · exact ⟨_, by rw [first, List.append_assoc]; rfl⟩
          obtain ⟨more, begun⟩ := begun
          rw [begun, List.flatten_cons, should] at oob
          rw [← head, ← List.append_cancel_left oob] at other
          exact other rfl
        have each : ∀ reads : List (List UInt8 × UInt8), reads.map Prod.fst = blocks →
            Undisturbed read ∧
              ((faithful read).ended = true ∨ Relayed (serve reads) (faithful blocks.flatten)) := by
          intro reads same
          have here := all ((read, 0) :: reads) (by rw [List.map_cons, same])
          rwa [List.flatten_cons, faithful_append whole, serve, relayed_cons 0 whole] at here
        refine ⟨whole, (each _ (paired 0 blocks)).1, ?_⟩
        by_cases ended : (faithful read).ended = true
        · exact Or.inl ended
        · exact Or.inr (ih.mp fun reads same => (each reads same).2.resolve_left ended)
      · rintro ⟨whole, undisturbed, later⟩ reads same
        cases reads with
        | nil => cases same
        | cons first reads =>
            obtain ⟨block, stale⟩ := first
            obtain ⟨rfl, rest⟩ := List.cons_eq_cons.mp same
            rw [List.flatten_cons, faithful_append whole, serve, relayed_cons stale whole]
            exact ⟨undisturbed, later.imp id fun intact => ih.mpr intact reads rest⟩

/-- Three bytes behind a sequence in the same `read`. -/
theorem relay_garbles : ¬Relayed (serve [([oobChar, 0x83, 97, 98, 99], 0)])
    (faithful [oobChar, 0x83, 97, 98, 99]) := by
  rw [serve, serve, relay_eq]
  decide

end Streams

end MachFormal.Rconsole.Relay
