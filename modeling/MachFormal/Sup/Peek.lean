import MachFormal.Sup.Scmio

/-!
# Looking ahead at a count

`prereadcount` reads four bytes and pushes them back in front of the buffer.  A refill
starts at the beginning of the buffer, so that the bytes that were read after it are all
there is room for in front of what is left: with one to three bytes buffered, the refill
brings fewer than four.

What a read can take is what is buffered and one more buffer, so that a look ahead also
changes the longest read that succeeds.
-/

namespace MachFormal.Sup

open Library.Wire

/-- What `readdata` reports when `read` returns nothing, also when it was asked for nothing. -/
def prematureEOF : Failure := .scmerr "Premature EOF on network input"

/-! ## Which reads succeed -/

theorem readdataLoop_fails (fuel n m : Nat) (buffer : List Byte) (net : Stream Byte)
    (enough : m ≤ fuel) (short : min n net.bytes.length < m) :
    readdataLoop fuel n m buffer net = .error prematureEOF := by
  induction fuel generalizing n m buffer net with
  | zero => omega
  | succ fuel ih =>
      rw [readdataLoop, if_neg (by omega)]
      have whole := congrArg List.length (net.read_append n)
      have size := net.read_length_le n
      rw [List.length_append] at whole
      cases piece : (net.read n).1 with
      | nil => rfl
      | cons b rest =>
          rw [piece] at whole size
          simp only [List.length_cons] at whole size
          refine ih _ _ _ _ ?_ ?_
          · simp only [List.length_cons]
            omega
          · simp only [List.length_cons]
            omega

/-- A read of more than is buffered and one buffer fails, and so does one of more than there
is. -/
theorem readdata_fails {count : Nat} {r : Input}
    (short : r.data.length + min FILEXFER r.net.bytes.length < count) :
    readdata count r = .error prematureEOF := by
  rw [readdata, if_neg (by omega)]
  simp only [readdataLoop_fails (count - r.data.length) FILEXFER (count - r.data.length) [] r.net
    (Nat.le_refl _) (by omega)]

/-- Every other read succeeds; what is left lies behind the bytes that the refill brought. -/
theorem readdata_succeeds {count : Nat} {r : Input}
    (long : count ≤ r.data.length + min FILEXFER r.net.bytes.length) :
    ∃ r', readdata count r = .ok (r.pending.take count, r') ∧
      r'.pending = r.pending.drop count ∧
      r'.bufptr = if count ≤ r.data.length then r.bufptr + count else count - r.data.length := by
  by_cases buffered : count ≤ r.data.length
  · refine ⟨⟨r.bufptr + count, r.data.drop count, r.net⟩, ?_, ?_, (if_pos buffered).symm⟩
    · rw [readdata, if_pos buffered, Input.pending, List.take_append_of_le_length buffered]
    · rw [Input.pending, Input.pending, List.drop_append_of_le_length buffered]
  · obtain ⟨got, net', ran, left, size⟩ := readdataLoop_spec (count - r.data.length) FILEXFER
      (count - r.data.length) [] r.net (Nat.le_refl _) (by omega) (by omega)
    rw [List.nil_append] at ran
    have passed : r.data.length ≤ count := by omega
    refine ⟨⟨count - r.data.length, got.drop (count - r.data.length), net'⟩, ?_, ?_,
      (if_neg buffered).symm⟩
    · rw [readdata, if_neg buffered]
      simp only [ran]
      rw [Input.pending, ← left, List.take_append, List.take_of_length_le passed,
        List.take_append_of_le_length size]
    · rw [Input.pending, Input.pending, ← left, List.drop_append,
        List.drop_eq_nil_of_le passed, List.nil_append, List.drop_append_of_le_length size]

/-! ## What is asked of a look ahead -/

/-- A sequence of reads. -/
def reads : List Nat → Recv (List (List Byte))
  | [] => pure []
  | count :: rest => do
      let data ← readdata count
      let others ← reads rest
      pure (data :: others)

/-- The data that a sequence of reads returns, or how it fails. -/
def returned (counts : List Nat) (r : Input) : Except Failure (List (List Byte)) :=
  (reads counts r).map Prod.fst

/-- `prereadcount` returns the next count, and the input is for every reader what it was. -/
def PurePeek (e : Endpoint) (r : Input) : Prop :=
  ∃ r', prereadcount e r = .ok (e.bytesInt (r.pending.take 4), r') ∧
    r'.pending = r.pending ∧ ∀ counts, returned counts r' = returned counts r

/-! ## Reads of a short input -/

/-- What reads return of an input, as far as it lasts. -/
def cutInput : List Nat → List Byte → Except Failure (List (List Byte))
  | [], _ => .ok []
  | count :: rest, input =>
      if input.length < count then .error prematureEOF
      else (cutInput rest (input.drop count)).map (input.take count :: ·)

theorem returned_cons_of_ok {count : Nat} {counts : List Nat} {r r' : Input} {data : List Byte}
    (read : readdata count r = .ok (data, r')) :
    returned (count :: counts) r = (returned counts r').map (data :: ·) := by
  simp only [returned, reads, bind, StateT.bind, Except.bind, read]
  cases reads counts r' <;> rfl

theorem returned_cons_of_error {count : Nat} {counts : List Nat} {r : Input} {failure : Failure}
    (read : readdata count r = .error failure) :
    returned (count :: counts) r = .error failure := by
  simp only [returned, reads, bind, StateT.bind, Except.bind, read]
  rfl

theorem returned_eq_cutInput (counts : List Nat) (r : Input) (short : r.pending.length ≤ FILEXFER) :
    returned counts r = cutInput counts r.pending := by
  induction counts generalizing r with
  | nil => rfl
  | cons count counts ih =>
      have total : r.pending.length = r.data.length + r.net.bytes.length := List.length_append
      rw [cutInput]
      by_cases ends : r.pending.length < count
      · rw [if_pos ends]
        exact returned_cons_of_error (readdata_fails (by omega))
      · obtain ⟨r', read, left, -⟩ := @readdata_succeeds count r (by omega)
        rw [if_neg ends, returned_cons_of_ok read, ← left, ih r']
        rw [left, List.length_drop]
        omega

/-! ## The look ahead -/

theorem prereadcount_eq (e : Endpoint) {r r' : Input} {y : List Byte}
    (read : readdata 4 r = .ok (y, r')) :
    prereadcount e r =
      if r'.bufptr < y.length then .error (.scmerr "No space in buffer")
      else .ok (e.bytesInt y, { r' with bufptr := r'.bufptr - y.length, data := y ++ r'.data }) := by
  simp only [prereadcount, bind, StateT.bind, Except.bind, read, pushdata]
  by_cases full : r'.bufptr < y.length
  · rw [if_pos full, if_pos full]
  · rw [if_neg full, if_neg full]
    rfl

theorem prereadcount_buffered (e : Endpoint) {r : Input} (buffered : 4 ≤ r.data.length) :
    prereadcount e r = .ok (e.bytesInt (r.pending.take 4), r) := by
  have read : readdata 4 r = .ok (r.data.take 4, ⟨r.bufptr + 4, r.data.drop 4, r.net⟩) :=
    if_pos buffered
  have size : (r.data.take 4).length = 4 := List.length_take_of_le buffered
  rw [prereadcount_eq e read, if_neg (by simp only [size]; omega), size]
  simp only [Nat.add_sub_cancel, List.take_append_drop, Input.pending,
    List.take_append_of_le_length buffered]

/-- With nothing buffered the count goes back to the beginning of the buffer. -/
theorem prereadcount_empty (e : Endpoint) {r : Input} (empty : r.data = [])
    (four : 4 ≤ r.pending.length) :
    ∃ r', prereadcount e r = .ok (e.bytesInt (r.pending.take 4), r') ∧
      r'.pending = r.pending ∧ 4 ≤ r'.data.length := by
  have total : r.pending.length = r.data.length + r.net.bytes.length := List.length_append
  have none : r.data.length = 0 := List.length_eq_zero_iff.mpr empty
  have size : (r.pending.take 4).length = 4 := List.length_take_of_le four
  obtain ⟨r', read, left, ptr⟩ := @readdata_succeeds 4 r (by simp only [FILEXFER]; omega)
  rw [if_neg (by omega), none] at ptr
  refine ⟨_, (prereadcount_eq e read).trans (if_neg (by omega)), ?_, ?_⟩
  · have back : (r.pending.take 4 ++ r'.data) ++ r'.net.bytes =
        r.pending.take 4 ++ r.pending.drop 4 := by
      rw [List.append_assoc, ← left]
      rfl
    exact back.trans (List.take_append_drop 4 r.pending)
  · simp only [List.length_append, size]
    omega

/-- With one to three bytes buffered there is no room in front of the refill. -/
theorem prereadcount_no_space (e : Endpoint) {r : Input} (some_buffered : r.data ≠ [])
    (few : r.data.length < 4) (four : 4 ≤ r.pending.length) :
    prereadcount e r = .error (.scmerr "No space in buffer") := by
  have total : r.pending.length = r.data.length + r.net.bytes.length := List.length_append
  have positive := List.length_pos_of_ne_nil some_buffered
  have size : (r.pending.take 4).length = 4 := List.length_take_of_le four
  obtain ⟨r', read, -, ptr⟩ := @readdata_succeeds 4 r (by simp only [FILEXFER]; omega)
  rw [if_neg (by omega)] at ptr
  exact (prereadcount_eq e read).trans (if_pos (by omega))

/-- Wherever the input stands, `prereadcount` is a pure look ahead exactly when four bytes are
buffered, or none is and one buffer holds all that is to come. -/
theorem purePeek_iff (e : Endpoint) (r : Input) (four : 4 ≤ r.pending.length) :
    PurePeek e r ↔ 4 ≤ r.data.length ∨ (r.data = [] ∧ r.pending.length ≤ FILEXFER) := by
  have total : r.pending.length = r.data.length + r.net.bytes.length := List.length_append
  by_cases buffered : 4 ≤ r.data.length
  · exact iff_of_true ⟨r, prereadcount_buffered e buffered, rfl, fun _ => rfl⟩ (.inl buffered)
  · rw [or_iff_right buffered]
    by_cases empty : r.data = []
    · rw [and_iff_right empty]
      obtain ⟨r', peeked, same, ahead⟩ := prereadcount_empty e empty four
      constructor
      · -- a read of one byte more than a buffer tells the difference
        rintro ⟨r'', peeked', -, alike⟩
        rw [peeked] at peeked'
        obtain ⟨-, rfl⟩ := Prod.mk.inj (Except.ok.inj peeked')
        refine Nat.le_of_not_lt fun long => ?_
        have total' : r'.pending.length = r'.data.length + r'.net.bytes.length := List.length_append
        have none : r.data.length = 0 := List.length_eq_zero_iff.mpr empty
        obtain ⟨after, read, -, -⟩ := @readdata_succeeds (FILEXFER + 1) r' (by
          rw [same] at total'
          omega)
        have before := @returned_cons_of_error (FILEXFER + 1) [] r _ (readdata_fails (by omega))
        have behind := alike [FILEXFER + 1]
        rw [returned_cons_of_ok read, before] at behind
        exact absurd behind nofun
      · intro short
        refine ⟨r', peeked, same, fun counts => ?_⟩
        rw [returned_eq_cutInput counts r' (by rwa [same]), returned_eq_cutInput counts r short, same]
    · refine iff_of_false ?_ fun none => empty none.1
      rintro ⟨r', peeked, -, -⟩
      rw [prereadcount_no_space e empty (by omega) four] at peeked
      exact absurd peeked nofun

theorem purePeek_whole : PurePeek ⟨.little, false, none⟩
    (Input.start ⟨[3, 0, 0, 0, 97, 98, 99], fun _ => 0⟩) :=
  (purePeek_iff _ _ (by decide)).mpr (.inr ⟨rfl, by decide⟩)

/-- Three bytes of four are read, and then five are still to come. -/
theorem peek_fails_in_refill :
    ∃ data r, readdata 3 (Input.start ⟨[1, 1, 1, 3, 0, 0, 0, 97], fun _ => 3⟩) = .ok (data, r) ∧
      4 ≤ r.pending.length ∧
      prereadcount ⟨.little, false, none⟩ r = .error (.scmerr "No space in buffer") ∧
      ¬PurePeek ⟨.little, false, none⟩ r := by
  refine ⟨_, _, rfl, by decide, rfl, ?_⟩
  rintro ⟨r', peeked, -⟩
  exact absurd (peeked.symm.trans rfl : Except.ok _ = Except.error _) nofun

end MachFormal.Sup
