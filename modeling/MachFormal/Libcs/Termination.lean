import MachFormal.Libcs.Expand

/-!
# The expansion ends

`glob` calls itself only with a shorter text: behind a slash of a component, or with an
alternative of a brace in the place of all of them.  So for every specification the steps
suffice that `expand` allows.
-/

namespace MachFormal.Libcs.Termination

open Library Expand

/-- A run that is not given up. -/
def Halts {α : Type} (r : Storing α) : Prop := r.ending ≠ .unfinished

theorem halts_pure {α : Type} (value : α) : Halts (pure value) := nofun

theorem halts_beyond {α : Type} : Halts (.beyond : Storing α) := nofun

theorem halts_bind {α β : Type} {r : Storing α} {f : α → Storing β} (first : Halts r)
    (then_ : ∀ value, Halts (f value)) : Halts (r >>= f) := by
  obtain ⟨items, ending⟩ := r
  cases ending with
  | done value => exact then_ value
  | beyond => nofun
  | unfinished => exact absurd rfl first

theorem halts_emit {β : Type} (name : Text) {f : Unit → Storing β} (then_ : Halts (f ())) :
    Halts (Run.emit name >>= f) :=
  halts_bind nofun fun _ => then_

theorem collect_unfinished {α : Type} {room : Nat} {ending : Ending α} {items buffer : List Text}
    (halts : ending ≠ .unfinished) : collect room ending items buffer ≠ .unfinished := by
  induction items generalizing buffer with
  | nil =>
      cases ending with
      | done value =>
          intro same
          cases same
      | beyond =>
          intro same
          cases same
      | unfinished => exact absurd rfl halts
  | cons item items ih =>
      rw [collect]
      split
      · intro same
        cases same
      · exact ih

/-! ## Lengths -/

theorem length_inClass {scc : Int} {ok : Bool} {lc : Int} {p rest : Text}
    (passed : inClass scc ok lc p = .passed rest) : rest.length ≤ p.length := by
  induction size : p.length using Nat.strong_induction_on generalizing ok lc p with
  | _ k ih =>
      subst size
      cases p with
      | nil => rw [inClass] at passed; cases passed
      | cons cc p =>
          have shorter : p.length < (cc :: p).length := Nat.lt_succ_self _
          rw [inClass.eq_def] at passed
          dsimp only at passed
          split at passed
          · split at passed
            · cases passed
              exact Nat.le_of_lt shorter
            · cases passed
          · split at passed
            · split at passed
              · cases p with
                | nil => cases passed
                | cons high p =>
                    have less : p.length < (cc :: high :: p).length :=
                      Nat.lt_trans (Nat.lt_succ_self _) shorter
                    exact Nat.le_trans (ih _ less passed rfl) (Nat.le_of_lt less)
              · exact Nat.le_trans (ih _ shorter passed rfl) (Nat.le_of_lt shorter)
            · exact Nat.le_trans (ih _ shorter passed rfl) (Nat.le_of_lt shorter)

theorem push_found {c : Byte} {g : Group} {inside after : Text}
    (found : g.push c = .found inside after) :
    ∃ rest, inside = c :: rest ∧ g = .found rest after := by
  cases g with
  | found i a =>
      cases found
      exact ⟨i, rfl, rfl⟩
  | unbalanced => cases found
  | beyond => cases found

theorem length_findEnd {lev : Nat} {inBracket : Bool} {pe inside after : Text}
    (found : findEnd lev inBracket pe = .found inside after) :
    inside.length + after.length + 1 = pe.length := by
  induction pe generalizing lev inBracket inside with
  | nil => cases inBracket <;> cases found
  | cons c pe ih =>
      have pushed {lev' : Nat} {b : Bool}
          (found : (findEnd lev' b pe).push c = .found inside after) :
          inside.length + after.length + 1 = (c :: pe).length := by
        obtain ⟨rest, rfl, deeper⟩ := push_found found
        have shorter := ih deeper
        rw [List.length_cons, List.length_cons]
        omega
      cases inBracket with
      | true => exact pushed found
      | false =>
          rw [findEnd] at found
          split at found
          · exact pushed found
          · split at found
            · split at found
              · cases found
                rw [List.length_nil, List.length_cons, Nat.zero_add]
              · exact pushed found
            · exact pushed found

theorem length_piece {lev : Nat} {inBracket : Bool} {pl pm piece : Text}
    (cut : piece ∈ pieces lev inBracket pl pm) : piece.length < pl.length + pm.length := by
  induction pm generalizing lev inBracket pl with
  | nil => rw [pieces] at cut; cases cut
  | cons c pm ih =>
      have longer {lev' : Nat} {b : Bool} (cut : piece ∈ pieces lev' b (pl ++ [c]) pm) :
          piece.length < pl.length + (c :: pm).length := by
        have less := ih cut
        rw [List.length_append, List.length_singleton] at less
        rw [List.length_cons]
        omega
      have fresh {lev' : Nat} (cut : piece ∈ pl :: pieces lev' false [] pm) :
          piece.length < pl.length + (c :: pm).length := by
        rcases List.mem_cons.mp cut with rfl | later
        · rw [List.length_cons]
          omega
        · have less := ih later
          rw [List.length_nil] at less
          rw [List.length_cons]
          omega
      cases inBracket with
      | true => exact longer cut
      | false =>
          rw [pieces] at cut
          split at cut
          · exact longer cut
          · split at cut
            · split at cut
              · exact fresh cut
              · exact longer cut
            · split at cut
              · split at cut
                · exact fresh cut
                · exact longer cut
              · exact longer cut

/-! ## The routines -/

theorem halts_tryEach {act : Text → State → Storing (Bool × State)} {l : List Text}
    (each : ∀ restbuf ∈ l, ∀ st, Halts (act restbuf st)) (st : State) :
    Halts (tryEach act l st) := by
  induction l generalizing st with
  | nil => exact halts_pure _
  | cons restbuf l ih =>
      obtain ⟨here, later⟩ := List.forall_mem_cons.mp each
      rw [tryEach]
      split
      · exact halts_beyond
      · refine halts_bind (here st) fun value => ?_
        dsimp only
        split
        · exact halts_pure _
        · exact ih later value.2

/-- An expanded text is shorter than the text with the brace. -/
theorem halts_execbrc {act : Text → State → Storing (Bool × State)} {p : Text}
    (each : ∀ restbuf : Text, restbuf.length < p.length → ∀ st, Halts (act restbuf st))
    (st : State) : Halts (execbrc act p st) := by
  rw [execbrc]
  split
  · exact halts_beyond
  · exact halts_pure _
  · next inside after found =>
      refine halts_tryEach (fun restbuf listed => ?_) st
      obtain ⟨piece, cut, rfl⟩ := List.mem_map.mp listed
      have behind := length_findEnd found
      have part := length_piece cut
      rw [List.length_drop] at behind
      rw [List.length_append, List.length_singleton, List.length_nil] at part
      refine each _ ?_
      simp only [List.length_append]
      omega

theorem halts_slashed {sys : Calls} {glob : Text → State → Storing State} {p : Text}
    (deeper : ∀ st, Halts (glob p st)) (st : State) : Halts (slashed sys glob p st) := by
  rw [slashed]
  split
  · exact halts_pure _
  · split
    · split
      · exact halts_emit _ (halts_pure _)
      · exact halts_bind (deeper _) fun _ => halts_pure _
    · exact halts_pure _

theorem halts_eachTail {act : Text → State → Storing (Bool × State)}
    (each : ∀ s st, Halts (act s st)) (s : Text) (st : State) : Halts (eachTail act s st) := by
  induction s generalizing st with
  | nil => exact halts_pure _
  | cons c s ih =>
      refine halts_bind (each (c :: s) st) fun value => ?_
      dsimp only
      split
      · exact halts_pure _
      · exact ih value.2

theorem halts_amatch {sys : Calls} {glob : Text → State → Storing State} {fuel : Nat} {s p : Text}
    (deeper : ∀ q : Text, q.length < p.length → ∀ st, Halts (glob q st)) (enough : p.length < fuel)
    (st : State) : Halts (amatch sys glob fuel s p st) := by
  induction fuel generalizing s p st with
  | zero => exact absurd enough (Nat.not_lt_zero _)
  | succ fuel ih =>
      cases p with
      | nil => exact halts_pure _
      | cons c p =>
          have shorter : p.length < (c :: p).length := Nat.lt_succ_self _
          have tail : p.tail.length < (c :: p).length := by
            rw [List.length_tail]
            omega
          have rest {s q : Text} (below : q.length < (c :: p).length) (st : State) :
              Halts (amatch sys glob fuel s q st) :=
            ih (fun q' less => deeper q' (Nat.lt_trans less below)) (by omega) st
          rw [amatch]
          split
          · exact halts_execbrc (fun restbuf less st => rest less st) st
          · split
            · split
              · exact halts_beyond
              · exact halts_pure _
              · next q passed =>
                  split
                  · exact halts_beyond
                  · exact rest (Nat.lt_of_le_of_lt (length_inClass passed) shorter) st
            · split
              · split
                · exact halts_pure _
                · split
                  · exact halts_bind (halts_slashed (deeper _ tail) st) fun _ => halts_pure _
                  · exact halts_eachTail (fun s st => rest shorter st) s st
              · split
                · split
                  · exact halts_pure _
                  · exact rest shorter st
                · split
                  · split
                    · exact halts_pure _
                    · exact halts_bind (halts_slashed (deeper _ shorter) st) fun _ => halts_pure _
                  · split
                    · exact halts_pure _
                    · exact rest shorter st

theorem halts_matchName {sys : Calls} {glob : Text → State → Storing State} {s p : Text}
    (deeper : ∀ q : Text, q.length < p.length → ∀ st, Halts (glob q st)) (st : State) :
    Halts (matchName sys glob s p st) := by
  rw [matchName]
  split
  · exact halts_pure _
  · exact halts_bind (halts_amatch deeper (Nat.lt_succ_self _) _) fun _ => halts_pure _

theorem halts_readEntries {sys : Calls} {glob : Text → State → Storing State} {p : Text}
    (deeper : ∀ q : Text, q.length < p.length → ∀ st, Halts (glob q st)) (dirp : List Direct)
    (st : State) : Halts (readEntries sys glob p dirp st) := by
  induction dirp generalizing st with
  | nil => exact halts_pure _
  | cons dp dirp ih =>
      rw [readEntries]
      split
      · exact ih st
      · refine halts_bind (halts_matchName deeper st) fun value => ?_
        dsimp only
        split
        · exact halts_emit _ (ih _)
        · exact ih _

theorem halts_matchdir {sys : Calls} {glob : Text → State → Storing State} {p : Text}
    (deeper : ∀ q : Text, q.length < p.length → ∀ st, Halts (glob q st)) (st : State) :
    Halts (matchdir sys glob p st) := by
  rw [matchdir]
  split
  · exact halts_pure _
  · exact halts_readEntries deeper _ st

theorem homeward_append {sys : Calls} {as path front cs path' : Text}
    (start : homeward sys as path = some (front, cs, path')) : front ++ cs = as := by
  rw [homeward] at start
  split at start
  · next first =>
      obtain ⟨rest, rfl⟩ := List.head?_eq_some_iff.mp first.1
      have whole : rest.takeWhile isUser ++ rest.drop (rest.takeWhile isUser).length = rest :=
        List.prefix_iff_eq_append.mp (List.takeWhile_prefix _)
      dsimp only [List.tail_cons] at start
      split at start
      · cases start
      · split at start
        · obtain ⟨home, _, same⟩ := Option.map_eq_some_iff.mp start
          cases same
          exact congrArg (tilde :: ·) whole
        · cases start
          exact congrArg (tilde :: ·) whole
  · cases start
    rfl

theorem halts_glob (sys : Calls) {fuel : Nat} {as : Text} (enough : as.length < fuel)
    (st : State) : Halts (glob sys fuel as st) := by
  induction fuel generalizing as st with
  | zero => exact absurd enough (Nat.not_lt_zero _)
  | succ fuel ih =>
      rw [glob]
      split
      · exact halts_pure _
      · next front cs path start =>
          have whole := congrArg List.length (homeward_append start)
          rw [List.length_append] at whole
          dsimp only
          split
          · exact halts_pure _
          · split
            · split
              · exact halts_emit _ (halts_pure _)
              · exact halts_pure _
            · next oldc rest behind =>
                have cut := congrArg List.length behind
                rw [List.length_drop, List.length_cons] at cut
                have back := (List.rtakeWhile_suffix (fun c => decide (c ≠ slash))
                  (l := front ++ cs.takeWhile fun c => !globchars.contains c)).length_le
                rw [List.length_append] at back
                have deeper : ∀ q : Text,
                    q.length < (((front ++ cs.takeWhile fun c => !globchars.contains c).rtakeWhile
                      fun c => decide (c ≠ slash)) ++ oldc :: rest).length →
                    ∀ st, Halts (glob sys fuel q st) := by
                  intro q less
                  rw [List.length_append, List.length_cons] at less
                  exact ih (by omega)
                split
                · refine halts_bind (halts_execbrc (fun restbuf less st => ?_) _) fun _ =>
                    halts_pure _
                  exact halts_bind (deeper restbuf less st) fun _ => halts_pure _
                · split
                  · exact halts_bind (halts_matchdir deeper _) fun _ => halts_pure _
                  · exact halts_pure _

/-- `expand` terminates. -/
theorem expand_terminates (sys : Calls) (spec : Text) (bufsize : Nat) :
    expand sys spec bufsize ≠ .unfinished :=
  collect_unfinished (halts_glob sys (Nat.lt_succ_self _) _)

end MachFormal.Libcs.Termination
