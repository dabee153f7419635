import MachFormal.Libcs.Path

/-!
# Absolute names

`abspath` writes the current directory and a name to the result, or the name alone if it
is absolute, and then compacts the result in place.  The pointer `src` reads a character
after another and `dst` writes it; at a slash the code looks back from `dst` at the
component that it ends.

Everything in front of the slash `fence` leads up.
-/

namespace MachFormal.Libcs.Abspath

open Library.Paths Sup Libcs.Path

def dots : Name := [dot, dot]

/-! ## The code -/

/-- What the result holds before it is compacted, without the terminator.  The current
directory is the one that is remembered or the one that `getwd` gives. -/
def start (curwd name : CString) : Name :=
  (if name.data.head? = some slash then [] else curwd.data ++ [slash]) ++ name.data ++ [slash]

structure Scan where
  result : List Byte
  src : Nat
  dst : Nat
  fence : Nat

/-- `*--t`; nothing may be read before the result. -/
def before (result : List Byte) : Nat → Option (Byte × Nat)
  | 0 => none
  | t + 1 => some (result.getD t 0, t)

/-- `while (*--t != '/')`. -/
def back (result : List Byte) : Nat → Option Nat
  | 0 => none
  | t + 1 => if result.getD t 0 = slash then some t else back result t

/-- What is done at a slash that has been copied. -/
def compact (s : Scan) : Option Scan := do
  let (c, t) ← before s.result (s.dst - 1)
  if c = slash then
    some { s with dst := t + 1 }
  else if c = dot then
    let (c, t) ← before s.result t
    if c = slash then
      some { s with dst := t + 1 }
    else if c = dot then
      let (c, t) ← before s.result t
      if c = slash then
        if t = s.fence then
          some { s with fence := s.dst - 1 }
        else
          let t ← back s.result t
          some { s with dst := t + 1 }
      else some s
    else some s
  else some s

/-- One turn of the second loop. -/
def turn (s : Scan) : Option Scan :=
  let c := s.result.getD s.src 0
  let s := { s with result := s.result.set s.dst c, src := s.src + 1, dst := s.dst + 1 }
  if c = slash then compact s else some s

/-- The second loop; there are no more turns than characters. -/
def scan : Nat → Scan → Option Scan
  | 0, s => some s
  | turns + 1, s =>
      if s.result.getD s.src 0 = 0 then some s else (turn s).bind (scan turns)

/-- The first loop, which copies every character onto itself: where the first slash is. -/
def firstSlash (result : List Byte) : Option Nat := result.findIdx? (· = slash)

/-- `abspath`: the result, if nothing is read before it. -/
def abspath (curwd name : CString) : Option Name :=
  let result := start curwd name ++ [0]
  let size := (start curwd name).length
  let s : Option Scan :=
    match firstSlash result with
    | none => some ⟨result, size, size, 0⟩
    | some fence => scan size ⟨result, fence + 1, fence + 1, fence⟩
  s.map fun s =>
    let result := s.result.set s.dst 0
    let dst := s.dst - 1
    stringAt (if 0 < dst ∧ result.getD dst 0 = slash then result.set dst 0 else result) 0

/-! ## The result -/

/-- The components of a name, empty ones as well. -/
def steps (s : Name) : List Name := s.splitOn slash

/-! ## Looking back -/

theorem before_append {result a tail : List Byte} {x : Byte} {t : Nat}
    (holds : result = a ++ x :: tail) (at_ : t = a.length + 1) :
    before result t = some (x, a.length) := by
  have here := getD_append a (x :: tail) 0
  rw [Nat.add_zero] at here
  rw [at_, before, holds, here]
  rfl

theorem back_append {result u text tail : List Byte} {t : Nat} (simple : slash ∉ text)
    (holds : result = u ++ slash :: (text ++ tail)) (at_ : t = u.length + 1 + text.length) :
    back result t = some u.length := by
  induction text using List.reverseRecOn generalizing tail t with
  | nil =>
      have here := getD_append u (slash :: tail) 0
      rw [Nat.add_zero] at here
      rw [at_, holds, List.length_nil, Nat.add_zero, List.nil_append, back, here]
      rfl
  | append_singleton text c ih =>
      rw [List.mem_append, List.mem_singleton, not_or] at simple
      have here := getD_append (u ++ slash :: text) (c :: tail) 0
      have whole : result = (u ++ slash :: text) ++ (c :: tail) := by simp [holds]
      rw [Nat.add_zero, ← whole, List.length_append, List.length_cons] at here
      rw [at_, List.length_append, List.length_singleton, ← Nat.add_assoc, back,
        show u.length + 1 + text.length = u.length + (text.length + 1) by omega, here,
        List.getD_cons_zero, if_neg (Ne.symm simple.2)]
      exact ih simple.1 (by rw [holds, List.append_assoc]) (by omega)

/-! ## The invariant -/

/-- What has been written, with every component followed by a slash. -/
def written (kept : List Name) : List Byte := slash :: kept.flatMap (· ++ [slash])

theorem written_concat (kept : List Name) (c : Name) :
    written (kept ++ [c]) = written kept ++ c ++ [slash] := by simp [written]

theorem written_ends (kept : List Name) : ∃ u, written kept = u ++ [slash] := by
  cases kept using List.reverseRecOn with
  | nil => exact ⟨[], rfl⟩
  | append_singleton kept c => exact ⟨written kept ++ c, written_concat kept c⟩

/-- The result is a front that has been written, a gap between the pointers, and the rest
that has not been read. -/
structure Holds (s : Scan) (front gap rest : List Byte) : Prop where
  result : s.result = front ++ (gap ++ (rest ++ [0]))
  dst : s.dst = front.length
  src : s.src = front.length + gap.length
  noNul : (0 : Byte) ∉ front ++ rest

/-- The fence is the slash behind the components that lead up. -/
def Fenced (s : Scan) (kept : List Name) : Prop :=
  ∃ ups downs, kept = List.replicate ups dots ++ downs ∧ (∀ c ∈ downs, Down dot c ∧ slash ∉ c) ∧
    s.fence + 1 = (written (List.replicate ups dots)).length

/-- The scan after a character has been copied. -/
def copied (s : Scan) : Scan :=
  { s with result := s.result.set s.dst (s.result.getD s.src 0), src := s.src + 1, dst := s.dst + 1 }

theorem Holds.copy {s : Scan} {front gap rest : List Byte} {c : Byte}
    (holds : Holds s front gap (c :: rest)) :
    s.result.getD s.src 0 = c ∧ ∃ gap', Holds (copied s) (front ++ [c]) gap' rest := by
  have read : s.result.getD s.src 0 = c := by
    have here := getD_append (front ++ gap) (c :: rest ++ [0]) 0
    rw [Nat.add_zero, List.length_append, List.append_assoc, ← holds.result, ← holds.src] at here
    exact here
  have noNul : (0 : Byte) ∉ front ++ [c] ++ rest := by
    rw [List.append_assoc]
    exact holds.noNul
  refine ⟨read, ?_⟩
  cases gap with
  | nil =>
      refine ⟨[], ?_, ?_, ?_, noNul⟩
      · simp only [copied]
        rw [read, holds.result, holds.dst, List.set_append_right _ _ (Nat.le_refl _), Nat.sub_self]
        simp
      · simp [copied, holds.dst]
      · simp [copied, holds.src]
  | cons g gap =>
      refine ⟨gap ++ [c], ?_, ?_, ?_, noNul⟩
      · simp only [copied]
        rw [read, holds.result, holds.dst, List.set_append_right _ _ (Nat.le_refl _), Nat.sub_self]
        simp
      · simp [copied, holds.dst]
      · simp only [copied, holds.src, List.length_cons, List.length_append, List.length_nil]
        omega

/-- Components are taken off the front. -/
theorem Holds.shrink {s : Scan} {front junk gap rest : List Byte}
    (holds : Holds s (front ++ junk) gap rest) :
    Holds { s with dst := front.length } front (junk ++ gap) rest where
  result := by
    simp only []
    rw [holds.result, List.append_assoc, List.append_assoc]
  dst := rfl
  src := by
    simp only []
    rw [holds.src, List.length_append, List.length_append, Nat.add_assoc]
  noNul := by
    intro nul
    rcases List.mem_append.mp nul with old | unread
    · exact holds.noNul (List.mem_append_left _ (List.mem_append_left _ old))
    · exact holds.noNul (List.mem_append_right _ unread)

theorem Fenced.down {s : Scan} {kept : List Name} (fenced : Fenced s kept) {c : Name}
    (down : Down dot c) (simple : slash ∉ c) : Fenced s (push dot kept c) := by
  obtain ⟨ups, downs, rfl, all, fence⟩ := fenced
  rw [push_down _ down]
  refine ⟨ups, downs ++ [c], List.append_assoc _ _ _, fun d inside => ?_, fence⟩
  rcases List.mem_append.mp inside with old | new
  · exact all d old
  · exact List.mem_singleton.mp new ▸ ⟨down, simple⟩

/-! ## The component before a slash -/

section Compact

variable {s : Scan} {t t' t'' : Nat} {c : Byte}

theorem compact_slash (first : before s.result (s.dst - 1) = some (slash, t)) :
    compact s = some { s with dst := t + 1 } := by
  rw [compact, first]
  rfl

theorem compact_other (first : before s.result (s.dst - 1) = some (c, t)) (noSlash : c ≠ slash)
    (noDot : c ≠ dot) : compact s = some s := by
  rw [compact, first]
  simp only [Option.bind_eq_bind, Option.bind_some, if_neg noSlash, if_neg noDot]

theorem compact_dot_slash (first : before s.result (s.dst - 1) = some (dot, t))
    (second : before s.result t = some (slash, t')) :
    compact s = some { s with dst := t' + 1 } := by
  rw [compact, first]
  simp only [Option.bind_eq_bind, Option.bind_some, second]
  rfl

theorem compact_dot_other (first : before s.result (s.dst - 1) = some (dot, t))
    (second : before s.result t = some (c, t')) (noSlash : c ≠ slash) (noDot : c ≠ dot) :
    compact s = some s := by
  rw [compact, first]
  simp only [Option.bind_eq_bind, Option.bind_some, second, if_neg noSlash, if_neg noDot]
  rfl

theorem compact_dots_other (first : before s.result (s.dst - 1) = some (dot, t))
    (second : before s.result t = some (dot, t')) (third : before s.result t' = some (c, t''))
    (noSlash : c ≠ slash) : compact s = some s := by
  rw [compact, first]
  simp only [Option.bind_eq_bind, Option.bind_some, second, third, if_neg noSlash]
  rfl

theorem compact_dots_slash (first : before s.result (s.dst - 1) = some (dot, t))
    (second : before s.result t = some (dot, t')) (third : before s.result t' = some (slash, t'')) :
    compact s = if t'' = s.fence then some { s with fence := s.dst - 1 }
      else (back s.result t'').map fun t => { s with dst := t + 1 } := by
  rw [compact, first]
  simp only [Option.bind_eq_bind, Option.bind_some, second, third, if_true,
    if_neg (show dot ≠ slash by decide)]
  cases back s.result t'' <;> rfl

end Compact

/-- A component that leads down stays. -/
theorem Holds.stays {kept : List Name} {part gap rest : List Byte} {s : Scan}
    (holds : Holds s (written kept ++ part ++ [slash]) gap rest) (fenced : Fenced s kept)
    (down : Down dot part) (simple : slash ∉ part) :
    ∃ gap', Holds s (written (push dot kept part)) gap' rest ∧ Fenced s (push dot kept part) := by
  refine ⟨gap, ?_, fenced.down down simple⟩
  rw [push_down _ down, written_concat]
  exact holds

/-- A component that does not count is taken off. -/
theorem Holds.drops {kept : List Name} {part gap rest : List Byte} {s : Scan}
    (holds : Holds s (written kept ++ part ++ [slash]) gap rest) (fenced : Fenced s kept)
    (same : push dot kept part = kept) {t : Nat} (at_ : t + 1 = (written kept).length) :
    ∃ gap', Holds { s with dst := t + 1 } (written (push dot kept part)) gap' rest ∧
      Fenced { s with dst := t + 1 } (push dot kept part) := by
  rw [List.append_assoc] at holds
  rw [same, at_]
  exact ⟨_, holds.shrink, fenced⟩

/-- Two dots behind components that lead up stay, and the fence is moved behind them. -/
theorem Holds.climbs {ups : Nat} {gap rest : List Byte} {s : Scan}
    (holds : Holds s (written (List.replicate ups dots) ++ dots ++ [slash]) gap rest) :
    ∃ gap', Holds { s with fence := s.dst - 1 }
        (written (push dot (List.replicate ups dots) dots)) gap' rest ∧
      Fenced { s with fence := s.dst - 1 } (push dot (List.replicate ups dots) dots) := by
  have more : push dot (List.replicate ups dots) dots = List.replicate ups dots ++ [dots] :=
    (push_up ups).trans List.replicate_succ'
  rw [more, written_concat]
  refine ⟨gap, ⟨holds.result, holds.dst, holds.src, holds.noNul⟩, ups + 1, [], ?_, ?_, ?_⟩
  · rw [List.append_nil, List.replicate_succ']
  · exact fun _ inside => by cases inside
  · rw [List.replicate_succ', written_concat, ← holds.dst]
    have positive : 0 < s.dst := by
      rw [holds.dst, List.length_append]
      exact Nat.succ_pos _
    exact Nat.sub_add_cancel positive

/-- Two dots behind a component that leads down take it off. -/
theorem Holds.backs {ups : Nat} {downs : List Name} {last : Name} {gap rest : List Byte} {s : Scan}
    (holds : Holds s (written (List.replicate ups dots ++ (downs ++ [last])) ++ dots ++ [slash])
      gap rest)
    (all : ∀ c ∈ downs ++ [last], Down dot c ∧ slash ∉ c)
    (fence : s.fence + 1 = (written (List.replicate ups dots)).length) {t : Nat}
    (at_ : t + 1 = (written (List.replicate ups dots ++ downs)).length) :
    ∃ gap', Holds { s with dst := t + 1 }
        (written (push dot (List.replicate ups dots ++ (downs ++ [last])) dots)) gap' rest ∧
      Fenced { s with dst := t + 1 }
        (push dot (List.replicate ups dots ++ (downs ++ [last])) dots) := by
  have down := (all last (List.mem_append_right _ List.mem_cons_self)).1
  have less : push dot (List.replicate ups dots ++ (downs ++ [last])) dots =
      List.replicate ups dots ++ downs := by
    rw [← List.append_assoc]
    exact push_back _ down
  rw [← List.append_assoc, written_concat, List.append_assoc, List.append_assoc,
    List.append_assoc] at holds
  rw [less, at_]
  exact ⟨_, holds.shrink, ups, downs, rfl, fun c inside => all c (List.mem_append_left _ inside),
    fence⟩

theorem down_concat (q : Name) {c : Byte} (other : c ≠ dot) : Down dot (q ++ [c]) := by
  refine ⟨by simp, fun same => ?_, fun same => ?_⟩
  all_goals
    have last := congrArg List.getLast? same
    rw [List.getLast?_concat] at last
    exact other (Option.some.inj last)

theorem down_dot {q : Name} (filled : q ≠ []) (other : q ≠ [dot]) : Down dot (q ++ [dot]) :=
  ⟨by simp, fun same => filled (List.append_cancel_right (show q ++ [dot] = [] ++ [dot] from same)),
    fun same => other (List.append_cancel_right (show q ++ [dot] = [dot] ++ [dot] from same))⟩

/-- What is done at a slash. -/
theorem compact_spec {s : Scan} {kept : List Name} {part gap rest : List Byte}
    (holds : Holds s (written kept ++ part ++ [slash]) gap rest) (fenced : Fenced s kept)
    (simple : slash ∉ part) :
    ∃ s' gap', compact s = some s' ∧ Holds s' (written (push dot kept part)) gap' rest ∧
      Fenced s' (push dot kept part) := by
  have result := holds.result
  have dst := holds.dst
  obtain ⟨u, ends⟩ := written_ends kept
  have length := congrArg List.length ends
  rw [List.length_append, List.length_singleton] at length
  -- the character before the component is a slash
  have slashed : ∀ {t}, t = (written kept).length → before s.result t = some (slash, u.length) := by
    intro t same
    have bytes : s.result = u ++ slash :: (part ++ [slash] ++ (gap ++ (rest ++ [0]))) := by
      rw [result, ends]
      simp
    exact before_append bytes (same.trans length)
  -- a character inside the component
  have inside : ∀ {front back : List Byte} {x : Byte} {t}, part = front ++ x :: back →
      t = (written kept ++ front).length + 1 →
      before s.result t = some (x, (written kept ++ front).length) := by
    intro front back x t split same
    have bytes : s.result =
        (written kept ++ front) ++ x :: (back ++ [slash] ++ (gap ++ (rest ++ [0]))) := by
      rw [result, split]
      simp
    exact before_append bytes same
  cases part using List.reverseRecOn with
  | nil =>
      rw [compact_slash (slashed (by rw [dst]; simp))]
      obtain ⟨gap', kept'⟩ := holds.drops fenced (push_empty kept) length.symm
      exact ⟨_, gap', rfl, kept'⟩
  | append_singleton q c =>
      have noSlash : c ≠ slash := fun same => simple (by simp [same])
      have first : before s.result (s.dst - 1) = some (c, (written kept ++ q).length) :=
        inside rfl (by rw [dst]; simp [Nat.add_assoc])
      by_cases dotted : c = dot
      · subst dotted
        cases q using List.reverseRecOn with
        | nil =>
            rw [compact_dot_slash first (slashed (by simp))]
            obtain ⟨gap', kept'⟩ := holds.drops fenced (push_dot kept) length.symm
            exact ⟨_, gap', rfl, kept'⟩
        | append_singleton r d =>
            have noSlash' : d ≠ slash := fun same => simple (by simp [same])
            have second : before s.result (written kept ++ (r ++ [d])).length =
                some (d, (written kept ++ r).length) :=
              inside (List.append_assoc _ _ _) (by simp [Nat.add_assoc])
            by_cases dotted' : d = dot
            · subst dotted'
              cases r using List.reverseRecOn with
              | nil =>
                  rw [compact_dots_slash first second (slashed (by simp))]
                  obtain ⟨ups, downs, rfl, all, fence⟩ := fenced
                  cases downs using List.reverseRecOn with
                  | nil =>
                      rw [List.append_nil] at holds length
                      rw [List.append_nil, if_pos (by omega)]
                      obtain ⟨gap', kept'⟩ := holds.climbs
                      exact ⟨_, gap', rfl, kept'⟩
                  | append_singleton downs last =>
                      obtain ⟨v, ends'⟩ := written_ends (List.replicate ups dots ++ downs)
                      have length' := congrArg List.length ends'
                      rw [List.length_append, List.length_singleton] at length'
                      have longer := length
                      rw [← List.append_assoc, written_concat, List.length_append,
                        List.length_append, List.length_singleton] at longer
                      have atLeast : (written (List.replicate ups dots)).length ≤
                          (written (List.replicate ups dots ++ downs)).length := by
                        simp [written]
                      have bytes : s.result = v ++ slash :: (last ++ ([slash] ++ (dots ++ [slash]) ++
                          (gap ++ (rest ++ [0])))) := by
                        rw [result, ← List.append_assoc (List.replicate ups dots), written_concat,
                          ends']
                        simp [dots]
                      have found : back s.result u.length = some v.length :=
                        back_append (all last (by simp)).2 bytes (by omega)
                      rw [if_neg (by omega), found]
                      obtain ⟨gap', kept'⟩ := holds.backs all fence length'.symm
                      exact ⟨_, gap', rfl, kept'⟩
              | append_singleton r e =>
                  have noSlash'' : e ≠ slash := fun same => simple (by simp [same])
                  have third : before s.result (written kept ++ (r ++ [e])).length =
                      some (e, (written kept ++ r).length) :=
                    inside (by rw [List.append_assoc, List.append_assoc]; rfl)
                      (by simp [Nat.add_assoc])
                  rw [compact_dots_other first second third noSlash'']
                  have down : Down dot (r ++ [e] ++ [dot] ++ [dot]) := by
                    refine down_dot (by simp) fun same => ?_
                    have less := List.append_cancel_right (show r ++ [e] ++ [dot] = [] ++ [dot] from same)
                    simp at less
                  obtain ⟨gap', kept'⟩ := holds.stays fenced down simple
                  exact ⟨s, gap', rfl, kept'⟩
            · rw [compact_dot_other first second noSlash' dotted']
              have down : Down dot (r ++ [d] ++ [dot]) :=
                down_dot (by simp) fun same => (down_concat r dotted').2.1 same
              obtain ⟨gap', kept'⟩ := holds.stays fenced down simple
              exact ⟨s, gap', rfl, kept'⟩
      · rw [compact_other first noSlash dotted]
        obtain ⟨gap', kept'⟩ := holds.stays fenced (down_concat q dotted) simple
        exact ⟨s, gap', rfl, kept'⟩

/-! ## The loop -/

/-- What the loop has kept, and the part of a component at the end. -/
def finish (kept : List Name) (part : Name) : List Byte → List Name × Name
  | [] => (kept, part)
  | c :: rest => if c = slash then finish (push dot kept part) [] rest else finish kept (part ++ [c]) rest

theorem scan_spec {turns : Nat} {s : Scan} {kept : List Name} {part gap rest : List Byte}
    (holds : Holds s (written kept ++ part) gap rest) (fenced : Fenced s kept)
    (simple : slash ∉ part) (enough : rest.length ≤ turns) :
    ∃ s' gap', scan turns s = some s' ∧
      Holds s' (written (finish kept part rest).1 ++ (finish kept part rest).2) gap' [] := by
  induction turns generalizing s kept part gap rest with
  | zero =>
      obtain rfl := List.length_eq_zero_iff.mp (Nat.le_zero.mp enough)
      exact ⟨s, gap, rfl, holds⟩
  | succ turns ih =>
      cases rest with
      | nil =>
          have read : s.result.getD s.src 0 = 0 := by
            have here := getD_append (written kept ++ part ++ gap) ([] ++ [0]) 0
            rwa [Nat.add_zero, List.length_append, List.append_assoc, ← holds.result,
              ← holds.src] at here
          exact ⟨s, gap, by rw [scan, if_pos read], holds⟩
      | cons c rest =>
          obtain ⟨read, gap', holds'⟩ := holds.copy
          have filled : c ≠ 0 := fun zero => holds.noNul (by simp [zero])
          have fenced' : Fenced (copied s) kept := fenced
          rw [scan, read, if_neg filled, finish]
          have next : turn s = if c = slash then compact (copied s) else some (copied s) := by
            simp only [turn, read, copied]
          rw [next]
          have fits : rest.length ≤ turns := Nat.le_of_succ_le_succ enough
          split
          next same =>
            subst same
            obtain ⟨s', gap'', compacted, kept', fenced''⟩ := compact_spec holds' fenced' simple
            rw [compacted]
            rw [← List.append_nil (written _)] at kept'
            exact ih kept' fenced'' (List.not_mem_nil) fits
          next other =>
            rw [List.append_assoc] at holds'
            refine ih holds' fenced' ?_ fits
            rw [List.mem_append, List.mem_singleton, not_or]
            exact ⟨simple, Ne.symm other⟩

/-- At a slash at the end all components have been taken in turn. -/
theorem finish_steps (kept : List Name) {part : Name} (simple : slash ∉ part) (text : List Byte) :
    finish kept part (text ++ [slash]) = ((steps (part ++ text)).foldl (push dot) kept, []) := by
  induction text generalizing kept part with
  | nil => rw [List.append_nil, steps, List.splitOn_eq_singleton simple]; rfl
  | cons c text ih =>
      rw [List.cons_append, finish]
      split
      next same =>
        subst same
        rw [ih _ List.not_mem_nil, steps, steps, List.splitOn_append_cons_self,
          List.splitOn_eq_singleton simple]
        rfl
      next other =>
        rw [ih kept (by rw [List.mem_append, List.mem_singleton, not_or]; exact ⟨simple, Ne.symm other⟩),
          List.append_assoc]
        rfl

/-! ## The result of the code -/

theorem written_absolute (kept : List Name) :
    written kept = if kept = [] then absolute slash kept else absolute slash kept ++ [slash] := by
  induction kept using List.reverseRecOn with
  | nil => rfl
  | append_singleton kept c ih =>
      have filled : kept ++ [c] ≠ [] := by simp
      rw [written_concat, ih, if_neg filled, absolute, absolute, if_neg filled]
      cases kept <;> simp

/-- The last slash goes, unless it is the first one. -/
theorem stringAt_written {s : Scan} {kept : List Name} {gap : List Byte}
    (holds : Holds s (written kept) gap []) :
    stringAt (if 0 < s.dst - 1 ∧ (s.result.set s.dst 0).getD (s.dst - 1) 0 = slash
      then (s.result.set s.dst 0).set (s.dst - 1) 0 else s.result.set s.dst 0) 0 =
      absolute slash kept := by
  obtain ⟨g, tail, behind⟩ : ∃ g tail, gap ++ ([] ++ [(0 : Byte)]) = g :: tail := by
    cases gap with
    | nil => exact ⟨_, _, rfl⟩
    | cons g gap => exact ⟨_, _, rfl⟩
  have ended : s.result.set s.dst 0 = written kept ++ 0 :: tail := by
    rw [holds.result, holds.dst, behind, List.set_append_right _ _ (Nat.le_refl _), Nat.sub_self]
    rfl
  have noNul : (0 : Byte) ∉ written kept := fun nul => holds.noNul (List.mem_append_left _ nul)
  rw [ended, holds.dst]
  by_cases empty : kept = []
  · subst empty
    rw [if_neg fun both => Nat.lt_irrefl 0 both.1]
    exact stringAt_append [] noNul tail
  · have ends : written kept = absolute slash kept ++ [slash] := by
      rw [written_absolute, if_neg empty]
    have filled : absolute slash kept ≠ [] := by
      rw [absolute, if_neg empty]
      cases kept with
      | nil => exact absurd rfl empty
      | cons c kept => simp
    have noNul' : (0 : Byte) ∉ absolute slash kept := fun nul =>
      noNul (ends ▸ List.mem_append_left _ nul)
    have last : ((absolute slash kept ++ [slash]) ++ 0 :: tail).getD (absolute slash kept).length 0 =
        slash := by
      have here := getD_append (absolute slash kept) (slash :: 0 :: tail) 0
      rw [Nat.add_zero] at here
      rw [List.append_assoc]
      exact here
    rw [ends, List.length_append, List.length_singleton, Nat.add_sub_cancel,
      if_pos ⟨List.length_pos_iff.mpr filled, last⟩, List.append_assoc,
      List.set_append_right _ _ (Nat.le_refl _), Nat.sub_self]
    exact stringAt_append [] noNul' (0 :: tail)

/-- The whole name, whose components are taken in turn. -/
def whole (curwd name : CString) : Name :=
  (if name.data.head? = some slash then [] else curwd.data ++ [slash]) ++ name.data

theorem whole_absolute {curwd : CString} (isAbsolute : curwd.data.head? = some slash)
    (name : CString) : ∃ body, whole curwd name = slash :: body := by
  rw [whole]
  split
  next first =>
    obtain ⟨rest, same⟩ := List.head?_eq_some_iff.mp first
    exact ⟨rest, same⟩
  next =>
    obtain ⟨rest, same⟩ := List.head?_eq_some_iff.mp isAbsolute
    rw [same]
    exact ⟨_, rfl⟩

theorem noNul_whole (curwd name : CString) : (0 : Byte) ∉ whole curwd name := by
  rw [whole, List.mem_append]
  rintro (nul | nul)
  · split at nul
    · cases nul
    · rcases List.mem_append.mp nul with there | there
      · exact curwd.noNul there
      · exact absurd (List.mem_singleton.mp there) (by decide)
  · exact name.noNul nul

theorem steps_cons (body : Name) : steps (slash :: body) = [] :: steps body :=
  List.splitOn_append_cons_self [] body

theorem abspath_eq {curwd name : CString} {body : Name} (begins : whole curwd name = slash :: body) :
    abspath curwd name = some (absolute slash (settle dot (steps (whole curwd name)))) := by
  have noNul := noNul_whole curwd name
  have text : start curwd name = slash :: (body ++ [slash]) := by
    rw [start, ← whole, begins]
    rfl
  have first : firstSlash (start curwd name ++ [0]) = some 0 := by
    rw [text]
    rfl
  have nothing : (0 : Byte) ∉ [slash] ++ (body ++ [slash]) := by
    rw [begins] at noNul
    rw [← List.append_assoc, List.mem_append, List.mem_singleton]
    rintro (nul | nul)
    · exact noNul nul
    · exact absurd nul (by decide)
  have begun : Holds ⟨start curwd name ++ [0], 0 + 1, 0 + 1, 0⟩ (written [] ++ []) []
      (body ++ [slash]) := ⟨by rw [text]; rfl, rfl, rfl, nothing⟩
  obtain ⟨s, gap, ran, holds⟩ := scan_spec begun
    ⟨0, [], rfl, (fun _ inside => by cases inside), rfl⟩ List.not_mem_nil
    (show _ ≤ (start curwd name).length by rw [text]; exact Nat.le_succ _)
  rw [finish_steps [] List.not_mem_nil body, List.nil_append, List.append_nil] at holds
  rw [abspath, first]
  simp only [ran, Option.map_some]
  rw [stringAt_written holds, settle, begins, steps_cons, List.foldl_cons, push_empty]

/-! ## Canonical names -/

/-- A name begins with a slash, has no other slash than before its components, and these are
none that could be left out: the ones that lead up come first. -/
structure Canonical (result : Name) : Prop where
  first : result.head? = some slash
  last : result ≠ [slash] → result.getLast? ≠ some slash
  steps : result ≠ [slash] → ∃ kept, steps result = [] :: kept ∧ Settled dot kept ∧
    [] ∉ kept ∧ [dot] ∉ kept

theorem settle_simple {s : Name} {c : Name} (inside : c ∈ settle dot (steps s)) : slash ∉ c :=
  sep_not_mem_splitOn s (mem_settle inside)

theorem settled_filled {kept : List Name} (settled : Settled dot kept) :
    [] ∉ kept ∧ [dot] ∉ kept := by
  obtain ⟨ups, downs, rfl, all⟩ := settled
  constructor
  all_goals
    intro inside
    rcases List.mem_append.mp inside with up | down
    · cases List.eq_of_mem_replicate up
    · first
        | exact (all _ down).1 rfl
        | exact (all _ down).2.1 rfl

theorem canonical_absolute {kept : List Name} (settled : Settled dot kept)
    (simple : ∀ c ∈ kept, slash ∉ c) : Canonical (absolute slash kept) := by
  have filled := settled_filled settled
  rw [absolute]
  split
  next => exact ⟨rfl, fun other => absurd rfl other, fun other => absurd rfl other⟩
  next some =>
    refine ⟨?_, fun _ => ?_, fun _ => ⟨kept, splitOn_flatMap simple, settled, filled⟩⟩
    · cases kept with
      | nil => exact absurd rfl some
      | cons c kept => rfl
    · cases kept using List.reverseRecOn with
      | nil => exact absurd rfl some
      | append_singleton kept c =>
          have there : c ≠ [] := fun empty => filled.1 (empty ▸ by simp)
          rw [List.flatMap_append, List.flatMap_singleton, List.getLast?_append_cons,
            List.getLast?_cons_of_ne_nil there]
          exact fun same => simple c (by simp) (List.mem_of_getLast? same)

/-- A canonical name stays as it is. -/
theorem abspath_absolute {kept : List Name} (settled : Settled dot kept)
    (simple : ∀ c ∈ kept, slash ∉ c) (curwd : CString) {name : CString}
    (same : name.data = absolute slash kept) : abspath curwd name = some name.data := by
  have first := (canonical_absolute settled simple).first
  have alone : whole curwd name = absolute slash kept := by
    rw [whole, same, if_pos first]
    rfl
  obtain ⟨body, begins⟩ := List.head?_eq_some_iff.mp first
  rw [abspath_eq (alone.trans begins), alone, same]
  congr 2
  rw [absolute]
  split
  next empty =>
    subst empty
    rfl
  next =>
    rw [steps, splitOn_flatMap simple, settle, List.foldl_cons, push_empty]
    exact settle_of_settled settled

theorem abspath_noNul {curwd name : CString} {result : Name}
    (ran : abspath curwd name = some result) : (0 : Byte) ∉ result := by
  rw [abspath, Option.map_eq_some_iff] at ran
  obtain ⟨s, -, rfl⟩ := ran
  exact fun nul => absurd (List.mem_takeWhile_imp nul) (by decide)

/-- `abspath` leaves out what can be left out. -/
theorem abspath_spec {curwd : CString} (isAbsolute : curwd.data.head? = some slash)
    (name : CString) :
    ∃ result : CString, abspath curwd name = some result.data ∧
      result.data = absolute slash (settle dot (steps (whole curwd name))) ∧
      Canonical result.data ∧ result.data.length ≤ (whole curwd name).length ∧
      ∀ curwd', abspath curwd' result = some result.data := by
  obtain ⟨body, begins⟩ := whole_absolute isAbsolute name
  have settled : Settled dot (settle dot (steps (whole curwd name))) := settled_settle _
  have simple : ∀ c ∈ settle dot (steps (whole curwd name)), slash ∉ c :=
    fun c inside => settle_simple inside
  have noNul := abspath_noNul (abspath_eq begins)
  refine ⟨⟨_, noNul⟩, abspath_eq begins, rfl, canonical_absolute settled simple, ?_,
    fun curwd' => abspath_absolute settled simple curwd' rfl⟩
  have less : settle dot (steps (whole curwd name)) = settle dot (steps body) := by
    rw [begins, steps_cons, settle, List.foldl_cons, push_empty, ← settle]
  have bound : size (settle dot (steps body)) ≤ size (steps body) := size_settle_le _
  rw [steps, size_splitOn, ← steps] at bound
  have length : (whole curwd name).length = body.length + 1 := by rw [begins, List.length_cons]
  change (absolute slash (settle dot (steps (whole curwd name)))).length ≤ _
  rw [less, length, absolute]
  split
  · exact Nat.succ_pos _
  · rw [length_flatMap]
    exact bound

/-- The directory `/u`. -/
def home : CString := ⟨[47, 117], by decide⟩

/-- The name `a/../b`. -/
def detour : CString := ⟨[97, 47, 46, 46, 47, 98], by decide⟩

theorem abspath_detour : abspath home detour = some [47, 117, 47, 98] ∧
    ∃ result : CString, abspath home detour = some result.data ∧
      result.data = absolute slash (settle dot (steps (whole home detour))) ∧
      Canonical result.data ∧ result.data.length ≤ (whole home detour).length ∧
      ∀ curwd', abspath curwd' result = some result.data :=
  ⟨by decide, abspath_spec rfl detour⟩

end MachFormal.Libcs.Abspath
