import MachFormal.Libcs.Termination
import MachFormal.Libcs.Wildcards

/-!
# What expand finds

On a specification whose brackets are closed, `glob` stores the names that exist and along
which the specification can be read.  Its routines are followed through the tokens of the
specification: the loops over a brace find the alternatives, and `amatch` takes the ways to
read a component in turn, descends behind a slash and stops at the first way that takes the
whole name.
-/

namespace MachFormal.Libcs.Globbing

open Library Expand Wildcards
open Wildcards.Token (byte set)

/-- A path to which the name of an entry can be added. -/
def Base (d : Text) : Prop := d = [] ∨ ∃ v, d = v ++ [slash]

/-- A file system, as the system's answers show it.  Names are made of characters that the
kernel accepts, directories can be read, and the empty path is the current directory. -/
structure FileSystem extends Calls where
  plain {p : Text} : lstat p = true → ∀ c ∈ p, Plain c
  current : isDir [] = true
  found {p : Text} : isDir p = true → lstat p = true
  through {front rest : Text} : lstat (front ++ slash :: rest) = true →
    isDir (front ++ [slash]) = true
  ancestor {front rest : Text} : lstat (front ++ slash :: rest) = true → lstat front = true
  readable {d : Text} : isDir d = true → ∃ entries, opendir d = some entries
  listed {d : Text} {entries : List Direct} (n : Text) : Base d → isDir d = true →
    opendir d = some entries →
    ((∃ dp ∈ entries, dp.ino ≠ 0 ∧ dp.name = n) ↔ n ≠ [] ∧ slash ∉ n ∧ lstat (d ++ n) = true)

/-! ## Classes -/

theorem toInt_plain {c : Byte} (small : c.toNat < 128) : c.toInt = c.toNat :=
  BitVec.toInt_eq_toNat_of_lt (by omega)

theorem inClass_closing (scc : Int) (ok : Bool) (lc : Int) (p : Text) :
    inClass scc ok lc (closing :: p) = if ok then .passed p else .refused := by
  rw [inClass.eq_def]
  exact if_pos rfl

theorem inClass_cons {cc : Byte} (apart : cc ≠ closing) (solid : cc ≠ dash) (scc : Int)
    (ok : Bool) (lc : Int) (p : Text) :
    inClass scc ok lc (cc :: p) =
      inClass scc (ok || decide (scc = cc.toInt)) cc.toInt p := by
  rw [inClass.eq_def]
  exact (if_neg apart).trans (if_neg solid)

/-- A range whose lower end is not above the character. -/
theorem inClass_dash {scc lc : Int} (above : lc ≤ scc) (ok : Bool) (high : Byte) (p : Text) :
    inClass scc ok lc (dash :: high :: p) =
      inClass scc (ok || decide (scc ≤ high.toInt)) lc p := by
  rw [inClass.eq_def]
  exact if_pos above

/-- Of another range the upper end is not taken. -/
theorem inClass_skip {scc lc : Int} (below : ¬lc ≤ scc) (ok : Bool) (p : Text) :
    inClass scc ok lc (dash :: p) = inClass scc ok lc p := by
  rw [inClass.eq_def]
  exact if_neg below

theorem inClass_listed {c : Byte} {l : List Listed}
    (proper : ∀ x ∈ l, x.Proper) (ok : Bool) (lc : Int) (r : Text) :
    inClass c.toNat ok lc (l.flatMap Listed.text ++ closing :: r) =
      if ok || l.any (Listed.has c) then .passed r else .refused := by
  induction l generalizing ok lc with
  | nil =>
      rw [List.flatMap_nil, List.nil_append, inClass_closing, List.any_nil, Bool.or_false]
  | cons x l ih =>
      obtain ⟨here, later⟩ := List.forall_mem_cons.mp proper
      rw [List.flatMap_cons, List.append_assoc, List.any_cons, ← Bool.or_assoc]
      cases x with
      | one d =>
          obtain ⟨plain, apart, solid⟩ := here
          rw [Listed.text, List.singleton_append, inClass_cons apart solid, ih later]
          have same : decide ((c.toNat : Int) = d.toInt) = Listed.has c (.one d) := by
            rw [toInt_plain plain.2, Listed.has]
            exact decide_eq_decide.mpr ⟨fun e => BitVec.eq_of_toNat_eq (by omega),
              fun e => by rw [e]⟩
          rw [same]
      | range low high =>
          obtain ⟨plain, plain', ascends, apart, solid, apart'⟩ := here
          have lowInt := toInt_plain plain.2
          have highInt := toInt_plain plain'.2
          rw [Listed.text, List.cons_append, List.cons_append, List.singleton_append,
            inClass_cons apart solid]
          by_cases above : low.toInt ≤ c.toNat
          · rw [inClass_dash above, ih later]
            have same : (decide ((c.toNat : Int) = low.toInt) ||
                decide ((c.toNat : Int) ≤ high.toInt)) = Listed.has c (.range low high) := by
              rw [Listed.has, ← Bool.decide_or, ← Bool.decide_and]
              exact decide_eq_decide.mpr (by omega)
            rw [← same, Bool.or_assoc ok]
          · have outside : Listed.has c (.range low high) = false := by
              rw [Listed.has, ← Bool.decide_and]
              exact decide_eq_false (by omega)
            have below : decide ((c.toNat : Int) = low.toInt) = false :=
              decide_eq_false (by omega)
            rw [inClass_skip above, outside, below, Bool.or_false]
            by_cases isDash : high = dash
            · rw [isDash, inClass_skip above, ih later]
            · have differs : decide ((c.toNat : Int) = high.toInt) = false :=
                decide_eq_false (by omega)
              rw [inClass_cons apart' isDash, ih later, differs, Bool.or_false]

/-! ## Braces -/

theorem closing_not_mem {l : List Listed} (proper : ∀ x ∈ l, x.Proper) :
    closing ∉ l.flatMap Listed.text := by
  intro inside
  obtain ⟨x, listed, inside⟩ := List.mem_flatMap.mp inside
  have here := proper x listed
  cases x with
  | one d => exact here.2.1 (List.mem_singleton.mp inside).symm
  | range low high =>
      obtain ⟨_, _, _, apart, _, apart'⟩ := here
      rcases List.mem_cons.mp inside with same | inside
      · exact apart same.symm
      · rcases List.mem_cons.mp inside with same | inside
        · exact absurd same (by decide)
        · exact apart' (List.mem_singleton.mp inside).symm

theorem foldr_push (l inside after : Text) :
    l.foldr Group.push (.found inside after) = .found (l ++ inside) after := by
  induction l with
  | nil => rfl
  | cons c l ih =>
      rw [List.foldr_cons, ih]
      rfl

theorem foldr_push_unbalanced (l : Text) : l.foldr Group.push .unbalanced = .unbalanced := by
  induction l with
  | nil => rfl
  | cons c l ih =>
      rw [List.foldr_cons, ih]
      rfl

theorem findEnd_class {body : Text} (closed : closing ∉ body) (lev : Nat) (r : Text) :
    findEnd lev true (body ++ closing :: r) =
      (body ++ [closing]).foldr Group.push (findEnd lev false r) := by
  induction body with
  | nil => rfl
  | cons c body ih =>
      obtain ⟨apart, later⟩ := not_or.mp (mt List.mem_cons.mpr closed)
      have open_ : decide (c ≠ closing) = true := decide_eq_true (Ne.symm apart)
      rw [List.cons_append, findEnd, open_, ih later]
      rfl

theorem set_ne_byte (l : List Listed) (c : Byte) : Token.set l ≠ byte c := by
  intro same
  cases same

/-- The first loop of `execbrc` on a token. -/
theorem findEnd_token {t : Token} (proper : t.Proper) (lev : Nat) (r : Text) :
    findEnd lev false (t.text ++ r) =
      if t = byte unbrace ∧ lev = 0 then .found [] r
      else t.text.foldr Group.push (findEnd (level lev t) false r) := by
  cases t with
  | set l =>
      have isOpening : decide (opening = opening) = true := rfl
      rw [Token.text, List.cons_append, List.cons_append, List.append_assoc,
        List.singleton_append, findEnd, if_neg (by decide), if_neg (by decide), isOpening,
        findEnd_class (closing_not_mem proper), if_neg (by rintro ⟨⟨⟩⟩), level, if_neg (set_ne_byte l _), if_neg (set_ne_byte l _)]
      rfl
  | byte c =>
      rw [Token.text, List.singleton_append, findEnd]
      by_cases isBrace : c = brace
      · subst isBrace
        rfl
      · by_cases isUnbrace : c = unbrace
        · subst isUnbrace
          rw [if_neg isBrace, if_pos rfl]
          by_cases outer : lev = 0
          · rw [if_pos outer, if_pos ⟨rfl, outer⟩]
          · rw [if_neg outer, if_neg fun both => outer both.2]
            rfl
        · have closed : decide (c = opening) = false := decide_eq_false proper.2.1
          rw [if_neg isBrace, if_neg isUnbrace, closed,
            if_neg fun both => isUnbrace (Token.byte.inj both.1), level,
            if_neg fun same => isBrace (Token.byte.inj same),
            if_neg fun same => isUnbrace (Token.byte.inj same)]
          rfl

theorem findEnd_text {ts : List Token} (orderly : Orderly ts) (lev : Nat) :
    findEnd lev false (text ts) =
      match enclosed lev ts with
      | none => .unbalanced
      | some (inside, after) => .found (text inside) (text after) := by
  induction ts generalizing lev with
  | nil => rfl
  | cons t ts ih =>
      obtain ⟨here, later⟩ := List.forall_mem_cons.mp orderly
      rw [text_cons, findEnd_token here, enclosed]
      by_cases ends : t = byte unbrace ∧ lev = 0
      · rw [if_pos ends, if_pos ends]
        rfl
      · rw [if_neg ends, if_neg ends, ih later]
        cases enclosed (level lev t) ts with
        | none => exact foldr_push_unbalanced _
        | some g => exact foldr_push _ _ _

theorem masked {c : Byte} (plain : Plain c) : c &&& 0x7f = c := by
  apply BitVec.eq_of_toNat_eq
  rw [BitVec.toNat_and]
  exact Nat.and_two_pow_sub_one_of_lt_two_pow (n := 7) plain.2

theorem pieces_class {body : Text} (closed : closing ∉ body) (lev : Nat) (pl r : Text) :
    pieces lev true pl (body ++ closing :: r) = pieces lev false (pl ++ (body ++ [closing])) r := by
  induction body generalizing pl with
  | nil => rfl
  | cons c body ih =>
      obtain ⟨apart, later⟩ := not_or.mp (mt List.mem_cons.mpr closed)
      have open_ : decide (c ≠ closing) = true := decide_eq_true (Ne.symm apart)
      rw [List.cons_append, pieces, open_, ih later, List.append_assoc]
      rfl

/-- The second loop of `execbrc` on a token. -/
theorem pieces_token {t : Token} (proper : t.Proper) (lev : Nat) (pl r : Text)
    (inner : ¬(t = byte unbrace ∧ lev = 0)) :
    pieces lev false pl (t.text ++ r) =
      if t = byte comma ∧ lev = 0 then pl :: pieces lev false [] r
      else pieces (level lev t) false (pl ++ t.text) r := by
  cases t with
  | set l =>
      have isOpening : decide (opening &&& 0x7f = opening) = true := rfl
      rw [Token.text, List.cons_append, List.cons_append, List.append_assoc,
        List.singleton_append, pieces, if_neg (by decide), if_neg (by decide), if_neg (by decide),
        isOpening, pieces_class (closing_not_mem proper), if_neg (by rintro ⟨⟨⟩⟩), level,
        if_neg (set_ne_byte l _), if_neg (set_ne_byte l _), List.append_assoc]
      rfl
  | byte c =>
      obtain ⟨plain, apart, _⟩ := proper
      rw [Token.text, List.singleton_append, pieces, masked plain]
      by_cases isBrace : c = brace
      · subst isBrace
        rfl
      · by_cases isUnbrace : c = unbrace
        · subst isUnbrace
          have deep : lev ≠ 0 := fun outer => inner ⟨rfl, outer⟩
          rw [if_neg isBrace, if_pos rfl, if_neg deep]
          rfl
        · have noBrace : byte c ≠ byte brace := fun same => isBrace (Token.byte.inj same)
          have noUnbrace : byte c ≠ byte unbrace := fun same => isUnbrace (Token.byte.inj same)
          rw [if_neg isBrace, if_neg isUnbrace, level, if_neg noBrace, if_neg noUnbrace]
          by_cases isComma : c = comma
          · subst isComma
            rw [if_pos rfl]
            by_cases outer : lev = 0
            · rw [if_pos outer, if_pos ⟨rfl, outer⟩]
            · rw [if_neg outer, if_neg fun both => outer both.2]
          · have closed : decide (c = opening) = false := decide_eq_false apart
            rw [if_neg isComma, closed, if_neg fun both => isComma (Token.byte.inj both.1)]

theorem pieces_text {ts inside after : List Token} (orderly : Orderly ts) {lev : Nat}
    (group : enclosed lev ts = some (inside, after)) (cur : List Token) :
    pieces lev false (text cur) (text inside ++ [unbrace]) =
      (alternatives lev cur inside).map text := by
  induction ts generalizing lev inside cur with
  | nil => cases group
  | cons t ts ih =>
      obtain ⟨here, later⟩ := List.forall_mem_cons.mp orderly
      rw [enclosed] at group
      by_cases ends : t = byte unbrace ∧ lev = 0
      · rw [if_pos ends] at group
        cases group
        rw [ends.2]
        rfl
      · rw [if_neg ends] at group
        obtain ⟨⟨i, a⟩, more, pair⟩ := Option.map_eq_some_iff.mp group
        cases pair
        rw [text_cons, List.append_assoc, pieces_token here _ _ _ ends, alternatives]
        by_cases cut : t = byte comma ∧ lev = 0
        · rw [if_pos cut, if_pos cut, List.map_cons]
          have same : level lev t = lev := by
            rw [level, cut.1]
            rfl
          rw [same] at more
          exact congrArg (text cur :: ·) (ih later more [])
        · rw [if_neg cut, if_neg cut, ← ih later more, text_append, text_cons, text_nil,
            List.append_nil]

/-! ## The routine for one component -/

section Matching

variable (sys : Calls) (glob : Text → State → Storing State)

/-- The ways to read a component, in turn: behind a slash it goes down, and a way that takes the
whole name is the last. -/
def walk : List (Option (List Token)) → State → Storing (Bool × State)
  | [], st => pure (false, st)
  | none :: _, st => pure (true, st)
  | some r :: more, st => do
      let st ← slashed sys glob (text r) st
      walk more st

theorem walk_append (front back : List (Option (List Token))) (st : State) :
    walk sys glob (front ++ back) st = (do
      let (ok, st) ← walk sys glob front st
      if ok then pure (true, st) else walk sys glob back st) := by
  induction front generalizing st with
  | nil => simp only [List.nil_append, walk, pure_bind, Bool.false_eq_true, if_false]
  | cons o front ih =>
      cases o with
      | none => simp only [List.cons_append, walk, pure_bind, if_true]
      | some r => simp only [List.cons_append, walk, bind_assoc, ih]

theorem tryEach_walk {ι : Type} {act : Text → State → Storing (Bool × State)} {f : ι → Text}
    {g : ι → List (Option (List Token))} {l : List ι}
    (short : ∀ i ∈ l, (f i).length ≤ MAXPATHLEN)
    (same : ∀ i ∈ l, ∀ st, act (f i) st = walk sys glob (g i) st) (st : State) :
    tryEach act (l.map f) st = walk sys glob (l.flatMap g) st := by
  induction l generalizing st with
  | nil => rfl
  | cons i l ih =>
      obtain ⟨shortHere, shortLater⟩ := List.forall_mem_cons.mp short
      obtain ⟨here, later⟩ := List.forall_mem_cons.mp same
      rw [List.map_cons, tryEach, if_neg (Nat.not_lt.mpr shortHere), List.flatMap_cons,
        walk_append, here]
      simp only [ih shortLater later]

theorem eachTail_walk {act : Text → State → Storing (Bool × State)}
    {g : Text → List (Option (List Token))} {s : Text}
    (same : ∀ s' ∈ tails s, ∀ st, act s' st = walk sys glob (g s') st) (st : State) :
    eachTail act s st = walk sys glob ((tails s).flatMap g) st := by
  induction s generalizing st with
  | nil => rfl
  | cons c s ih =>
      rw [tails] at same
      obtain ⟨here, later⟩ := List.forall_mem_cons.mp same
      rw [eachTail, tails, List.flatMap_cons, walk_append, here]
      simp only [ih later]

theorem text_ne_nil (t : Token) (ts : List Token) : text (t :: ts) ≠ [] := by
  cases t <;> nofun

theorem text_eq_nil {ts : List Token} : text ts = [] ↔ ts = [] := by
  cases ts with
  | nil => exact ⟨fun _ => rfl, fun _ => rfl⟩
  | cons t ts => exact ⟨fun empty => absurd empty (text_ne_nil t ts), nofun⟩

theorem head_text {ts : List Token} {c : Byte} (other : c ≠ opening) :
    (text ts).head? = some c ↔ ts.head? = some (byte c) := by
  cases ts with
  | nil => exact ⟨nofun, nofun⟩
  | cons t ts =>
      cases t with
      | byte d => simp only [text_byte, List.head?_cons, Option.some.injEq, Token.byte.injEq]
      | set l =>
          refine ⟨fun same => absurd (Option.some.inj same).symm other, nofun⟩

theorem Orderly.sublist {ts ts' : List Token} (orderly : Orderly ts) (part : ts'.Sublist ts) :
    Orderly ts' :=
  fun t inside => orderly t (part.subset inside)

theorem length_text_sublist {ts ts' : List Token} (part : ts'.Sublist ts) :
    (text ts').length ≤ (text ts).length := by
  induction part with
  | slnil => exact Nat.le_refl _
  | cons t part ih =>
      rw [text_cons, List.length_append]
      exact Nat.le_trans ih (Nat.le_add_left _ _)
  | cons_cons t part ih =>
      rw [text_cons, text_cons, List.length_append, List.length_append]
      exact Nat.add_le_add_left ih _

/-- `execbrc` tries the alternatives, each between what stands before the brace and behind
it. -/
theorem execbrc_text {act : Text → State → Storing (Bool × State)} {u r : List Token}
    (literal : ∀ t ∈ u, t.literal = true) (orderly : Orderly r) (st : State) :
    execbrc act (text u ++ brace :: text r) st =
      match enclosed 0 r with
      | none => pure (false, st)
      | some (inside, after) =>
          tryEach act ((alternatives 0 [] inside).map fun alt => text (u ++ (alt ++ after))) st := by
  have apart : ∀ c ∈ text u, decide (c ≠ brace) = true := by
    intro c inside
    obtain ⟨t, listed, inside⟩ := List.mem_flatMap.mp inside
    have plain := literal t listed
    cases t with
    | set l => cases plain
    | byte d =>
        obtain rfl := List.mem_singleton.mp inside
        refine decide_eq_true ?_
        rintro rfl
        cases plain
  have front : (text u ++ brace :: text r).takeWhile (fun c => decide (c ≠ brace)) = text u := by
    rw [List.takeWhile_append_of_pos apart, List.takeWhile_cons_of_neg (by simp),
      List.append_nil]
  have behind : (text u ++ brace :: text r).drop ((text u).length + 1) = text r := by
    rw [← List.drop_drop, List.drop_left]
    rfl
  rw [execbrc, front, behind, findEnd_text orderly]
  cases group : enclosed 0 r with
  | none => rfl
  | some g =>
      have cut := pieces_text orderly group []
      dsimp only
      rw [text_nil] at cut
      rw [cut, List.map_map]
      refine congrArg (tryEach act · st) (List.map_congr_left fun alt _ => ?_)
      simp only [Function.comp_apply, text_append, List.append_assoc]

theorem not_has_zero {l : List Listed} (proper : ∀ x ∈ l, x.Proper) :
    l.any (Listed.has 0) = false := by
  refine List.any_eq_false.mpr fun x listed => ?_
  have here := proper x listed
  cases x with
  | one d =>
      rw [Listed.has, decide_eq_true_eq]
      rintro rfl
      exact absurd here.1.1 (by decide)
  | range low high =>
      have positive : 0 < low.toNat := here.1.1
      rw [Listed.has, Bool.and_eq_true, decide_eq_true_eq]
      rintro ⟨below, _⟩
      exact Nat.not_lt.mpr below positive

theorem scc_eq {s : Text} (plain : ∀ c ∈ s, Plain c) : s.headD 0 &&& 0x7f = s.headD 0 := by
  cases s with
  | nil => rfl
  | cons c s => exact masked (plain c List.mem_cons_self)

theorem plain_tails {s s' : Text} (plain : ∀ c ∈ s, Plain c) (tail : s' ∈ tails s) :
    ∀ c ∈ s', Plain c := by
  obtain ⟨front, rfl⟩ := mem_tails tail
  exact fun c inside => plain c (List.mem_append_right _ inside)

/-- Of any name `amatch` takes the ways to read it with the pattern in turn. -/
def Reads (fuel : Nat) (ts : List Token) : Prop :=
  ∀ s : Text, (∀ c ∈ s, Plain c) → ∀ st,
    amatch sys glob fuel s (text ts) st = walk sys glob (ways s ts) st

variable {sys glob} {fuel : Nat} {ts : List Token}

theorem reads_nil : Reads sys glob (fuel + 1) [] := by
  intro s plain st
  rw [text_nil, amatch, scc_eq plain, ways]
  cases s with
  | nil => rfl
  | cons c s =>
      have here := plain c List.mem_cons_self
      have nonzero : c ≠ 0 := by
        rintro rfl
        exact absurd here.1 (by decide)
      rw [if_neg (List.cons_ne_nil _ _)]
      exact congrArg (fun b => pure (b, st)) (decide_eq_false nonzero)

theorem reads_set {l : List Listed} (proper : (set l).Proper) (later : Reads sys glob fuel ts) :
    Reads sys glob (fuel + 1) (set l :: ts) := by
  intro s plain st
  have shape : text (set l :: ts) =
      opening :: (l.flatMap Listed.text ++ closing :: text ts) := by
    rw [text_cons, Token.text, List.append_assoc]
    rfl
  rw [shape, amatch, scc_eq plain, if_neg (by decide), if_pos rfl, inClass_listed proper,
    Bool.false_or, ways_set]
  cases s with
  | nil =>
      rw [List.headD_nil, not_has_zero proper]
      rfl
  | cons c s =>
      rw [List.headD_cons]
      by_cases listed : l.any (Listed.has c) = true
      · have rest : ∀ d ∈ s, Plain d := fun d inside => plain d (List.mem_cons_of_mem _ inside)
        simp only [if_pos listed]
        rw [if_neg (List.cons_ne_nil _ _)]
        exact later s rest st
      · simp only [if_neg listed]
        rfl

/-- The alternatives of a group are shorter than the pattern. -/
theorem reads_brace (orderly : Orderly ts) (shorter : (text ts).length ≤ MAXPATHLEN)
    (parts : ∀ ts' : List Token, ts'.Sublist ts → Reads sys glob fuel ts') :
    Reads sys glob (fuel + 1) (byte brace :: ts) := by
  intro s plain st
  rw [text_byte, amatch, if_pos rfl]
  have tried := @execbrc_text (amatch sys glob fuel s) [] ts
    (fun _ no => absurd no List.not_mem_nil) orderly st
  rw [text_nil, List.nil_append] at tried
  rw [tried]
  cases group : enclosed 0 ts with
  | none =>
      rw [ways_unbalanced group]
      rfl
  | some g =>
      have part := fun alt => @chosen_sublist ts g.1 g.2 alt group
      rw [ways_brace group]
      exact tryEach_walk sys glob
        (fun alt listed => Nat.le_trans (length_text_sublist (part alt listed)) shorter)
        (fun alt listed => parts _ (part alt listed) s plain) st

theorem reads_star (later : Reads sys glob fuel ts) :
    Reads sys glob (fuel + 1) (byte Expand.star :: ts) := by
  intro s plain st
  rw [text_byte, amatch, if_neg (by decide), if_neg (by decide), ways_byte (by decide)]
  simp only [if_pos, text_eq_nil, head_text (c := slash) (by decide)]
  by_cases ends : ts = []
  · rw [if_pos ends, if_pos ends]
    rfl
  · rw [if_neg ends, if_neg ends]
    by_cases behind : ts.head? = some (byte slash)
    · obtain ⟨r, rfl⟩ := List.head?_eq_some_iff.mp behind
      rw [if_pos behind, if_pos behind]
      rfl
    · rw [if_neg behind, if_neg behind]
      exact eachTail_walk sys glob (fun s' tail => later s' (plain_tails plain tail)) st

/-- At the end of the name the character is zero. -/
theorem headD_eq_zero {s : Text} (plain : ∀ c ∈ s, Plain c) :
    ((s.headD 0).toNat : Int) = 0 ↔ s = [] := by
  cases s with
  | nil => exact ⟨fun _ => rfl, fun _ => rfl⟩
  | cons d s =>
      have positive := (plain d List.mem_cons_self).1
      rw [List.headD_cons]
      exact ⟨fun zero => absurd zero (by omega), fun empty => absurd empty (List.cons_ne_nil _ _)⟩

theorem reads_slash : Reads sys glob (fuel + 1) (byte slash :: ts) := by
  intro s plain st
  have isStar : slash ≠ Expand.star := by decide
  rw [text_byte, amatch, if_neg (by decide), if_neg (by decide), ways_byte (by decide),
    if_neg isStar, if_neg isStar, scc_eq plain, if_neg (by decide), if_pos rfl, if_pos rfl]
  by_cases ends : s = []
  · rw [if_neg (not_not.mpr ((headD_eq_zero plain).mpr ends)), if_pos ends]
    rfl
  · rw [if_pos (mt (headD_eq_zero plain).mp ends), if_neg ends]
    rfl

/-- A character stands for itself, or is a query. -/
theorem reads_byte {c : Byte} (proper : (byte c).Proper) (isBrace : c ≠ brace)
    (isStar : c ≠ Expand.star) (isSlash : c ≠ slash) (later : Reads sys glob fuel ts) :
    Reads sys glob (fuel + 1) (byte c :: ts) := by
  intro s plain st
  rw [text_byte, amatch, if_neg isBrace, if_neg proper.2.1, ways_byte isBrace, if_neg isStar,
    if_neg isStar, scc_eq plain, if_neg isSlash, if_neg isSlash]
  cases s with
  | nil =>
      have differs : c.toInt ≠ 0 := by
        rw [toInt_plain proper.1.2]
        have positive := proper.1.1
        omega
      by_cases isQuery : c = query
      · rw [if_pos isQuery, if_pos ((headD_eq_zero plain).mpr rfl)]
        rfl
      · rw [if_neg isQuery]
        exact if_pos differs
  | cons d s =>
      have rest : ∀ e ∈ s, Plain e := fun e inside => plain e (List.mem_cons_of_mem _ inside)
      dsimp only
      by_cases isQuery : c = query
      · rw [if_pos isQuery, if_neg (mt (headD_eq_zero plain).mp (List.cons_ne_nil _ _)),
          if_pos (.inl isQuery)]
        exact later s rest st
      · rw [if_neg isQuery, List.headD_cons]
        have same : (c.toInt ≠ d.toNat) ↔ ¬(c = query ∨ d = c) := by
          rw [toInt_plain proper.1.2, not_or]
          refine ⟨fun differs => ⟨isQuery, ?_⟩, fun both equal => ?_⟩
          · rintro rfl
            exact differs rfl
          · exact both.2 (BitVec.eq_of_toNat_eq (by omega))
        by_cases equal : c = query ∨ d = c
        · rw [if_neg (mt same.mp (not_not.mpr equal)), if_pos equal]
          exact later s rest st
        · rw [if_pos (same.mpr equal), if_neg equal]
          rfl

/-- `amatch` takes the ways to read a component in turn. -/
theorem amatch_eq (orderly : Orderly ts) (short : (text ts).length ≤ MAXPATHLEN)
    (enough : (text ts).length < fuel) : Reads sys glob fuel ts := by
  induction fuel generalizing ts with
  | zero => cases enough
  | succ fuel ih =>
      cases ts with
      | nil => exact reads_nil
      | cons t ts =>
          obtain ⟨here, proper⟩ := List.forall_mem_cons.mp orderly
          have parts (ts' : List Token) (part : ts'.Sublist ts) : Reads sys glob fuel ts' := by
            have shorter := length_text_sublist part
            have positive := List.length_pos_iff.mpr (text_ne_nil t [])
            rw [text_cons, text_nil, List.append_nil] at positive
            rw [text_cons, List.length_append] at short enough
            exact ih (Orderly.sublist proper part) (by omega) (by omega)
          have later := parts ts (List.Sublist.refl ts)
          cases t with
          | set l => exact reads_set here later
          | byte c =>
              by_cases isBrace : c = brace
              · subst isBrace
                exact reads_brace proper (Nat.le_of_succ_le short) parts
              · by_cases isStar : c = Expand.star
                · subst isStar
                  exact reads_star later
                · by_cases isSlash : c = slash
                  · subst isSlash
                    exact reads_slash
                  · exact reads_byte here isBrace isStar isSlash later

end Matching

/-! ## The routines on a file system -/

instance : DecidablePred Short := fun path =>
  inferInstanceAs (Decidable (path.length ≤ MAXPATHLEN - 2))

theorem addText_eq {text path : Text} (short : Short path) :
    addText text path = if Short (path ++ text) then some (path ++ text) else none := by
  induction text generalizing path with
  | nil => rw [addText, List.append_nil, if_pos short]
  | cons c text ih =>
      rw [addText]
      by_cases full : path.length ≥ MAXPATHLEN - 2
      · have long : ¬Short (path ++ c :: text) := by
          rw [Short, List.length_append, List.length_cons]
          omega
        rw [if_pos full, if_neg long]
      · have room : Short (path ++ [c]) := by
          rw [Short, List.length_append, List.length_singleton]
          omega
        rw [if_neg full, ih room, List.append_assoc, List.singleton_append]

/-- The names below a directory that exist and along which a specification can be read. -/
def Finds (fs : FileSystem) (dir : Text) (ts : List Token) (p : Text) : Prop :=
  fs.lstat p = true ∧ ∃ t, p = dir ++ t ∧ Readable dir ts t

/-- The names below an entry of a directory. -/
def Descends (fs : FileSystem) (dir n : Text) (r : List Token) (p : Text) : Prop :=
  Short (dir ++ n ++ [slash]) ∧ fs.isDir (dir ++ n ++ [slash]) = true ∧
    Finds fs (dir ++ n ++ [slash]) r p

/-- A run that stores certain names and leaves at most more text behind the path. -/
def Stores (run : Storing State) (st : State) (names : Text → Prop) : Prop :=
  ∃ more items, run = ⟨items, .done { st with path := st.path ++ more }⟩ ∧
    ∀ p, p ∈ items ↔ names p

/-- What `glob` does on specifications of a certain length. -/
def Globs (fs : FileSystem) (fuel : Nat) : Prop :=
  ∀ (ts : List Token) (st : State), Orderly ts → (text ts).length ≤ MAXPATHLEN →
    (text ts).length < fuel → Base st.path → Short st.path →
      Stores (glob fs.toCalls fuel (text ts) st) st (Finds fs st.path ts)

theorem back_append (st : State) (more : Text) :
    State.back { st with path := st.path ++ more } st.path.length = st := by
  rw [State.back, List.take_left]

theorem back_self (st : State) : st.back st.path.length = st := by
  rw [State.back, List.take_length]

theorem readable_nil {dir t : Text} : Readable dir [] t ↔ t = [] ∧ Short dir := by
  constructor
  · intro readable
    cases readable with
    | plain ends short => exact ⟨rfl, by rwa [text_nil, List.append_nil] at short⟩
    | choose here => cases here
    | last here => cases here
    | inner here => cases here
  · rintro ⟨rfl, short⟩
    exact .plain rfl (by rwa [text_nil, List.append_nil])

theorem ways_parts {fuel : Nat} {n : Text} {w : List Token} (orderly : Orderly w)
    (small : (text w).length ≤ MAXPATHLEN) (enough : (text w).length ≤ fuel) (r : List Token)
    (way : some r ∈ ways n w) :
    Orderly r ∧ (text r).length ≤ MAXPATHLEN ∧ (text r).length < fuel := by
  have part := (Way.of_mem way).sublist r rfl
  have below := (List.sublist_cons_self (byte slash) r).trans part
  have shorter := length_text_sublist part
  rw [text_byte, List.length_cons] at shorter
  exact ⟨Orderly.sublist orderly below, Nat.le_trans (length_text_sublist below) small, by omega⟩

section Walk

variable {fs : FileSystem} {fuel : Nat} (globs : Globs fs fuel)

include globs

/-- Behind a slash `glob` goes on below the name. -/
theorem slashed_spec {r : List Token} (orderly : Orderly r)
    (small : (text r).length ≤ MAXPATHLEN) (enough : (text r).length < fuel) {st : State}
    (short : Short st.path) :
    ∃ items, slashed fs.toCalls (glob fs.toCalls fuel) (text r) st = ⟨items, .done st⟩ ∧
      ∀ p, p ∈ items ↔ Descends fs st.path st.entp r p := by
  rw [slashed, addText_eq short, ← List.append_assoc]
  by_cases room : Short (st.path ++ st.entp ++ [slash])
  · rw [if_pos room]
    dsimp only
    by_cases isDir : fs.isDir (st.path ++ st.entp ++ [slash]) = true
    · rw [if_pos isDir]
      by_cases ends : text r = []
      · rw [if_pos ends]
        refine ⟨[st.path ++ st.entp ++ [slash]], rfl, fun p => ?_⟩
        rw [List.mem_singleton, text_eq_nil.mp ends]
        constructor
        · rintro rfl
          exact ⟨room, isDir, fs.found isDir, [], (List.append_nil _).symm,
            readable_nil.mpr ⟨rfl, room⟩⟩
        · rintro ⟨_, _, _, t, rfl, readable⟩
          rw [(readable_nil.mp readable).1, List.append_nil]
      · obtain ⟨more, items, run, names⟩ :=
          globs r { st with path := st.path ++ st.entp ++ [slash] } orderly small enough
            (.inr ⟨_, rfl⟩) room
        rw [if_neg ends, run, Run.done_bind]
        refine ⟨items, ?_, fun p => (names p).trans ⟨fun finds => ⟨room, isDir, finds⟩,
          fun descends => descends.2.2⟩⟩
        have restored := back_append st (st.entp ++ [slash] ++ more)
        simp only [← List.append_assoc] at restored
        simp only [restored, Run.pure_def, List.append_nil]
    · rw [if_neg isDir]
      exact ⟨[], rfl, fun p =>
        ⟨fun no => absurd no List.not_mem_nil, fun descends => absurd descends.2.1 isDir⟩⟩
  · rw [if_neg room]
    exact ⟨[], rfl, fun p =>
      ⟨fun no => absurd no List.not_mem_nil, fun descends => absurd descends.1 room⟩⟩

theorem walk_spec {l : List (Option (List Token))}
    (parts : ∀ r, some r ∈ l → Orderly r ∧ (text r).length ≤ MAXPATHLEN ∧ (text r).length < fuel)
    {st : State} (short : Short st.path) :
    ∃ items, walk fs.toCalls (glob fs.toCalls fuel) l st =
        ⟨items, .done (decide (none ∈ l), st)⟩ ∧
      ∀ p, p ∈ items ↔
        ∃ r, some r ∈ l.takeWhile Option.isSome ∧ Descends fs st.path st.entp r p := by
  induction l with
  | nil => exact ⟨[], rfl, fun p => ⟨nofun, fun ⟨_, inside, _⟩ => nomatch inside⟩⟩
  | cons o l ih =>
      cases o with
      | none =>
          refine ⟨[], ?_, fun p => ⟨nofun, fun ⟨_, inside, _⟩ => nomatch inside⟩⟩
          rw [decide_eq_true List.mem_cons_self]
          rfl
      | some r =>
          obtain ⟨orderly, small, enough⟩ := parts r List.mem_cons_self
          obtain ⟨items, run, names⟩ := slashed_spec globs orderly small enough short
          obtain ⟨items', run', names'⟩ := ih fun r' later => parts r' (List.mem_cons_of_mem _ later)
          have whole : (none ∈ some r :: l) = (none ∈ l) := by
            rw [List.mem_cons]
            exact propext ⟨fun inside => inside.resolve_left nofun, .inr⟩
          refine ⟨items ++ items', ?_, fun p => ?_⟩
          · rw [walk, run, Run.done_bind, run']
            simp only [whole]
          · rw [List.mem_append, names, names', List.takeWhile_cons_of_pos rfl]
            simp only [List.mem_cons, Option.some.injEq, or_and_right, exists_or, exists_eq_left]

/-- A name that begins with a dot needs a component that does. -/
def Dotted (n : Text) (w : List Token) : Prop :=
  n.head? = some dot → w.head? = some (byte dot)

theorem matchName_spec {n : Text} {w : List Token} (orderly : Orderly w)
    (small : (text w).length ≤ MAXPATHLEN) (enough : (text w).length ≤ fuel)
    (plain : ∀ c ∈ n, Plain c) {st : State} (short : Short st.path) :
    ∃ items ok, matchName fs.toCalls (glob fs.toCalls fuel) n (text w) st =
        ⟨items, .done (ok, st)⟩ ∧ (ok = true ↔ Dotted n w ∧ none ∈ ways n w) ∧
      ∀ p, p ∈ items ↔ Dotted n w ∧
        ∃ r, some r ∈ (ways n w).takeWhile Option.isSome ∧ Descends fs st.path n r p := by
  rw [matchName]
  by_cases hidden : n.head? = some dot ∧ (text w).head? ≠ some dot
  · have undotted : ¬Dotted n w := fun dotted =>
      hidden.2 ((head_text (by decide)).mpr (dotted hidden.1))
    rw [if_pos hidden]
    exact ⟨[], false, rfl,
      ⟨fun no => absurd no Bool.false_ne_true, fun both => absurd both.1 undotted⟩,
      fun p => ⟨fun no => absurd no List.not_mem_nil, fun both => absurd both.1 undotted⟩⟩
  · have dotted : Dotted n w := fun first =>
      (head_text (by decide)).mp (not_not.mp fun other => hidden ⟨first, other⟩)
    have room : Short { st with entp := n }.path := short
    obtain ⟨items, run, names⟩ := walk_spec globs (ways_parts (n := n) orderly small enough) room
    rw [if_neg hidden, amatch_eq orderly small (Nat.lt_succ_self _) _ plain, run, Run.done_bind]
    refine ⟨items, decide (none ∈ ways n w), ?_, ?_, fun p => ?_⟩
    · simp only [Run.pure_def, List.append_nil]
    · rw [decide_eq_true_eq]
      exact ⟨fun whole => ⟨dotted, whole⟩, fun both => both.2⟩
    · rw [names]
      exact ⟨fun found => ⟨dotted, found⟩, fun both => both.2⟩

/-- What an entry of a directory contributes. -/
def Gives (fs : FileSystem) (dir n : Text) (w : List Token) (p : Text) : Prop :=
  Dotted n w ∧ (none ∈ ways n w ∧ p = dir ++ n ∨
    ∃ r, some r ∈ (ways n w).takeWhile Option.isSome ∧ Descends fs dir n r p)

theorem readEntries_spec {w : List Token} (orderly : Orderly w)
    (small : (text w).length ≤ MAXPATHLEN) (enough : (text w).length ≤ fuel)
    {entries : List Direct} (plain : ∀ dp ∈ entries, dp.ino ≠ 0 → ∀ c ∈ dp.name, Plain c)
    {st : State} (short : Short st.path) :
    ∃ items, readEntries fs.toCalls (glob fs.toCalls fuel) (text w) entries st =
        ⟨items, .done st⟩ ∧
      ∀ p, p ∈ items ↔ ∃ dp ∈ entries, dp.ino ≠ 0 ∧ Gives fs st.path dp.name w p := by
  induction entries with
  | nil =>
      refine ⟨[], rfl, fun p => ⟨fun no => absurd no List.not_mem_nil, ?_⟩⟩
      rintro ⟨dp, inside, -⟩
      cases inside
  | cons dp entries ih =>
      obtain ⟨here, later⟩ := List.forall_mem_cons.mp plain
      obtain ⟨items', run', names'⟩ := ih later
      rw [readEntries]
      by_cases unused : dp.ino = 0
      · rw [if_pos unused]
        refine ⟨items', run', fun p => (names' p).trans ?_⟩
        rw [List.exists_mem_cons_iff]
        exact ⟨.inr, fun either => either.resolve_left fun both => both.1 unused⟩
      · obtain ⟨items, ok, run, whole, names⟩ :=
          matchName_spec globs orderly small enough (here unused) short
        rw [if_neg unused, run, Run.done_bind]
        have gives : ∀ p, p ∈ items ++ (if ok then [st.path ++ dp.name] else []) ↔
            Gives fs st.path dp.name w p := by
          intro p
          rw [List.mem_append, names, Gives]
          cases ok with
          | false =>
              have partly : ¬(Dotted dp.name w ∧ none ∈ ways dp.name w) :=
                fun both => absurd (whole.mpr both) Bool.false_ne_true
              simp only [Bool.false_eq_true, if_false, List.not_mem_nil, or_false]
              exact ⟨fun both => ⟨both.1, .inr both.2⟩, fun both => ⟨both.1,
                both.2.resolve_left fun taken => partly ⟨both.1, taken.1⟩⟩⟩
          | true =>
              have taken := whole.mp rfl
              rw [if_pos rfl, List.mem_singleton]
              constructor
              · rintro (both | rfl)
                · exact ⟨both.1, .inr both.2⟩
                · exact ⟨taken.1, .inl ⟨taken.2, rfl⟩⟩
              · rintro ⟨dotted, ⟨_, same⟩ | below⟩
                · exact .inr same
                · exact .inl ⟨dotted, below⟩
        refine ⟨items ++ (if ok then [st.path ++ dp.name] else []) ++ items', ?_, fun p => ?_⟩
        · cases ok with
          | false => simp only [Bool.false_eq_true, if_false, run', List.append_nil]
          | true => simp only [if_true, Run.emit_bind, run', List.append_assoc,
              List.singleton_append]
        · rw [List.mem_append, gives, names', List.exists_mem_cons_iff]
          exact or_congr ⟨fun g => ⟨unused, g⟩, fun both => both.2⟩ Iff.rfl

/-- `matchdir` stores what the names of a directory give. -/
theorem matchdir_spec {w : List Token} (orderly : Orderly w)
    (small : (text w).length ≤ MAXPATHLEN) (enough : (text w).length ≤ fuel)
    {st : State} (base : Base st.path) (isDir : fs.isDir st.path = true)
    (short : Short st.path) :
    ∃ items, matchdir fs.toCalls (glob fs.toCalls fuel) (text w) st = ⟨items, .done st⟩ ∧
      ∀ p, p ∈ items ↔
        ∃ n, n ≠ [] ∧ slash ∉ n ∧ fs.lstat (st.path ++ n) = true ∧ Gives fs st.path n w p := by
  obtain ⟨entries, opened⟩ := fs.readable isDir
  have listed := fun n => fs.listed n base isDir opened
  have plain : ∀ dp ∈ entries, dp.ino ≠ 0 → ∀ c ∈ dp.name, Plain c := by
    intro dp inside used c among
    obtain ⟨_, _, found⟩ := (listed dp.name).mp ⟨dp, inside, used, rfl⟩
    exact fs.plain found c (List.mem_append_right _ among)
  obtain ⟨items, run, names⟩ := readEntries_spec globs orderly small enough plain short
  rw [matchdir, opened]
  refine ⟨items, run, fun p => (names p).trans ?_⟩
  constructor
  · rintro ⟨dp, inside, used, gives⟩
    obtain ⟨filled, simple, found⟩ := (listed dp.name).mp ⟨dp, inside, used, rfl⟩
    exact ⟨dp.name, filled, simple, found, gives⟩
  · rintro ⟨n, filled, simple, found, gives⟩
    obtain ⟨dp, inside, used, rfl⟩ := (listed n).mpr ⟨filled, simple, found⟩
    exact ⟨dp, inside, used, gives⟩

/-- The alternatives of a brace at the start of a component. -/
theorem tryEach_spec {st : State} {ι : Type} {f : ι → List Token} {l : List ι}
    (parts : ∀ i ∈ l, Orderly (f i) ∧ (text (f i)).length ≤ MAXPATHLEN ∧
      (text (f i)).length < fuel)
    (base : Base st.path) (short : Short st.path) :
    ∃ items, tryEach (expanded (glob fs.toCalls fuel)) (l.map fun i => text (f i)) st =
        ⟨items, .done (false, st)⟩ ∧
      ∀ p, p ∈ items ↔ ∃ i ∈ l, Finds fs st.path (f i) p := by
  induction l with
  | nil => exact ⟨[], rfl, fun p => ⟨nofun, fun ⟨_, inside, _⟩ => nomatch inside⟩⟩
  | cons i l ih =>
      obtain ⟨⟨orderly, small, enough⟩, later⟩ := List.forall_mem_cons.mp parts
      obtain ⟨more, items, run, names⟩ := globs (f i) st orderly small enough base short
      obtain ⟨items', run', names'⟩ := ih later
      have first : expanded (glob fs.toCalls fuel) (text (f i)) st =
          ⟨items, .done (false, st)⟩ := by
        rw [expanded, run, Run.done_bind, back_append, Run.pure_def, List.append_nil]
      refine ⟨items ++ items', ?_, fun p => ?_⟩
      · rw [List.map_cons, tryEach, if_neg (Nat.not_lt.mpr small), first, Run.done_bind]
        simp only [Bool.false_eq_true, if_false, run']
      · rw [List.mem_append, names, names', List.exists_mem_cons_iff]

end Walk

/-! ## The walk -/

theorem head_orderly {ts : List Token} (orderly : Orderly ts) : (text ts).head? ≠ some tilde := by
  intro first
  obtain ⟨r, rfl⟩ := List.head?_eq_some_iff.mp ((head_text (by decide)).mp first)
  exact (orderly _ List.mem_cons_self).2.2 rfl

theorem homeward_text {ts : List Token} (orderly : Orderly ts) (sys : Calls) (path : Text) :
    homeward sys (text ts) path = some ([], text ts, path) :=
  if_neg fun both => head_orderly orderly both.1

theorem takeWhile_text (ts : List Token) :
    (text ts).takeWhile (fun c => !globchars.contains c) = text (lead ts) := by
  induction ts with
  | nil => rfl
  | cons t ts ih =>
      cases t with
      | set l => rfl
      | byte c =>
          rw [text_byte, lead, List.takeWhile_cons, List.takeWhile_cons, Token.literal]
          cases !globchars.contains c with
          | false => rfl
          | true => exact congrArg (c :: ·) ih

theorem drop_text (ts : List Token) :
    (text ts).drop (text (lead ts)).length = text (operators ts) := by
  have whole := congrArg text (lead_operators ts)
  rw [text_append] at whole
  rw [← whole, List.drop_left]

theorem rtakeWhile_text (u : List Token) (literal : ∀ t ∈ u, t.literal = true) :
    (text u).rtakeWhile (fun c => c ≠ slash) = text (u.rtakeWhile (· ≠ byte slash)) := by
  induction u using List.reverseRecOn with
  | nil => rfl
  | append_singleton u t ih =>
      have here := literal t List.mem_concat_self
      have rest := ih fun t inside => literal t (List.mem_append_left _ inside)
      cases t with
      | set l => cases here
      | byte c =>
          rw [text_append, text_byte, text_nil, List.rtakeWhile_concat, List.rtakeWhile_concat]
          by_cases isSlash : c = slash
          · rw [if_neg (by simp [isSlash]), if_neg (by simp [isSlash])]
            rfl
          · have other : byte c ≠ byte slash := fun same => isSlash (Token.byte.inj same)
            rw [if_pos (decide_eq_true isSlash), if_pos (decide_eq_true other), rest, text_append,
              text_byte, text_nil]

theorem component_text (ts : List Token) :
    ([] ++ text (lead ts)).rtakeWhile (fun c => c ≠ slash) = text (component ts) :=
  rtakeWhile_text (lead ts) (lead_literal ts)

theorem take_upper (dir : Text) (ts : List Token) :
    (dir ++ text (lead ts)).take
        ((dir ++ text (lead ts)).length - (text (component ts)).length) =
      dir ++ text (upper ts) := by
  have whole := congrArg text (upper_component ts)
  rw [text_append] at whole
  rw [← whole, ← List.append_assoc, @List.length_append _ (dir ++ _), Nat.add_sub_cancel,
    List.take_left]

/-- A path that a specification extends to its last slash is one to which a name can be
added. -/
theorem base_upper {dir : Text} (base : Base dir) (ts : List Token) :
    Base (dir ++ text (upper ts)) := by
  rcases upper_ends ts with empty | ⟨v, ends⟩
  · rw [empty, text_nil, List.append_nil]
    exact base
  · rw [ends, text_append, ← List.append_assoc]
    exact .inr ⟨_, rfl⟩

theorem short_upper {dir : Text} {ts : List Token} (short : Short (dir ++ text (lead ts))) :
    Short (dir ++ text (upper ts)) := by
  have whole : (text (upper ts ++ component ts)).length = (text (lead ts)).length := by
    rw [upper_component]
  rw [text_append, List.length_append] at whole
  rw [Short, List.length_append] at short ⊢
  omega

/-- What exists below a base shows that the base is a directory. -/
theorem isDir_base (fs : FileSystem) {d n : Text} (base : Base d)
    (found : fs.lstat (d ++ n) = true) : fs.isDir d = true := by
  rcases base with rfl | ⟨v, rfl⟩
  · exact fs.current
  · rw [List.append_assoc, List.singleton_append] at found
    exact fs.through found

theorem glob_succ {fs : FileSystem} {fuel : Nat} {ts : List Token} (orderly : Orderly ts)
    {st : State} (short : Short st.path) :
    glob fs.toCalls (fuel + 1) (text ts) st =
      if Short (st.path ++ text (lead ts)) then
        match text (operators ts) with
        | [] => do
            if fs.lstat (st.path ++ text (lead ts)) then
              Run.emit (st.path ++ text (lead ts))
            pure st
        | oldc :: rest =>
            let st' := { st with path := st.path ++ text (upper ts) }
            if oldc = brace then do
              let (_, st') ← execbrc (expanded (glob fs.toCalls fuel))
                (text (component ts) ++ oldc :: rest) st'
              pure st'
            else if fs.isDir st'.path then do
              let st' ← matchdir fs.toCalls (glob fs.toCalls fuel)
                (text (component ts) ++ oldc :: rest) st'
              pure (st'.back st.path.length)
            else pure st
      else pure st := by
  rw [glob, homeward_text orderly]
  simp only [takeWhile_text, addText_eq short, drop_text, back_self]
  by_cases room : Short (st.path ++ text (lead ts))
  · rw [if_pos room, if_pos room]
    simp only [component_text, take_upper, back_append]
    rfl
  · rw [if_neg room, if_neg room]

theorem lead_of_ends {ts : List Token} (ends : operators ts = []) : lead ts = ts := by
  have whole := lead_operators ts
  rwa [ends, List.append_nil] at whole

theorem readable_literal {dir t : Text} {ts : List Token} (ends : operators ts = []) :
    Readable dir ts t ↔ t = text ts ∧ Short (dir ++ text ts) := by
  constructor
  · intro readable
    cases readable with
    | plain _ short => exact ⟨rfl, short⟩
    | choose here => rw [ends] at here; cases here
    | last here => rw [ends] at here; cases here
    | inner here => rw [ends] at here; cases here
  · rintro ⟨rfl, short⟩
    exact .plain ends short

theorem readable_brace {dir t : Text} {ts r : List Token} (here : operators ts = byte brace :: r)
    (short : Short (dir ++ text (lead ts))) :
    Readable dir ts t ↔ ∃ inside after alt t', enclosed 0 r = some (inside, after) ∧
      alt ∈ alternatives 0 [] inside ∧
      Readable (dir ++ text (upper ts)) (component ts ++ (alt ++ after)) t' ∧
      t = text (upper ts) ++ t' := by
  constructor
  · intro readable
    cases readable with
    | plain ends => rw [ends] at here; cases here
    | choose here' _ group listed rest =>
        rw [here] at here'
        cases here'
        exact ⟨_, _, _, _, group, listed, rest, rfl⟩
    | last here' other =>
        rw [here] at here'
        cases here'
        exact absurd rfl other
    | inner here' other =>
        rw [here] at here'
        cases here'
        exact absurd rfl other
  · rintro ⟨inside, after, alt, t', group, listed, rest, rfl⟩
    exact .choose here short group listed rest

theorem readable_operator {dir t : Text} {ts r : List Token} {m : Token}
    (here : operators ts = m :: r) (other : m ≠ byte brace)
    (short : Short (dir ++ text (lead ts))) :
    Readable dir ts t ↔ ∃ n, n ≠ [] ∧ slash ∉ n ∧ Dotted n (component ts ++ m :: r) ∧
      (none ∈ ways n (component ts ++ m :: r) ∧ t = text (upper ts) ++ n ∨
        ∃ r' t', some r' ∈ (ways n (component ts ++ m :: r)).takeWhile Option.isSome ∧
          Short (dir ++ text (upper ts) ++ n ++ [slash]) ∧
          Readable (dir ++ text (upper ts) ++ n ++ [slash]) r' t' ∧
          t = text (upper ts) ++ (n ++ slash :: t')) := by
  constructor
  · intro readable
    cases readable with
    | plain ends => rw [ends] at here; cases here
    | choose here' =>
        rw [here] at here'
        cases here'
        exact absurd rfl other
    | last here' _ _ filled simple dotted way =>
        rw [here] at here'
        cases here'
        exact ⟨_, filled, simple, dotted, .inl ⟨way, rfl⟩⟩
    | inner here' _ _ filled simple dotted way deeper rest =>
        rw [here] at here'
        cases here'
        exact ⟨_, filled, simple, dotted, .inr ⟨_, _, way, deeper, rest, rfl⟩⟩
  · rintro ⟨n, filled, simple, dotted, ⟨way, rfl⟩ | ⟨r', t', way, deeper, rest, rfl⟩⟩
    · exact .last here other short filled simple dotted way
    · exact .inner here other short filled simple dotted way deeper rest

theorem short_of_readable {dir t : Text} {ts : List Token} (readable : Readable dir ts t) :
    Short (dir ++ text (lead ts)) := by
  cases readable with
  | plain ends short => rwa [lead_of_ends ends]
  | choose _ short => exact short
  | last _ _ short => exact short
  | inner _ _ short => exact short

/-- What the entries of a directory give is what is found below it. -/
theorem gives_iff {fs : FileSystem} {dir : Text} {ts r : List Token} {m : Token}
    (here : operators ts = m :: r) (other : m ≠ byte brace)
    (short : Short (dir ++ text (lead ts))) (p : Text) :
    (∃ n, n ≠ [] ∧ slash ∉ n ∧ fs.lstat (dir ++ text (upper ts) ++ n) = true ∧
        Gives fs (dir ++ text (upper ts)) n (component ts ++ m :: r) p) ↔
      Finds fs dir ts p := by
  constructor
  · rintro ⟨n, filled, simple, found, dotted, ⟨way, rfl⟩ | ⟨r', way, deeper, _, exist, t', rfl, rest⟩⟩
    · exact ⟨found, _, List.append_assoc _ _ _,
        (readable_operator here other short).mpr ⟨n, filled, simple, dotted, .inl ⟨way, rfl⟩⟩⟩
    · refine ⟨exist, text (upper ts) ++ (n ++ slash :: t'), ?_,
        (readable_operator here other short).mpr
          ⟨n, filled, simple, dotted, .inr ⟨r', t', way, deeper, rest, rfl⟩⟩⟩
      simp only [List.append_assoc, List.singleton_append]
  · rintro ⟨exist, t, rfl, readable⟩
    obtain ⟨n, filled, simple, dotted, ⟨way, rfl⟩ | ⟨r', t', way, deeper, rest, rfl⟩⟩ :=
      (readable_operator here other short).mp readable
    · rw [← List.append_assoc] at exist ⊢
      exact ⟨n, filled, simple, exist, dotted, .inl ⟨way, rfl⟩⟩
    · have split : dir ++ (text (upper ts) ++ (n ++ slash :: t')) =
          (dir ++ text (upper ts) ++ n) ++ slash :: t' := by
        simp only [List.append_assoc]
      rw [split] at exist ⊢
      refine ⟨n, filled, simple, fs.ancestor exist, dotted, .inr ⟨r', way, deeper,
        fs.through exist, exist, t', ?_, rest⟩⟩
      rw [List.append_assoc _ [slash], List.singleton_append]

theorem globs_succ {fs : FileSystem} {fuel : Nat} (globs : Globs fs fuel) :
    Globs fs (fuel + 1) := by
  intro ts st orderly small enough base short
  have whole := congrArg (fun u => (text u).length) (parts ts)
  simp only [text_append, List.length_append] at whole
  have part : (component ts ++ operators ts).Sublist ts := by
    have split := List.sublist_append_right (upper ts) (component ts ++ operators ts)
    rwa [parts] at split
  rw [glob_succ orderly short]
  by_cases room : Short (st.path ++ text (lead ts))
  · rw [if_pos room]
    cases here : operators ts with
    | nil =>
        rw [lead_of_ends here]
        refine ⟨[], if fs.lstat (st.path ++ text ts) then [st.path ++ text ts] else [], ?_,
          fun p => ?_⟩
        · rw [List.append_nil]
          dsimp only [text_nil]
          split <;> rfl
        · rw [lead_of_ends here] at room
          rw [Finds]
          simp only [readable_literal here]
          by_cases exist : fs.lstat (st.path ++ text ts) = true
          · rw [if_pos exist, List.mem_singleton]
            constructor
            · rintro rfl
              exact ⟨exist, _, rfl, rfl, room⟩
            · rintro ⟨_, t, rfl, rfl, _⟩
              rfl
          · rw [if_neg exist]
            constructor
            · nofun
            · rintro ⟨found, t, rfl, rfl, _⟩
              exact absurd found exist
    | cons m r =>
        rw [here] at whole part
        have orderly' : Orderly (component ts ++ m :: r) := Orderly.sublist orderly part
        by_cases isBrace : m = byte brace
        · subst isBrace
          have later : Orderly r := fun t inside =>
            orderly' t (List.mem_append_right _ (List.mem_cons_of_mem _ inside))
          rw [text_byte]
          dsimp only
          rw [if_pos rfl, execbrc_text (component_literal ts) later]
          cases group : enclosed 0 r with
          | none =>
              refine ⟨text (upper ts), [], rfl, fun p => ⟨nofun, ?_⟩⟩
              rintro ⟨_, t, _, readable⟩
              obtain ⟨_, _, _, _, group', _⟩ := (readable_brace here room).mp readable
              rw [group] at group'
              cases group'
          | some g =>
              obtain ⟨inside, after⟩ := g
              have pieces : ∀ alt ∈ alternatives 0 [] inside,
                  Orderly (component ts ++ (alt ++ after)) ∧
                    (text (component ts ++ (alt ++ after))).length ≤ MAXPATHLEN ∧
                    (text (component ts ++ (alt ++ after))).length < fuel := by
                intro alt listed
                have chosen := chosen_sublist group listed
                have below := ((List.Sublist.refl (component ts)).append
                  (chosen.trans (List.sublist_cons_self (byte brace) r))).trans part
                have shorter := length_text_sublist chosen
                refine ⟨Orderly.sublist orderly below,
                  Nat.le_trans (length_text_sublist below) small, ?_⟩
                rw [text_byte, List.length_cons] at whole
                rw [text_append, List.length_append]
                omega
              have room' : Short { st with path := st.path ++ text (upper ts) }.path :=
                short_upper room
              obtain ⟨items, run, names⟩ := tryEach_spec globs pieces (base_upper base ts) room'
              dsimp only
              rw [run, Run.done_bind, Run.pure_def]
              dsimp only
              rw [List.append_nil]
              refine ⟨text (upper ts), items, rfl, fun p => (names p).trans ?_⟩
              constructor
              · rintro ⟨alt, listed, exist, t, rfl, rest⟩
                exact ⟨exist, _, List.append_assoc _ _ _, (readable_brace here room).mpr
                  ⟨_, _, alt, t, group, listed, rest, rfl⟩⟩
              · rintro ⟨exist, t, rfl, readable⟩
                obtain ⟨_, _, alt, t', group', listed, rest, rfl⟩ :=
                  (readable_brace here room).mp readable
                rw [group] at group'
                cases group'
                exact ⟨alt, listed, exist, t', (List.append_assoc _ _ _).symm, rest⟩
        · obtain ⟨oldc, rest, shape, noBrace⟩ :
              ∃ oldc rest, text (m :: r) = oldc :: rest ∧ oldc ≠ brace := by
            cases m with
            | byte c => exact ⟨c, text r, rfl, fun same => isBrace (congrArg _ same)⟩
            | set l => exact ⟨opening, _, rfl, by decide⟩
          rw [shape]
          dsimp only
          rw [if_neg noBrace, ← shape, ← text_append]
          by_cases isDir : fs.isDir (st.path ++ text (upper ts)) = true
          · have little := length_text_sublist part
            have room' : Short { st with path := st.path ++ text (upper ts) }.path :=
              short_upper room
            obtain ⟨items, run, names⟩ := matchdir_spec globs orderly'
              (Nat.le_trans little small) (by omega) (base_upper base ts) isDir room'
            rw [if_pos isDir, run, Run.done_bind, back_append, Run.pure_def]
            dsimp only
            rw [List.append_nil]
            refine ⟨[], items, by rw [List.append_nil], fun p => (names p).trans ?_⟩
            exact gives_iff here isBrace room p
          · rw [if_neg isDir]
            refine ⟨[], [], by rw [List.append_nil]; rfl, fun p => ⟨nofun, fun finds => ?_⟩⟩
            obtain ⟨n, _, _, found, _⟩ := (gives_iff here isBrace room p).mpr finds
            exact absurd (isDir_base fs (base_upper base ts) found) isDir
  · rw [if_neg room]
    refine ⟨[], [], by rw [List.append_nil]; rfl, fun p => ⟨nofun, ?_⟩⟩
    rintro ⟨_, t, _, readable⟩
    exact absurd (short_of_readable readable) room

theorem globs (fs : FileSystem) (fuel : Nat) : Globs fs fuel := by
  induction fuel with
  | zero => exact fun ts st _ _ enough => absurd enough (Nat.not_lt_zero _)
  | succ fuel ih => exact globs_succ ih

/-! ## What expand returns -/

/-- The buffer takes the names, or as many as it has room for. -/
def Delivers (sys : Calls) (spec : Text) (names : List Text) : Prop :=
  ∀ bufsize, expand sys spec bufsize =
    if names.length ≤ bufsize then .returned names.length names
    else .returned (bufsize + 1) (names.take bufsize)

/-- The names are those of the paths that exist and match. -/
def Exact (fs : FileSystem) (spec : List Token) (names : List Text) : Prop :=
  ∀ p, p ∈ names ↔ fs.lstat p = true ∧ Matches spec p

theorem expand_delivers (fs : FileSystem) {spec : List Token} (orderly : Orderly spec)
    (small : (text spec).length ≤ MAXPATHLEN) :
    ∃ names, Delivers fs.toCalls (text spec) names ∧
      ∀ p, p ∈ names ↔ fs.lstat p = true ∧ Readable [] spec p := by
  obtain ⟨more, items, run, names⟩ := globs fs ((text spec).length + 1) spec ⟨[], []⟩ orderly small
    (Nat.lt_succ_self _) (.inl rfl) (Nat.zero_le _)
  refine ⟨items, fun bufsize => ?_, fun p => (names p).trans ?_⟩
  · rw [expand, run]
    exact collect_done bufsize _ items [] (Nat.zero_le _)
  · rw [Finds]
    constructor
    · rintro ⟨exist, t, rfl, readable⟩
      exact ⟨exist, readable⟩
    · rintro ⟨exist, readable⟩
      exact ⟨exist, p, rfl, readable⟩

def letterA : Byte := 97

/-- A path through the entries `.` and `..`, with so many dots before it. -/
def dots : Nat → Text → Bool
  | _, [] => true
  | k, c :: r => if c = slash then dots 0 r else c = dot && k < 2 && dots (k + 1) r

/-- Such a path, or one that leads to the file. -/
def there : Nat → Text → Bool
  | _, [] => true
  | k, c :: r =>
      if c = slash then there 0 r
      else if c = dot then k < 2 && there (k + 1) r
      else c = letterA && k = 0 && r = []

theorem there_of_dots {k : Nat} {p : Text} (path : dots k p = true) : there k p = true := by
  induction p generalizing k with
  | nil => rfl
  | cons c r ih =>
      rw [dots] at path
      rw [there]
      by_cases isSlash : c = slash
      · rw [if_pos isSlash] at path ⊢
        exact ih path
      · rw [if_neg isSlash, Bool.and_eq_true, Bool.and_eq_true, decide_eq_true_eq] at path
        rw [if_neg isSlash, if_pos path.1.1, path.1.2, ih path.2]
        rfl

theorem plain_there {k : Nat} {p : Text} (path : there k p = true) : ∀ c ∈ p, Plain c := by
  induction p generalizing k with
  | nil => nofun
  | cons c r ih =>
      rw [there] at path
      by_cases isSlash : c = slash
      · rw [if_pos isSlash] at path
        exact List.forall_mem_cons.mpr ⟨isSlash ▸ by decide, ih path⟩
      · rw [if_neg isSlash] at path
        by_cases isDot : c = dot
        · rw [if_pos isDot, Bool.and_eq_true] at path
          exact List.forall_mem_cons.mpr ⟨isDot ▸ by decide, ih path.2⟩
        · rw [if_neg isDot, Bool.and_eq_true, Bool.and_eq_true, decide_eq_true_eq,
            decide_eq_true_eq] at path
          rw [of_decide_eq_true path.2, path.1.1]
          exact List.forall_mem_cons.mpr ⟨by decide, nofun⟩

theorem there_through {k : Nat} {front rest : Text} (path : there k (front ++ slash :: rest) = true) :
    dots k (front ++ [slash]) = true ∧ dots k front = true ∧ there 0 rest = true := by
  induction front generalizing k with
  | nil => exact ⟨rfl, rfl, path⟩
  | cons c front ih =>
      rw [List.cons_append, there] at path
      rw [List.cons_append, dots, dots]
      by_cases isSlash : c = slash
      · rw [if_pos isSlash] at path
        rw [if_pos isSlash, if_pos isSlash]
        exact ih path
      · rw [if_neg isSlash] at path
        rw [if_neg isSlash, if_neg isSlash]
        by_cases isDot : c = dot
        · rw [if_pos isDot, Bool.and_eq_true] at path
          obtain ⟨first, second, third⟩ := ih path.2
          rw [path.1, first, second]
          exact ⟨by simp [isDot], by simp [isDot], third⟩
        · rw [if_neg isDot] at path
          simp at path

theorem there_append {k : Nat} {v : Text} (path : dots k (v ++ [slash]) = true) (n : Text) :
    there k (v ++ slash :: n) = there 0 n := by
  induction v generalizing k with
  | nil => rfl
  | cons c v ih =>
      rw [List.cons_append, dots] at path
      rw [List.cons_append, there]
      by_cases isSlash : c = slash
      · rw [if_pos isSlash] at path ⊢
        exact ih path
      · rw [if_neg isSlash, Bool.and_eq_true, Bool.and_eq_true, decide_eq_true_eq] at path
        rw [if_neg isSlash, if_pos path.1.1, path.1.2, ih path.2]
        rfl

theorem there_below {d : Text} (base : Base d) (isDir : dots 0 d = true) (n : Text) :
    there 0 (d ++ n) = there 0 n := by
  rcases base with rfl | ⟨v, rfl⟩
  · rfl
  · rw [List.append_assoc, List.singleton_append]
    exact there_append isDir n

theorem there_name {n : Text} (simple : slash ∉ n) (filled : n ≠ []) :
    there 0 n = true ↔ n = [dot] ∨ n = [dot, dot] ∨ n = [letterA] := by
  constructor
  · intro path
    cases n with
    | nil => exact absurd rfl filled
    | cons c n =>
        obtain ⟨first, simpler⟩ := not_or.mp (mt List.mem_cons.mpr simple)
        rw [there, if_neg (Ne.symm first)] at path
        by_cases isDot : c = dot
        · subst isDot
          rw [if_pos rfl] at path
          cases n with
          | nil => exact .inl rfl
          | cons d n =>
              obtain ⟨second, simplest⟩ := not_or.mp (mt List.mem_cons.mpr simpler)
              have path := (Bool.and_eq_true_iff.mp path).2
              rw [there, if_neg (Ne.symm second)] at path
              by_cases again : d = dot
              · subst again
                rw [if_pos rfl] at path
                cases n with
                | nil => exact .inr (.inl rfl)
                | cons e n =>
                    obtain ⟨third, _⟩ := not_or.mp (mt List.mem_cons.mpr simplest)
                    have path := (Bool.and_eq_true_iff.mp path).2
                    rw [there, if_neg (Ne.symm third)] at path
                    simp at path
              · rw [if_neg again] at path
                simp at path
        · rw [if_neg isDot, Bool.and_eq_true, Bool.and_eq_true, decide_eq_true_eq] at path
          rw [path.1.1, of_decide_eq_true path.2]
          exact .inr (.inr rfl)
  · rintro (rfl | rfl | rfl) <;> rfl

/-- The entries of the directory. -/
def entries : List Direct := [⟨2, [dot]⟩, ⟨2, [dot, dot]⟩, ⟨3, [letterA]⟩]

def single : FileSystem where
  lstat := there 0
  isDir := dots 0
  opendir d := if dots 0 d then some entries else none
  home := []
  gethdir _ := none
  plain := plain_there
  current := rfl
  found := there_of_dots
  through path := (there_through path).1
  ancestor path := there_of_dots (there_through path).2.1
  readable isDir := ⟨entries, if_pos isDir⟩
  listed n base isDir opened := by
    rw [if_pos isDir] at opened
    cases opened
    rw [there_below base isDir]
    constructor
    · rintro ⟨dp, inside, _, rfl⟩
      simp only [entries, List.mem_cons, List.not_mem_nil, or_false] at inside
      rcases inside with rfl | rfl | rfl <;> decide
    · rintro ⟨filled, simple, exist⟩
      rcases (there_name simple filled).mp exist with rfl | rfl | rfl
      · exact ⟨⟨2, [dot]⟩, by decide, by decide, rfl⟩
      · exact ⟨⟨2, [dot, dot]⟩, by decide, by decide, rfl⟩
      · exact ⟨⟨3, [letterA]⟩, by decide, by decide, rfl⟩

/-- The names of one letter or two dots, as `{a,.}*`. -/
def alternativesThenStar : List Token :=
  [byte brace, byte letterA, byte comma, byte dot, byte unbrace, byte Expand.star]

end MachFormal.Libcs.Globbing
