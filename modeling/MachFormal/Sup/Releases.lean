import MachFormal.Library.Loop
import MachFormal.Sup.ScanText

/-!
# The chain of releases

The releases file of a collection has a line for each release, with the options of the
release; one of them names the release that comes next.  `getrelease` follows the chain
by reading on from the line it has found, and begins once more at the top when it comes
to the end.  It does not notice when the chain comes back to a release.

`chdir` to the directory of a release succeeds or not; where the program gives up, the
loop ends as well.
-/

namespace MachFormal.Sup.Releases

open Library Library.Text Library.Loop Sup.Lists

/-! ## Arguments of a line -/

def equals : Byte := 61

def blanks : Name := [space, tab]

def skipover (charset s : Name) : Name := s.dropWhile fun b => b ∈ charset

def skipto (charset s : Name) : Name := s.dropWhile fun b => b ∉ charset

/-- What `nxtarg` returns, with `_argbreak` and what is left of the line. -/
structure Argument where
  text : Name
  argbreak : Byte
  rest : Name

def nxtarg (q brk : Name) : Argument :=
  let front := skipover blanks q
  let back := skipto brk front
  { text := ((front.takeWhile fun b => b ∉ brk).reverse.dropWhile fun b => b ∈ blanks).reverse
    argbreak := back.headD 0
    rest := back.tail }

/-- `passdelim`, after an argument that ended with `argbreak`. -/
def passdelim (argbreak delim : Byte) (p : Name) : Name :=
  let p := skipover blanks p
  if argbreak ≠ delim ∧ p.head? = some delim then skipover blanks p.tail else p

/-- Lines that `index ("#;:", *p)` passes over; the terminator is found in every string. -/
def comment (line : Name) : Bool :=
  match line with
  | [] => true
  | b :: _ => b = 35 || b = 59 || b = 58

/-! ## One release -/

inductive ReleaseOption where
  | next
  | location
  | list
  | scan
  | host

/-- The table of options: `next`, `prefix`, `list`, `scan` and `host`. -/
def options : List (Name × ReleaseOption) :=
  [([110, 101, 120, 116], .next), ([112, 114, 101, 102, 105, 120], .location),
    ([108, 105, 115, 116], .list), ([115, 99, 97, 110], .scan), ([104, 111, 115, 116], .host)]

def optionNamed (arg : Name) : Option ReleaseOption :=
  (options.find? fun o => o.1 = arg).map Prod.snd

/-- A `TREELIST` node before its tree is made. -/
structure Treelist where
  TLname : Name
  TLlocation : Option Name
  TLlist : Option Name
  TLscan : Option Name
  TLhost : Option Name

/-- The program gives up: an option that there is not, of a release. -/
structure InvalidOption where
  arg : Name
  relname : Name

/-- What has been read of a release, and the next one. -/
structure Parsed where
  tl : Treelist
  nextrel : Option Name

def Parsed.set (p : Parsed) (option : ReleaseOption) (arg : Name) : Parsed :=
  match option with
  | .next => { p with nextrel := some arg }
  | .location => { p with tl := { p.tl with TLlocation := some arg } }
  | .list => { p with tl := { p.tl with TLlist := some arg } }
  | .scan => { p with tl := { p.tl with TLscan := some arg } }
  | .host => { p with tl := { p.tl with TLhost := some arg } }

/-- A turn of the loop in `parserelease`. -/
def parseTurn (s : Parsed × Name) : (Parsed × Name) ⊕ Except InvalidOption Parsed :=
  let arg := nxtarg s.2 [space, tab, equals]
  if arg.text = [] then .inr (.ok s.1)
  else
    match optionNamed arg.text with
    | none => .inr (.error ⟨arg.text, s.1.tl.TLname⟩)
    | some option =>
        let value := nxtarg (passdelim arg.argbreak equals arg.rest) blanks
        .inl (s.1.set option value.text, value.rest)

/-- The loop of `parserelease` before its first turn. -/
def parseStart (relname args : Name) : Parsed × Name :=
  (⟨⟨relname, none, none, none, none⟩, none⟩, skipover blanks args)

/-- `parserelease`.  Every turn takes something of the line. -/
def parserelease (relname args : Name) : Except InvalidOption Parsed :=
  (run parseTurn (args.length + 1) (parseStart relname args)).getD (.error ⟨[], relname⟩)

/-! ## The chain -/

/-- `default`. -/
def DEFRELEASE : Name := [100, 101, 102, 97, 117, 108, 116]

/-- How `getrelease` ends. -/
inductive Outcome where
  /-- `TRUE` is returned, with the releases. -/
  | found (listTL : List Treelist)
  /-- `FALSE` is returned. -/
  | notFound
  | goaway (reason : InvalidOption)

/-- `getrelease` at work: the next line, and the release that is looked for. -/
structure Reading where
  pos : Nat
  rewound : Bool
  release : Name
  listTL : List Treelist

section Reading

variable (lines : List Name) (chdir : Name → Bool) (location : Option Name)

/-- What is made of a line: the release, with its directory, and the next one. -/
def enter (release args : Name) : Except Outcome (Treelist × Option Name) :=
  match parserelease release args with
  | .error reason => .error (.goaway reason)
  | .ok p =>
      match p.tl.TLlocation with
      | none => .ok ({ p.tl with TLlocation := location }, p.nextrel)
      | some directory => if chdir directory then .ok (p.tl, p.nextrel) else .error .notFound

/-- After the loop: only the default release need not have a line. -/
def leave (release : Name) (listTL : List Treelist) : Outcome :=
  if release = DEFRELEASE then .found (⟨release, location, none, none, none⟩ :: listTL)
  else .notFound

/-- A turn of the loop in `getrelease`. -/
def turn (s : Reading) : Reading ⊕ Outcome :=
  match lines[s.pos]? with
  | none =>
      if s.rewound then .inr (leave location s.release s.listTL)
      else .inl { s with pos := 0, rewound := true }
  | some line =>
      if comment line then .inl { s with pos := s.pos + 1 }
      else
        let q := nxtarg line blanks
        if q.text ≠ s.release then .inl { s with pos := s.pos + 1 }
        else
          match enter chdir location s.release q.rest with
          | .error outcome => .inr outcome
          | .ok (tl, none) => .inr (.found (tl :: s.listTL))
          | .ok (tl, some release) => .inl ⟨s.pos + 1, false, release, tl :: s.listTL⟩

end Reading

/-- The lines of the file, as they are in the buffer. -/
def fileLines (text : List Byte) : List Name :=
  (readLines (STRINGLENGTH - 1) text.length text).map buffered

/-- `getrelease`, of the text of the releases file if there is one. -/
def Getrelease (file : Option (List Byte)) (chdir : Name → Bool) (location : Option Name)
    (release : Option Name) (outcome : Outcome) : Prop :=
  match file with
  | none => outcome = leave location (release.getD DEFRELEASE) []
  | some text =>
      Ends (turn (fileLines text) chdir location) ⟨0, true, release.getD DEFRELEASE, []⟩ outcome

/-! ## What is asked of it -/

section Chain

variable (lines : List Name) (chdir : Name → Bool) (location : Option Name)

/-- The line of a release. -/
def named (release line : Name) : Bool := !comment line && (nxtarg line blanks).text = release

/-- The first such line from a place on. -/
def findFrom (pos : Nat) (release : Name) : Option Nat :=
  ((lines.drop pos).findIdx? (named release)).map (pos + ·)

/-- The first such line after a place, or else in the whole file. -/
def located (pos : Nat) (release : Name) : Option Nat :=
  (findFrom lines pos release).or (findFrom lines 0 release)

/-- A release in the chain: what it is, and which one comes next, looked for from where. -/
inductive Link where
  | missing
  | failed (outcome : Outcome)
  | last (tl : Treelist)
  | more (tl : Treelist) (pos : Nat) (release : Name)

/-- The release that is looked for from a place on. -/
def link (pos : Nat) (release : Name) : Link :=
  match located lines pos release with
  | none => .missing
  | some i =>
      match enter chdir location release (nxtarg (lines.getD i []) blanks).rest with
      | .error outcome => .failed outcome
      | .ok (tl, none) => .last tl
      | .ok (tl, some next) => .more tl (i + 1) next

/-- The releases of the chain that starts there. -/
inductive Chain : Nat → Name → List Treelist → Prop where
  | last {pos : Nat} {release : Name} {tl : Treelist}
      (here : link lines chdir location pos release = .last tl) : Chain pos release [tl]
  | byDefault {pos : Nat} (here : link lines chdir location pos DEFRELEASE = .missing) :
      Chain pos DEFRELEASE [⟨DEFRELEASE, location, none, none, none⟩]
  | more {pos pos' : Nat} {release next : Name} {tl : Treelist} {rest : List Treelist}
      (here : link lines chdir location pos release = .more tl pos' next)
      (later : Chain pos' next rest) : Chain pos release (tl :: rest)

/-- The release that the chain has come to after some steps, and where it is looked for. -/
def walk (pos : Nat) (release : Name) : Nat → Option (Nat × Name)
  | 0 => some (pos, release)
  | k + 1 =>
      match link lines chdir location pos release with
      | .more _ pos' next => walk pos' next k
      | _ => none

/-- The chain comes to a release that is not there or cannot be used. -/
def EndsBadly (release : Name) : Prop :=
  ∃ k pos here, walk lines chdir location 0 release k = some (pos, here) ∧
    ((link lines chdir location pos here = .missing ∧ here ≠ DEFRELEASE) ∨
      ∃ outcome, link lines chdir location pos here = .failed outcome)

/-- The chain does not come to a release that it has been to. -/
def NoReturn (release : Name) : Prop :=
  ∀ j k pos pos' here, walk lines chdir location 0 release j = some (pos, here) →
    walk lines chdir location 0 release k = some (pos', here) → j = k

end Chain

/-- The lines of a releases file, if there is one. -/
def linesOf (file : Option (List Byte)) : List Name :=
  match file with
  | none => []
  | some text => fileLines text

/-- `getrelease` ends: with the chain, every release in it once, or because there is something
wrong with the chain. -/
def ReadsReleases (file : Option (List Byte)) (chdir : Name → Bool) (location release : Option Name) :
    Prop :=
  ∃ outcome, Getrelease file chdir location release outcome ∧
    match outcome with
    | .found listTL =>
        Chain (linesOf file) chdir location 0 (release.getD DEFRELEASE) listTL.reverse ∧
          (listTL.map Treelist.TLname).Nodup
    | _ => EndsBadly (linesOf file) chdir location (release.getD DEFRELEASE)

/-! ## Arguments are read to their end -/

theorem skipover_length (charset s : Name) : (skipover charset s).length ≤ s.length :=
  (List.dropWhile_suffix _).length_le

theorem nxtarg_length (q brk : Name) : (nxtarg q brk).rest.length ≤ q.length ∧
    ((nxtarg q brk).text ≠ [] → (nxtarg q brk).rest.length < q.length) := by
  have front := skipover_length blanks q
  have whole := congrArg List.length
    (List.takeWhile_append_dropWhile (p := fun b => decide (b ∉ brk)) (l := skipover blanks q))
  rw [List.length_append] at whole
  simp only [nxtarg, skipto, List.length_tail]
  refine ⟨by omega, fun nonempty => ?_⟩
  have some_text : 0 < ((skipover blanks q).takeWhile fun b => decide (b ∉ brk)).length := by
    rw [List.length_pos_iff_ne_nil]
    intro empty
    rw [empty] at nonempty
    exact nonempty rfl
  omega

theorem passdelim_length (argbreak delim : Byte) (p : Name) :
    (passdelim argbreak delim p).length ≤ p.length := by
  have first := skipover_length blanks p
  rw [passdelim]
  split
  · have second := skipover_length blanks (skipover blanks p).tail
    rw [List.length_tail] at second
    omega
  · exact first

/-- A turn sets an option and takes something of the line, or it is the last one. -/
theorem parseTurn_cases (s : Parsed × Name) :
    (∃ option arg rest, parseTurn s = .inl (s.1.set option arg, rest) ∧
        rest.length < s.2.length) ∨
      parseTurn s = .inr (.ok s.1) ∨ ∃ reason, parseTurn s = .inr (.error reason) := by
  rw [parseTurn]
  obtain ⟨-, shorter⟩ := nxtarg_length s.2 [space, tab, equals]
  by_cases done : (nxtarg s.2 [space, tab, equals]).text = []
  · exact .inr (.inl (if_pos done))
  · rw [if_neg done]
    have progress := shorter done
    cases option : optionNamed (nxtarg s.2 [space, tab, equals]).text with
    | none => exact .inr (.inr ⟨_, rfl⟩)
    | some o =>
        refine .inl ⟨o, _, _, rfl, ?_⟩
        have value := (nxtarg_length (passdelim (nxtarg s.2 [space, tab, equals]).argbreak equals
          (nxtarg s.2 [space, tab, equals]).rest) blanks).1
        have delim := passdelim_length (nxtarg s.2 [space, tab, equals]).argbreak equals
          (nxtarg s.2 [space, tab, equals]).rest
        exact Nat.lt_of_le_of_lt (Nat.le_trans value delim) progress

theorem parseTurn_length {s s' : Parsed × Name} (goesOn : parseTurn s = .inl s') :
    s'.2.length < s.2.length := by
  rcases parseTurn_cases s with ⟨option, arg, rest, set, shorter⟩ | done | ⟨reason, failed⟩
  · obtain rfl := Sum.inl.inj (set.symm.trans goesOn)
    exact shorter
  · cases done.symm.trans goesOn
  · cases failed.symm.trans goesOn

theorem parserelease_ends (relname args : Name) :
    Ends parseTurn (parseStart relname args) (parserelease relname args) := by
  have short : (parseStart relname args).2.length < args.length + 1 :=
    Nat.lt_succ_of_le (skipover_length blanks args)
  obtain ⟨r, left⟩ := run_of_decreasing (fun s s' => parseTurn_length) (args.length + 1)
    (parseStart relname args) short
  refine ⟨args.length + 1, ?_⟩
  rw [parserelease, left]
  rfl

/-! ## Reading on to a line -/

section Scanning

variable {lines : List Name} {chdir : Name → Bool} {location : Option Name}

theorem turn_other {s : Reading} {line : Name} (here : lines[s.pos]? = some line)
    (other : named s.release line = false) :
    turn lines chdir location s = .inl { s with pos := s.pos + 1 } := by
  rw [turn, here]
  rw [named, Bool.and_eq_false_iff, Bool.not_eq_false', decide_eq_false_iff_not] at other
  rcases other with passed | different
  · exact if_pos passed
  · simp only [if_pos different, ite_self]

theorem turn_named {s : Reading} {line : Name} (here : lines[s.pos]? = some line)
    (same : named s.release line = true) :
    turn lines chdir location s =
      match enter chdir location s.release (nxtarg line blanks).rest with
      | .error outcome => .inr outcome
      | .ok (tl, none) => .inr (.found (tl :: s.listTL))
      | .ok (tl, some release) => .inl ⟨s.pos + 1, false, release, tl :: s.listTL⟩ := by
  rw [named, Bool.and_eq_true, Bool.not_eq_true', decide_eq_true_eq] at same
  rw [turn, here]
  simp only [same.1, same.2, ne_eq, not_true_eq_false, if_false, Bool.false_eq_true]

theorem turn_end {s : Reading} (here : lines[s.pos]? = none) :
    turn lines chdir location s =
      if s.rewound then .inr (leave location s.release s.listTL)
      else .inl { s with pos := 0, rewound := true } := by
  rw [turn, here]

theorem scan_found {s : Reading} {i : Nat} (found : findFrom lines s.pos s.release = some i) :
    ∃ n line, Leads (turn lines chdir location) n s { s with pos := i } ∧
      lines[i]? = some line ∧ named s.release line = true := by
  obtain ⟨ahead, split⟩ : ∃ ahead, lines.drop s.pos = ahead := ⟨_, rfl⟩
  rw [findFrom, split] at found
  induction ahead generalizing s with
  | nil => cases found
  | cons line ahead ih =>
      have here : lines[s.pos]? = some line := by
        rw [← List.head?_drop, split, List.head?_cons]
      rw [List.findIdx?_cons] at found
      cases same : named s.release line with
      | true =>
          rw [same, if_pos rfl, Option.map_some, Nat.add_zero] at found
          obtain rfl := Option.some.inj found
          exact ⟨0, line, .refl _, here, same⟩
      | false =>
          have next : lines.drop (s.pos + 1) = ahead := by
            rw [← List.tail_drop, split, List.tail_cons]
          rw [same, if_neg Bool.false_ne_true, Option.map_map] at found
          obtain ⟨n, line', leads, there, same'⟩ := @ih { s with pos := s.pos + 1 } (by
            rw [← found]
            congr 1
            funext k
            change s.pos + 1 + k = s.pos + (k + 1)
            omega) next
          exact ⟨n + 1, line', .step (turn_other here same) leads, there, same'⟩

theorem scan_end {s : Reading} (none : findFrom lines s.pos s.release = none) :
    ∃ n pos', Leads (turn lines chdir location) n s { s with pos := pos' } ∧
      lines[pos']? = .none := by
  obtain ⟨ahead, split⟩ : ∃ ahead, lines.drop s.pos = ahead := ⟨_, rfl⟩
  rw [findFrom, split, Option.map_eq_none_iff, List.findIdx?_eq_none_iff] at none
  induction ahead generalizing s with
  | nil =>
      refine ⟨0, s.pos, .refl _, ?_⟩
      rw [← List.head?_drop, split, List.head?_nil]
  | cons line ahead ih =>
      have here : lines[s.pos]? = some line := by
        rw [← List.head?_drop, split, List.head?_cons]
      have next : lines.drop (s.pos + 1) = ahead := by
        rw [← List.tail_drop, split, List.tail_cons]
      obtain ⟨n, pos', leads, there⟩ := @ih { s with pos := s.pos + 1 }
        (fun line' member => none line' (List.mem_cons_of_mem line member)) next
      exact ⟨n + 1, pos', .step (turn_other here (none line List.mem_cons_self)) leads, there⟩

/-- The whole file is ahead, in this turn or after going back to the top. -/
def Reading.Whole (s : Reading) : Prop := s.rewound = false ∨ s.pos = 0

theorem located_found {s : Reading} {i : Nat} (whole : s.Whole)
    (found : located lines s.pos s.release = some i) :
    ∃ n rewound line, Leads (turn lines chdir location) n s { s with pos := i, rewound := rewound } ∧
      lines[i]? = some line ∧ named s.release line = true := by
  rw [located] at found
  cases ahead : findFrom lines s.pos s.release with
  | some j =>
      rw [ahead, Option.some_or, Option.some.injEq] at found
      subst found
      obtain ⟨n, line, leads, there⟩ := @scan_found lines chdir location s j ahead
      exact ⟨n, s.rewound, line, leads, there⟩
  | none =>
      rw [ahead, Option.none_or] at found
      rcases whole with fresh | top
      · obtain ⟨n, pos', leads, ended⟩ := @scan_end lines chdir location s ahead
        have back : turn lines chdir location { s with pos := pos' } =
            .inl { s with pos := 0, rewound := true } := by
          rw [turn_end ended, fresh]
          rfl
        obtain ⟨m, line, leads', there⟩ :=
          @scan_found lines chdir location { s with pos := 0, rewound := true } i found
        exact ⟨n + (1 + m), true, line, leads.trans ((Leads.one back).trans leads'), there⟩
      · rw [top, found] at ahead
        cases ahead

theorem located_none {s : Reading} (none : located lines s.pos s.release = none) :
    Ends (turn lines chdir location) s (leave location s.release s.listTL) := by
  rw [located, Option.or_eq_none_iff] at none
  obtain ⟨ahead, nowhere⟩ := none
  have atEnd : ∀ {s' : Reading}, s'.release = s.release → s'.listTL = s.listTL →
      s'.rewound = true → findFrom lines s'.pos s'.release = .none →
      Ends (turn lines chdir location) s' (leave location s.release s.listTL) := by
    intro s' release listTL rewound ahead'
    obtain ⟨n, pos', leads, ended⟩ := @scan_end lines chdir location s' ahead'
    refine (leads.ends_iff _).mpr (ends_of_turn ?_)
    rw [turn_end ended]
    change (if s'.rewound then Sum.inr (leave location s'.release s'.listTL) else _) = _
    rw [rewound, release, listTL]
    rfl
  cases fresh : s.rewound with
  | true => exact atEnd rfl rfl fresh ahead
  | false =>
      obtain ⟨n, pos', leads, ended⟩ := @scan_end lines chdir location s ahead
      have back : turn lines chdir location { s with pos := pos' } =
          .inl { s with pos := 0, rewound := true } := by
        rw [turn_end ended, fresh]
        rfl
      refine (leads.ends_iff _).mpr (((Leads.one back).ends_iff _).mpr ?_)
      exact @atEnd { s with pos := 0, rewound := true } rfl rfl rfl nowhere

theorem link_spec {s : Reading} (whole : s.Whole) :
    match link lines chdir location s.pos s.release with
    | .missing => Ends (turn lines chdir location) s (leave location s.release s.listTL)
    | .failed outcome => Ends (turn lines chdir location) s outcome
    | .last tl => Ends (turn lines chdir location) s (.found (tl :: s.listTL))
    | .more tl pos next => ∃ n, 0 < n ∧
        Leads (turn lines chdir location) n s ⟨pos, false, next, tl :: s.listTL⟩ := by
  rw [link]
  cases place : located lines s.pos s.release with
  | none => exact located_none place
  | some i =>
      obtain ⟨n, rewound, line, leads, there, same⟩ :=
        @located_found lines chdir location s i whole place
      have turned := @turn_named lines chdir location { s with pos := i, rewound := rewound } line
        there same
      have text : lines.getD i [] = line := by
        rw [List.getD_eq_getElem?_getD, there]
        rfl
      simp only [text]
      change turn lines chdir location { s with pos := i, rewound := rewound } =
        match enter chdir location s.release (nxtarg line blanks).rest with
        | .error outcome => .inr outcome
        | .ok (tl, none) => .inr (.found (tl :: s.listTL))
        | .ok (tl, some release) => .inl ⟨i + 1, false, release, tl :: s.listTL⟩ at turned
      match entered : enter chdir location s.release (nxtarg line blanks).rest with
      | .error outcome =>
          rw [entered] at turned
          exact (leads.ends_iff _).mpr (ends_of_turn turned)
      | .ok (tl, none) =>
          rw [entered] at turned
          exact (leads.ends_iff _).mpr (ends_of_turn turned)
      | .ok (tl, some next) =>
          rw [entered] at turned
          exact ⟨n + 1, Nat.zero_lt_succ n, leads.trans (.one turned)⟩

end Scanning

/-! ## Following the chain -/

section Following

variable {lines : List Name} {chdir : Name → Bool} {location : Option Name}

theorem parserelease_name {relname args : Name} {p : Parsed}
    (parsed : parserelease relname args = .ok p) : p.tl.TLname = relname := by
  have ends := parserelease_ends relname args
  rw [parsed] at ends
  refine ends.invariant (P := fun s => s.1.tl.TLname = relname)
    (Q := fun r => ∀ p, r = .ok p → p.tl.TLname = relname) ?_ ?_ rfl p rfl
  · intro s s' kept goesOn
    rcases parseTurn_cases s with ⟨option, arg, rest, set, -⟩ | done | ⟨reason, failed⟩
    · obtain rfl := Sum.inl.inj (set.symm.trans goesOn)
      rw [← kept]
      cases option <;> rfl
    · cases done.symm.trans goesOn
    · cases failed.symm.trans goesOn
  · rintro s r kept left p rfl
    rcases parseTurn_cases s with ⟨option, arg, rest, set, -⟩ | done | ⟨reason, failed⟩
    · cases set.symm.trans left
    · obtain rfl := Except.ok.inj (Sum.inr.inj (done.symm.trans left))
      exact kept
    · cases failed.symm.trans left

theorem enter_name {release args : Name} {tl : Treelist} {next : Option Name}
    (entered : enter chdir location release args = .ok (tl, next)) : tl.TLname = release := by
  rw [enter] at entered
  cases parsed : parserelease release args with
  | error reason =>
      rw [parsed] at entered
      cases entered
  | ok p =>
      have name := parserelease_name parsed
      rw [parsed] at entered
      simp only at entered
      split at entered
      · cases entered
        exact name
      · split at entered
        · cases entered
          exact name
        · cases entered

theorem enter_error {release args : Name} {outcome : Outcome}
    (entered : enter chdir location release args = .error outcome) (listTL : List Treelist) :
    outcome ≠ .found listTL := by
  rw [enter] at entered
  split at entered
  · cases entered
    exact nofun
  · split at entered
    · cases entered
    · split at entered
      · cases entered
      · cases entered
        exact nofun

theorem link_name {pos : Nat} {release : Name} {tl : Treelist} :
    (link lines chdir location pos release = .last tl → tl.TLname = release) ∧
      ∀ pos' next, link lines chdir location pos release = .more tl pos' next →
        tl.TLname = release := by
  rw [link]
  cases located lines pos release with
  | none => exact ⟨nofun, nofun⟩
  | some i =>
      simp only
      match entered : enter chdir location release (nxtarg (lines.getD i []) blanks).rest with
      | .error outcome => exact ⟨nofun, nofun⟩
      | .ok (tl', none) =>
          refine ⟨fun same => ?_, nofun⟩
          cases same
          exact enter_name entered
      | .ok (tl', some next) =>
          refine ⟨nofun, fun pos' next' same => ?_⟩
          cases same
          exact enter_name entered

theorem link_failed {pos : Nat} {release : Name} {outcome : Outcome}
    (failed : link lines chdir location pos release = .failed outcome) (listTL : List Treelist) :
    outcome ≠ .found listTL := by
  rw [link] at failed
  cases place : located lines pos release with
  | none =>
      rw [place] at failed
      cases failed
  | some i =>
      rw [place] at failed
      simp only at failed
      match entered : enter chdir location release (nxtarg (lines.getD i []) blanks).rest with
      | .error outcome' =>
          rw [entered] at failed
          cases failed
          exact enter_error entered listTL
      | .ok (tl, none) =>
          rw [entered] at failed
          cases failed
      | .ok (tl, some next) =>
          rw [entered] at failed
          cases failed

theorem walk_more {pos pos' : Nat} {release next : Name} {tl : Treelist} (k : Nat)
    (here : link lines chdir location pos release = .more tl pos' next) :
    walk lines chdir location pos release (k + 1) = walk lines chdir location pos' next k := by
  rw [walk, here]

theorem walk_stop {pos : Nat} {release : Name} (k : Nat)
    (stop : ∀ tl pos' next, link lines chdir location pos release ≠ .more tl pos' next) :
    walk lines chdir location pos release (k + 1) = none := by
  rw [walk]
  split
  next here => exact absurd here (stop _ _ _)
  next => rfl

theorem walk_leads (k : Nat) {s : Reading} (whole : s.Whole) {pos : Nat} {here : Name}
    (walked : walk lines chdir location s.pos s.release k = some (pos, here)) :
    ∃ n acc rewound, Leads (turn lines chdir location) n s ⟨pos, rewound, here, acc ++ s.listTL⟩ ∧
      (rewound = false ∨ pos = 0) ∧
      ∀ rest, Chain lines chdir location pos here rest →
        Chain lines chdir location s.pos s.release (acc.reverse ++ rest) := by
  induction k generalizing s with
  | zero =>
      obtain ⟨rfl, rfl⟩ := Prod.mk.inj (Option.some.inj walked)
      exact ⟨0, [], s.rewound, .refl _, whole, fun _ chain => chain⟩
  | succ k ih =>
      have spec := @link_spec lines chdir location s whole
      cases linked : link lines chdir location s.pos s.release with
      | more tl pos' next =>
          rw [linked] at spec
          obtain ⟨n, -, leads⟩ := spec
          rw [walk_more k linked] at walked
          obtain ⟨m, acc, rewound, leads', whole', chain⟩ :=
            @ih ⟨pos', false, next, tl :: s.listTL⟩ (.inl rfl) walked
          refine ⟨n + m, acc ++ [tl], rewound, ?_, whole', fun rest there => ?_⟩
          · rw [List.append_assoc]
            exact leads.trans leads'
          · rw [List.reverse_append, List.append_assoc]
            exact .more linked (chain rest there)
      | missing =>
          rw [walk_stop k (by rw [linked]; exact nofun)] at walked
          cases walked
      | failed outcome =>
          rw [walk_stop k (by rw [linked]; exact nofun)] at walked
          cases walked
      | last tl =>
          rw [walk_stop k (by rw [linked]; exact nofun)] at walked
          cases walked

theorem Chain.walk_eq {pos : Nat} {release : Name} {tls : List Treelist}
    (chain : Chain lines chdir location pos release tls) (k : Nat) :
    (walk lines chdir location pos release k).map Prod.snd = (tls.map Treelist.TLname)[k]? := by
  induction chain generalizing k with
  | last here =>
      cases k with
      | zero => rw [List.map_singleton, link_name.1 here]; rfl
      | succ k =>
          rw [walk_stop k (by rw [here]; exact nofun)]
          rfl
  | byDefault here =>
      cases k with
      | zero => rfl
      | succ k =>
          rw [walk_stop k (by rw [here]; exact nofun)]
          rfl
  | more here later ih =>
      cases k with
      | zero => rw [List.map_cons, link_name.2 _ _ here]; rfl
      | succ k => rw [walk_more k here, ih k, List.map_cons, List.getElem?_cons_succ]

theorem Chain.nodup_iff {release : Name} {tls : List Treelist}
    (chain : Chain lines chdir location 0 release tls) :
    (tls.map Treelist.TLname).Nodup ↔ NoReturn lines chdir location release := by
  constructor
  · intro nodup j k pos pos' here first second
    have atJ := chain.walk_eq j
    have atK := chain.walk_eq k
    rw [first] at atJ
    rw [second] at atK
    obtain ⟨inside, -⟩ := List.getElem?_eq_some_iff.mp atJ.symm
    exact (List.getElem?_inj inside nodup).mp (atJ.symm.trans atK)
  · intro noReturn
    refine List.nodup_iff_getElem?_ne_getElem?.mpr fun i j less inside same => ?_
    obtain ⟨here, atJ⟩ : ∃ here, (tls.map Treelist.TLname)[j]? = some here :=
      ⟨_, List.getElem?_eq_getElem inside⟩
    rw [atJ, ← chain.walk_eq, Option.map_eq_some_iff] at same
    rw [← chain.walk_eq, Option.map_eq_some_iff] at atJ
    obtain ⟨⟨pos, _⟩, first, rfl⟩ := same
    obtain ⟨⟨pos', _⟩, second, rfl⟩ := atJ
    exact Nat.ne_of_lt less (noReturn i j pos pos' _ first second)

theorem walk_ends (n : Nat) {pos : Nat} {release : Name}
    (ended : walk lines chdir location pos release n = none) :
    ∃ k pos' here, walk lines chdir location pos release k = some (pos', here) ∧
      ∀ tl pos'' next, link lines chdir location pos' here ≠ .more tl pos'' next := by
  induction n generalizing pos release with
  | zero => cases ended
  | succ n ih =>
      cases linked : link lines chdir location pos release with
      | more tl pos' next =>
          rw [walk_more n linked] at ended
          obtain ⟨k, there, here, walked, stop⟩ := ih ended
          exact ⟨k + 1, there, here, by rw [walk_more k linked, walked], stop⟩
      | missing => exact ⟨0, pos, release, rfl, by rw [linked]; exact nofun⟩
      | failed outcome => exact ⟨0, pos, release, rfl, by rw [linked]; exact nofun⟩
      | last tl => exact ⟨0, pos, release, rfl, by rw [linked]; exact nofun⟩

theorem walk_succ (k : Nat) {pos : Nat} {release : Name} {next : Nat × Name}
    (walked : walk lines chdir location pos release (k + 1) = some next) :
    ∃ pos' here, walk lines chdir location pos release k = some (pos', here) ∧
      here ∈ lines.map fun line => (nxtarg line blanks).text := by
  induction k generalizing pos release with
  | zero =>
      refine ⟨pos, release, rfl, ?_⟩
      cases place : located lines pos release with
      | none =>
          rw [walk, link, place] at walked
          cases walked
      | some i =>
          obtain ⟨-, -, line, -, there, same⟩ :=
            @located_found lines chdir location ⟨pos, false, release, []⟩ i (.inl rfl) place
          rw [named, Bool.and_eq_true, decide_eq_true_eq] at same
          exact List.mem_map.mpr ⟨line, List.mem_of_getElem? there, same.2⟩
  | succ k ih =>
      cases linked : link lines chdir location pos release with
      | more tl pos' next' =>
          rw [walk_more _ linked] at walked
          obtain ⟨pos'', here, before, member⟩ := ih walked
          exact ⟨pos'', here, by rw [walk_more k linked, before], member⟩
      | missing =>
          rw [walk_stop _ (by rw [linked]; exact nofun)] at walked
          cases walked
      | failed outcome =>
          rw [walk_stop _ (by rw [linked]; exact nofun)] at walked
          cases walked
      | last tl =>
          rw [walk_stop _ (by rw [linked]; exact nofun)] at walked
          cases walked

theorem walk_some_of_le {j k : Nat} (le : j ≤ k) {pos : Nat} {release : Name}
    (goesOn : (walk lines chdir location pos release k).isSome) :
    (walk lines chdir location pos release j).isSome := by
  induction le with
  | refl => exact goesOn
  | step _ ih =>
      obtain ⟨next, walked⟩ := Option.isSome_iff_exists.mp goesOn
      obtain ⟨pos', here, before, -⟩ := walk_succ _ walked
      exact ih (by rw [before]; rfl)

/-- A walk that does not return comes to an end: the file has only so many releases. -/
theorem walk_finite {release : Name} (noReturn : NoReturn lines chdir location release) :
    walk lines chdir location 0 release (lines.length + 1) = none := by
  refine Option.not_isSome_iff_eq_none.mp fun goesOn => ?_
  have visited : ∀ j ∈ List.range (lines.length + 1), ∃ pos here,
      walk lines chdir location 0 release j = some (pos, here) ∧
        here ∈ lines.map fun line => (nxtarg line blanks).text := by
    intro j member
    have further := walk_some_of_le (Nat.succ_le_of_lt (List.mem_range.mp member)) goesOn
    obtain ⟨next, walked⟩ := Option.isSome_iff_exists.mp further
    exact walk_succ j walked
  have distinct : ((List.range (lines.length + 1)).map fun j =>
      (walk lines chdir location 0 release j).map Prod.snd).Nodup := by
    refine List.Nodup.map_on ?_ List.nodup_range
    intro j first k second same
    obtain ⟨pos, here, walked, -⟩ := visited j first
    obtain ⟨pos', here', walked', -⟩ := visited k second
    rw [walked, walked', Option.map_some, Option.map_some, Option.some.injEq] at same
    obtain rfl : here = here' := same
    exact noReturn j k pos pos' here walked walked'
  have inside : ((List.range (lines.length + 1)).map fun j =>
      (walk lines chdir location 0 release j).map Prod.snd) ⊆
      lines.map fun line => some (nxtarg line blanks).text := by
    intro name member
    obtain ⟨j, first, rfl⟩ := List.mem_map.mp member
    obtain ⟨pos, here, walked, there⟩ := visited j first
    obtain ⟨line, member', rfl⟩ := List.mem_map.mp there
    exact List.mem_map.mpr ⟨line, member', by rw [walked]; rfl⟩
  have count := (List.subperm_of_subset distinct inside).length_le
  rw [List.length_map, List.length_map, List.length_range] at count
  omega

/-- The loop before its first turn. -/
def Reading.start (release : Name) : Reading := ⟨0, true, release, []⟩

theorem ends_of_endsBadly {release : Name} (bad : EndsBadly lines chdir location release) :
    ∃ outcome, Ends (turn lines chdir location) (Reading.start release) outcome ∧
      ∀ listTL, outcome ≠ .found listTL := by
  obtain ⟨k, pos, here, walked, stop⟩ := bad
  obtain ⟨n, acc, rewound, leads, whole, -⟩ :=
    @walk_leads lines chdir location k (Reading.start release) (.inr rfl) pos here walked
  have spec := @link_spec lines chdir location ⟨pos, rewound, here, acc ++ []⟩ whole
  rcases stop with ⟨missing, other⟩ | ⟨outcome, failed⟩
  · rw [missing] at spec
    refine ⟨_, (leads.ends_iff _).mpr spec, fun listTL => ?_⟩
    rw [leave, if_neg other]
    exact nofun
  · rw [failed] at spec
    exact ⟨outcome, (leads.ends_iff _).mpr spec, link_failed failed⟩

theorem ends_of_noReturn {release : Name} (noReturn : NoReturn lines chdir location release)
    (good : ¬EndsBadly lines chdir location release) :
    ∃ listTL, Ends (turn lines chdir location) (Reading.start release) (.found listTL) ∧
      Chain lines chdir location 0 release listTL.reverse := by
  obtain ⟨k, pos, here, walked, stop⟩ := walk_ends _ (walk_finite noReturn)
  obtain ⟨n, acc, rewound, leads, whole, chain⟩ :=
    @walk_leads lines chdir location k (Reading.start release) (.inr rfl) pos here walked
  have spec := @link_spec lines chdir location ⟨pos, rewound, here, acc ++ []⟩ whole
  cases linked : link lines chdir location pos here with
  | more tl pos' next => exact absurd linked (stop tl pos' next)
  | failed outcome => exact absurd ⟨k, pos, here, walked, .inr ⟨outcome, linked⟩⟩ good
  | last tl =>
      rw [linked] at spec
      refine ⟨_, (leads.ends_iff _).mpr spec, ?_⟩
      rw [List.append_nil, List.reverse_cons]
      exact chain _ (.last linked)
  | missing =>
      have default : here = DEFRELEASE := Classical.byContradiction fun other =>
        good ⟨k, pos, here, walked, .inl ⟨linked, other⟩⟩
      subst default
      rw [linked] at spec
      refine ⟨_, (leads.ends_iff _).mpr spec, ?_⟩
      rw [List.append_nil, List.reverse_cons]
      exact chain _ (.byDefault linked)

/-- The reading after the next release of the chain. -/
def Reading.next (lines : List Name) (chdir : Name → Bool) (location : Option Name) (s : Reading) :
    Reading :=
  match link lines chdir location s.pos s.release with
  | .more tl pos next => ⟨pos, false, next, tl :: s.listTL⟩
  | _ => s

theorem not_ends_of_walk {s : Reading} (whole : s.Whole)
    (goesOn : ∀ k, walk lines chdir location s.pos s.release k ≠ none) (outcome : Outcome) :
    ¬Ends (turn lines chdir location) s outcome := by
  have along : ∀ k, ((Reading.next lines chdir location)^[k] s).Whole ∧
      ∀ n, walk lines chdir location ((Reading.next lines chdir location)^[k] s).pos
        ((Reading.next lines chdir location)^[k] s).release n ≠ none := by
    intro k
    induction k with
    | zero => exact ⟨whole, goesOn⟩
    | succ k ih =>
        rw [Function.iterate_succ_apply']
        obtain ⟨there, further⟩ := ih
        rw [Reading.next]
        split
        next tl pos next linked =>
          refine ⟨.inl rfl, fun n => ?_⟩
          have walked := further (n + 1)
          rwa [walk_more n linked] at walked
        next => exact ⟨there, further⟩
  refine @not_ends _ _ _ (fun k => (Reading.next lines chdir location)^[k] s) (fun k => ?_) outcome
  obtain ⟨there, further⟩ := along k
  have spec := @link_spec lines chdir location _ there
  have moved := further 1
  simp only [Function.iterate_succ_apply']
  cases linked : link lines chdir location ((Reading.next lines chdir location)^[k] s).pos
      ((Reading.next lines chdir location)^[k] s).release with
  | more tl pos next =>
      rw [linked] at spec
      rw [Reading.next, linked]
      exact spec
  | missing => exact absurd (walk_stop 0 (by rw [linked]; exact nofun)) moved
  | failed outcome => exact absurd (walk_stop 0 (by rw [linked]; exact nofun)) moved
  | last tl => exact absurd (walk_stop 0 (by rw [linked]; exact nofun)) moved

end Following

theorem getrelease_iff (file : Option (List Byte)) (chdir : Name → Bool)
    (location release : Option Name) (outcome : Outcome) :
    Getrelease file chdir location release outcome ↔
      Ends (turn (linesOf file) chdir location) (Reading.start (release.getD DEFRELEASE)) outcome := by
  cases file with
  | some text => exact Iff.rfl
  | none =>
      have ends : Ends (turn [] chdir location) (Reading.start (release.getD DEFRELEASE))
          (leave location (release.getD DEFRELEASE) []) := ends_of_turn rfl
      constructor
      · rintro rfl
        exact ends
      · exact fun ends' => ends'.unique ends

/-- The chain is read exactly if it does not return to a release, or comes to one that is wrong. -/
theorem readsReleases_iff (file : Option (List Byte)) (chdir : Name → Bool)
    (location release : Option Name) :
    ReadsReleases file chdir location release ↔
      EndsBadly (linesOf file) chdir location (release.getD DEFRELEASE) ∨
        NoReturn (linesOf file) chdir location (release.getD DEFRELEASE) := by
  constructor
  · rintro ⟨outcome, -, right⟩
    cases outcome with
    | found listTL =>
        obtain ⟨chain, nodup⟩ := right
        rw [← List.nodup_reverse, ← List.map_reverse] at nodup
        exact .inr (chain.nodup_iff.mp nodup)
    | notFound => exact .inl right
    | goaway reason => exact .inl right
  · intro condition
    by_cases bad : EndsBadly (linesOf file) chdir location (release.getD DEFRELEASE)
    · obtain ⟨outcome, ends, other⟩ := ends_of_endsBadly bad
      refine ⟨outcome, (getrelease_iff ..).mpr ends, ?_⟩
      cases outcome with
      | found listTL => exact absurd rfl (other listTL)
      | notFound => exact bad
      | goaway reason => exact bad
    · have noReturn := condition.resolve_left bad
      obtain ⟨listTL, ends, chain⟩ := ends_of_noReturn noReturn bad
      refine ⟨_, (getrelease_iff ..).mpr ends, chain, ?_⟩
      rw [← List.nodup_reverse, ← List.map_reverse]
      exact chain.nodup_iff.mpr noReturn

/-- `a next=a`, and the release `a`. -/
def selfChained : List Byte := [97, 32, 110, 101, 120, 116, 61, 97, 10]

theorem walk_selfChained (k : Nat) : ∃ pos tl,
    walk (linesOf (some selfChained)) (fun _ => true) none 0 [97] k = some (pos, [97]) ∧
      link (linesOf (some selfChained)) (fun _ => true) none pos [97] = .more tl 1 [97] := by
  have top : link (linesOf (some selfChained)) (fun _ => true) none 0 [97] =
      .more ⟨[97], none, none, none, none⟩ 1 [97] := by rfl
  have again : link (linesOf (some selfChained)) (fun _ => true) none 1 [97] =
      .more ⟨[97], none, none, none, none⟩ 1 [97] := by rfl
  have fromOne : ∀ k, walk (linesOf (some selfChained)) (fun _ => true) none 1 [97] k =
      some (1, [97]) := by
    intro k
    induction k with
    | zero => rfl
    | succ k ih => rw [walk_more k again, ih]
  cases k with
  | zero => exact ⟨0, _, rfl, top⟩
  | succ k => exact ⟨1, _, by rw [walk_more k top, fromOne], again⟩

end MachFormal.Sup.Releases
