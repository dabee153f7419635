import MachFormal.Sup.Releases

/-!
# Reading the list files

A list file has a line for each of its entries: a keyword and names, which are expanded
like file names of the shell.  A file that is included is read at that place, and the file
that includes it stays open, so that there are never more of them than the process can
have files open.  A command is copied for every name with the name in it, into a buffer of
`STRINGLENGTH`.

The disk, and what `expand` and `sprintf` make of their arguments, are given.
-/

namespace MachFormal.Sup.Readlist

open Library Library.Loop Sup.Lists Releases

/-! ## Keywords -/

inductive ListType where
  | upgrade
  | omit
  | backup
  | execute
  | include
  | noaccount
  | omitany
  | always
  | symlink
  | rsymlink
  deriving DecidableEq

/-- The table of keywords: `upgrade`, `omit`, `backup`, `execute`, `include`, `noaccount`,
`omitany`, `always`, `symlink` and `rsymlink`. -/
def ltname : List (Name × ListType) :=
  [([117, 112, 103, 114, 97, 100, 101], .upgrade), ([111, 109, 105, 116], .omit),
    ([98, 97, 99, 107, 117, 112], .backup), ([101, 120, 101, 99, 117, 116, 101], .execute),
    ([105, 110, 99, 108, 117, 100, 101], .include),
    ([110, 111, 97, 99, 99, 111, 117, 110, 116], .noaccount),
    ([111, 109, 105, 116, 97, 110, 121], .omitany), ([97, 108, 119, 97, 121, 115], .always),
    ([115, 121, 109, 108, 105, 110, 107], .symlink),
    ([114, 115, 121, 109, 108, 105, 110, 107], .rsymlink)]

def listType (q : Name) : Option ListType := (ltname.find? fun k => k.1 = q).map Prod.snd

/-! ## What a line asks for -/

/-- An insertion into one of the trees of the list file; a command goes with its file. -/
inductive Insertion where
  | upgrade (name : CString) (always : Bool)
  | backup (name : CString)
  | noaccount (name : CString)
  | omit (name : CString)
  | omitany (name : CString)
  | symlink (name : CString)
  | rsymlink (name : CString)
  | execute (name command : CString)

/-- Why reading stops: a file that cannot be opened, a word that is no keyword, a command
without names, or a command that does not fit the buffer. -/
inductive Reason where
  | unreadable (fname : CString)
  | keyword (q : Name)
  | handling (ltn : Nat)
  | overrun

inductive Step where
  | insert (i : Insertion)
  | read (fname : CString)
  | stop (reason : Reason)

/-- The files, `expand` in the base directory and in the directory of the collection, and
`sprintf` of a command and a name. -/
structure Surroundings where
  files : CString → Option (List Byte)
  includes : CString → List CString
  expand : CString → List CString
  sprintf : CString → CString → CString

def SPECNUMBER : Nat := 1000

/-- The arguments of a line, up to an empty one. -/
def arguments : Nat → Name → List Name
  | 0, _ => []
  | turns + 1, p =>
      let q := nxtarg p blanks
      if q.text = [] then [] else q.text :: arguments turns q.rest

def opening : Byte := 40

def closing : Byte := 41

/-- Where a command ends, and the parenthesis after it or the end of the line. -/
def commandEnd : Nat → Name → Name × Name
  | 0, p => (p, p)
  | turns + 1, p =>
      let q := skipto [space, tab, opening] p
      let p := skipover blanks q
      if p.head? = some opening ∨ p = [] then (q, p) else commandEnd turns p

/-- The names in parentheses; a missing parenthesis is taken to be at the end. -/
def commandNames : Nat → Name → List Name
  | 0, _ => []
  | turns + 1, p =>
      let q := nxtarg p [space, tab, closing]
      if q.text = [] then []
      else if q.argbreak = closing then [q.text]
      else q.text :: commandNames turns q.rest

section Lines

variable (w : Surroundings)

/-- `expTinsert`, of what the name stands for. -/
def expTinsert (insert : CString → Insertion) (p : Name) : List Step :=
  ((w.expand (CString.ofMemory p)).take SPECNUMBER).map fun name => .insert (insert name)

/-- `expTinsert` with a command. -/
def expTinsertExec (exec : CString) (p : Name) : List Step :=
  ((w.expand (CString.ofMemory p)).take SPECNUMBER).map fun name =>
    if STRINGLENGTH ≤ (w.sprintf exec name).data.length then .stop .overrun
    else .insert (.execute name (w.sprintf exec name))

/-- The line of a command. -/
def executeSteps (p : Name) : List Step :=
  let r := skipover blanks p
  let (q, p) := commandEnd (r.length + 1) r
  match p with
  | [] => [.stop (.handling 3)]
  | _ :: p =>
      (commandNames (p.length + 1) p).flatMap
        (expTinsertExec w (CString.ofMemory (r.take (r.length - q.length))))

/-- The arguments of a line with the keyword. -/
def keywordSteps (lt : ListType) (p : Name) : List Step :=
  match lt with
  | .upgrade => (arguments (p.length + 1) p).flatMap (expTinsert w (.upgrade · false))
  | .omit => (arguments (p.length + 1) p).flatMap (expTinsert w .omit)
  | .backup => (arguments (p.length + 1) p).flatMap (expTinsert w .backup)
  | .execute => executeSteps w p
  | .include => (arguments (p.length + 1) p).flatMap fun q =>
      ((w.includes (CString.ofMemory q)).take SPECNUMBER).map .read
  | .noaccount => (arguments (p.length + 1) p).flatMap (expTinsert w .noaccount)
  | .omitany => (arguments (p.length + 1) p).map fun q => .insert (.omitany (CString.ofMemory q))
  | .always => (arguments (p.length + 1) p).flatMap (expTinsert w (.upgrade · true))
  | .symlink => (arguments (p.length + 1) p).flatMap (expTinsert w .symlink)
  | .rsymlink => (arguments (p.length + 1) p).flatMap (expTinsert w .rsymlink)

/-- A line of `readlistfile`. -/
def lineSteps (line : Name) : List Step :=
  if Releases.comment line then []
  else
    let q := nxtarg line blanks
    if q.text = [] then []
    else
      match listType q.text with
      | none => [.stop (.keyword q.text)]
      | some lt => keywordSteps w lt q.rest

/-! ## Files that include each other -/

/-- What is left of the file that is being read and of those that include it, and what has been
inserted.  So many more files can be opened. -/
structure Progress where
  free : Nat
  current : List Step
  suspended : List (List Step)
  made : List Insertion

/-- A turn of `readlistfile`, its calls of itself included. -/
def readTurn (s : Progress) : Progress ⊕ Except Reason (List Insertion) :=
  match s.current with
  | [] =>
      match s.suspended with
      | [] => .inr (.ok s.made)
      | steps :: rest => .inl ⟨s.free + 1, steps, rest, s.made⟩
  | .insert i :: steps => .inl { s with current := steps, made := s.made ++ [i] }
  | .stop reason :: _ => .inr (.error reason)
  | .read fname :: steps =>
      match s.free, w.files fname with
      | free + 1, some text =>
          .inl ⟨free, (fileLines text).flatMap (lineSteps w), steps :: s.suspended, s.made⟩
      | _, _ => .inr (.error (.unreadable fname))

/-- `readlistfile`, when so many files can be opened. -/
def Readlistfile (free : Nat) (fname : CString) (outcome : Except Reason (List Insertion)) : Prop :=
  Ends (readTurn w) ⟨free, [.read fname], [], []⟩ outcome

end Lines

/-! ## The loops of a line end -/

/-! ## Reading ends -/

section Ending

variable {w : Surroundings}

/-- The steps of a file are taken to their end or reading stops, if that is so for a file that is
included. -/
theorem steps_read (free : Nat)
    (reads : ∀ fname steps suspended made,
      (∃ n made', Leads (readTurn w) n ⟨free, .read fname :: steps, suspended, made⟩
        ⟨free, steps, suspended, made'⟩) ∨
      ∃ reason, Ends (readTurn w) ⟨free, .read fname :: steps, suspended, made⟩ (.error reason))
    (current : List Step) (suspended : List (List Step)) (made : List Insertion) :
    (∃ n made', Leads (readTurn w) n ⟨free, current, suspended, made⟩ ⟨free, [], suspended, made'⟩) ∨
      ∃ reason, Ends (readTurn w) ⟨free, current, suspended, made⟩ (.error reason) := by
  induction current generalizing made with
  | nil => exact .inl ⟨0, made, .refl _⟩
  | cons step steps ih =>
      cases step with
      | insert i =>
          have turned : readTurn w ⟨free, .insert i :: steps, suspended, made⟩ =
              .inl ⟨free, steps, suspended, made ++ [i]⟩ := rfl
          rcases ih (made ++ [i]) with ⟨n, made', leads⟩ | ⟨reason, ends⟩
          · exact .inl ⟨n + 1, made', .step turned leads⟩
          · exact .inr ⟨reason, ((Leads.one turned).ends_iff _).mpr ends⟩
      | stop reason => exact .inr ⟨reason, ends_of_turn rfl⟩
      | read fname =>
          rcases reads fname steps suspended made with ⟨n, made', leads⟩ | stopped
          · rcases ih made' with ⟨n', made'', leads'⟩ | ⟨reason, ends⟩
            · exact .inl ⟨n + n', made'', leads.trans leads'⟩
            · exact .inr ⟨reason, (leads.ends_iff _).mpr ends⟩
          · exact .inr stopped

/-- However the files include each other, what is left of one is read or reading stops: by
induction on how many more can be opened. -/
theorem current_read (free : Nat) (current : List Step) (suspended : List (List Step))
    (made : List Insertion) :
    (∃ n made', Leads (readTurn w) n ⟨free, current, suspended, made⟩ ⟨free, [], suspended, made'⟩) ∨
      ∃ reason, Ends (readTurn w) ⟨free, current, suspended, made⟩ (.error reason) := by
  induction free generalizing current suspended made with
  | zero =>
      refine steps_read 0 (fun fname steps suspended made => ?_) current suspended made
      exact .inr ⟨.unreadable fname, ends_of_turn rfl⟩
  | succ free ih =>
      refine steps_read (free + 1) (fun fname steps suspended made => ?_) current suspended made
      cases there : w.files fname with
      | none =>
          refine .inr ⟨.unreadable fname, ends_of_turn ?_⟩
          simp only [readTurn, there]
      | some text =>
          have entered : readTurn w ⟨free + 1, .read fname :: steps, suspended, made⟩ =
              .inl ⟨free, (fileLines text).flatMap (lineSteps w), steps :: suspended, made⟩ := by
            simp only [readTurn, there]
          rcases ih ((fileLines text).flatMap (lineSteps w)) (steps :: suspended) made with
            ⟨n, made', leads⟩ | ⟨reason, ends⟩
          · have left : readTurn w ⟨free, [], steps :: suspended, made'⟩ =
                .inl ⟨free + 1, steps, suspended, made'⟩ := rfl
            exact .inl ⟨n + 1 + 1, made', .step entered (leads.trans (.one left))⟩
          · exact .inr ⟨reason, ((Leads.one entered).ends_iff _).mpr ends⟩

theorem readlistfile_ends (w : Surroundings) (free : Nat) (fname : CString) :
    ∃ outcome, Readlistfile w free fname outcome := by
  rcases @current_read w free [.read fname] [] [] with ⟨n, made, leads⟩ | ⟨reason, ends⟩
  · exact ⟨.ok made, (leads.ends_iff _).mpr (ends_of_turn rfl)⟩
  · exact ⟨.error reason, ends⟩

/-- The releases and the list files of a collection are read exactly if the chain of the releases
does not return, or comes to a release that is wrong. -/
theorem reading_ends_iff (file : Option (List Byte)) (chdir : Name → Bool)
    (location release : Option Name) :
    (ReadsReleases file chdir location release ∧
        ∀ (w : Surroundings) (free : Nat) (fname : CString),
          ∃ outcome, Readlistfile w free fname outcome) ↔
      EndsBadly (linesOf file) chdir location (release.getD DEFRELEASE) ∨
        NoReturn (linesOf file) chdir location (release.getD DEFRELEASE) := by
  rw [← readsReleases_iff]
  exact and_iff_left readlistfile_ends

end Ending

/-- A release that comes after itself is followed for ever. -/
theorem selfChained_endless :
    (∀ outcome, ¬Getrelease (some selfChained) (fun _ => true) none (some [97]) outcome) ∧
      ¬(ReadsReleases (some selfChained) (fun _ => true) none (some [97]) ∧
        ∀ (w : Surroundings) (free : Nat) (fname : CString),
          ∃ outcome, Readlistfile w free fname outcome) := by
  have endless : ∀ outcome, ¬Getrelease (some selfChained) (fun _ => true) none (some [97]) outcome := by
    intro outcome
    rw [getrelease_iff]
    refine not_ends_of_walk (.inr rfl) (fun k => ?_) outcome
    obtain ⟨pos, tl, walked, -⟩ := walk_selfChained k
    rw [show walk (linesOf (some selfChained)) (fun _ => true) none
      (Reading.start ((some [97]).getD DEFRELEASE)).pos
      (Reading.start ((some [97]).getD DEFRELEASE)).release k = _ from walked]
    exact nofun
  exact ⟨endless, fun ⟨⟨outcome, ends, _⟩, _⟩ => endless outcome ends⟩

end MachFormal.Sup.Readlist
