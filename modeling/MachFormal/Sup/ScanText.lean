import MachFormal.Library.Text
import MachFormal.Sup.Sights

/-!
# The text of a scan file

A scan file has a line for each file, with its flags as letters, its mode in octal, its
times in decimal and its name, and a line for each of its commands.  The lines are read
back into a buffer of `STRINGLENGTH`.
-/

namespace MachFormal.Sup.Lists

open Library Library.Text

def SCANVERSION : CInt := 2

def letterB : Byte := 66
def letterN : Byte := 78
def letterV : Byte := 86
def letterX : Byte := 88
def space : Byte := 32
def tab : Byte := 9
def minus : Byte := 45
def plus : Byte := 43

/-! ## Writing -/

/-- `%o`. -/
def octal (x : CInt) : Name := numeral 8 x.toNat

/-- `%d`. -/
def decimal (x : CInt) : Name :=
  if x.toInt < 0 then minus :: numeral 10 x.toInt.natAbs else numeral 10 x.toInt.natAbs

/-- The line of a file, as `recordone` writes it. -/
def fileLine (name : CString) (t : Node) : Name :=
  (if has t.flags FBACKUP then [letterB] else []) ++
    (if has t.flags FNOACCT then [letterN] else []) ++
    (octal t.mode ++ space :: (decimal t.ctime ++ space :: (decimal t.mtime ++ space :: name.data)))

/-- `recordexec`. -/
def commandLine (command : CString) : Name := letterX :: command.data

/-- `recordone`. -/
def recordLines (entry : CString × Node) : List Name :=
  fileLine entry.1 entry.2 :: (names entry.2.exec).map commandLine

def versionLine : Name := letterV :: decimal SCANVERSION

def makescanfile (listT : NodeTree) : List Byte :=
  ((versionLine :: listT.toList.flatMap recordLines).map fun line => line ++ [newline]).flatten

/-! ## Reading -/

def skipBlanks (p : Name) : Name := p.dropWhile fun b => b = space || b = tab

def atoo (p : Name) : CInt := value 32 8 ((skipBlanks p).takeWhile (isDigit 8))

def atoi (p : Name) : CInt :=
  match skipBlanks p with
  | [] => 0
  | c :: rest =>
      if c = minus then -value 32 10 (rest.takeWhile (isDigit 10))
      else if c = plus then value 32 10 (rest.takeWhile (isDigit 10))
      else value 32 10 ((c :: rest).takeWhile (isDigit 10))

/-- What stands before the next space, and what after it. -/
def field (p : Name) : Option (Name × Name) :=
  match p.dropWhile (· ≠ space) with
  | [] => none
  | _ :: rest => some (p.takeWhile (· ≠ space), rest)

/-- Whether the letter is there, and what comes after it. -/
def flagged (letter : Byte) : Name → Bool × Name
  | [] => (false, [])
  | b :: p => if b = letter then (true, p) else (false, b :: p)

def parseFile (p : Name) : Option ScanLine := do
  let (backup, p) := flagged letterB p
  let (noacct, p) := flagged letterN p
  let (mode, p) ← field p
  let (ctime, p) ← field p
  let (mtime, name) ← field p
  some (.file backup noacct ⟨atoo mode, atoi ctime, atoi mtime⟩ (CString.ofMemory name))

/-- A line of `getscanfile`; it fails where the format is inconsistent. -/
def parseLine : Name → Option ScanLine
  | [] => parseFile []
  | b :: p => if b = letterX then some (.exec (CString.ofMemory p)) else parseFile (b :: p)

/-- The line in the buffer, without the newline. -/
def buffered (line : Name) : Name := (line.takeWhile (· ≠ newline)).takeWhile (· ≠ 0)

/-- The lines after the version, if it is the right one. -/
def versionedLines (text : List Byte) : Option (List Name) :=
  match (readLines (STRINGLENGTH - 1) text.length text).map buffered with
  | (b :: p) :: lines => if b = letterV ∧ atoi p = SCANVERSION then some lines else none
  | _ => none

/-- `getscanfile`, of a file with this text and this time.  The outer failure is that the
server gives up, the inner one that the file is not used. -/
def readScanfile (q : Request) (mtime : CInt) (text : List Byte) (listTL : List NodeTree) :
    Option (Option (NodeTree × List NodeTree)) :=
  match versionedLines text with
  | none => some none
  | some lines =>
      if q.newonly && mtime = q.lasttime then some (some (.empty, listTL))
      else ((lines.mapM parseLine).bind fun read => getscanfile q mtime read listTL).map some

/-! ## What is written is read back -/

section RoundTrip

theorem numeral_digit {base n : Nat} (low : 2 ≤ base) (high : base ≤ 10) {b : Byte}
    (member : b ∈ numeral base n) : 48 ≤ b.toNat ∧ b.toNat < 58 := by
  have digit := isDigit_numeral low high b member
  rw [isDigit, Bool.and_eq_true, decide_eq_true_eq, decide_eq_true_eq] at digit
  omega

theorem octal_digit {x : CInt} {b : Byte} (member : b ∈ octal x) : 48 ≤ b.toNat ∧ b.toNat < 58 :=
  numeral_digit (by decide) (by decide) member

/-- A decimal number consists of digits and possibly a sign. -/
theorem decimal_digit {x : CInt} {b : Byte} (member : b ∈ decimal x) :
    45 ≤ b.toNat ∧ b.toNat < 58 := by
  rw [decimal] at member
  split at member
  · rcases List.mem_cons.mp member with rfl | member
    · decide
    · have digit := numeral_digit (by decide) (by decide) member
      omega
  · have digit := numeral_digit (by decide) (by decide) member
    omega

theorem skipBlanks_eq {p : Name} (solid : ∀ b ∈ p, 45 ≤ b.toNat) : skipBlanks p = p := by
  cases p with
  | nil => rfl
  | cons b p =>
      refine List.dropWhile_cons_of_neg fun blank => ?_
      have above := solid b List.mem_cons_self
      rw [Bool.or_eq_true, decide_eq_true_eq, decide_eq_true_eq] at blank
      rcases blank with rfl | rfl
      · exact absurd above (by decide)
      · exact absurd above (by decide)

theorem atoo_octal (x : CInt) : atoo (octal x) = x := by
  have solid : ∀ b ∈ octal x, 45 ≤ b.toNat := fun b member => by
    have digit := octal_digit member
    omega
  rw [atoo, skipBlanks_eq solid, octal, takeWhile_numeral (by decide) (by decide),
    value_numeral (by decide) (by decide), BitVec.ofNat_toNat, BitVec.setWidth_eq]

theorem ofNat_natAbs (x : CInt) : x =
    if x.toInt < 0 then -BitVec.ofNat 32 x.toInt.natAbs
    else BitVec.ofNat 32 x.toInt.natAbs := by
  have whole : x = BitVec.ofInt 32 x.toInt := BitVec.ofInt_toInt.symm
  split
  next negative =>
    have size : x.toInt = -(x.toInt.natAbs : Int) := by omega
    rw [← BitVec.ofInt_natCast, ← BitVec.ofInt_neg, ← size]
    exact whole
  next nonneg =>
    have size : x.toInt = (x.toInt.natAbs : Int) := by omega
    rw [← BitVec.ofInt_natCast, ← size]
    exact whole

theorem atoi_decimal (x : CInt) : atoi (decimal x) = x := by
  rw [atoi, skipBlanks_eq fun b member => (decimal_digit member).1, decimal]
  by_cases negative : x.toInt < 0
  · rw [if_pos negative]
    dsimp only
    rw [if_pos rfl, takeWhile_numeral (by decide) (by decide),
      value_numeral (by decide) (by decide)]
    exact ((ofNat_natAbs x).trans (if_pos negative)).symm
  · rw [if_neg negative]
    have digit : ∀ b ∈ numeral 10 x.toInt.natAbs, b ≠ minus ∧ b ≠ plus := by
      intro b member
      have digit := numeral_digit (by decide) (by decide) member
      refine ⟨?_, ?_⟩
      · rintro rfl
        exact absurd digit (by decide)
      · rintro rfl
        exact absurd digit (by decide)
    have number : value 32 10 ((numeral 10 x.toInt.natAbs).takeWhile (isDigit 10)) = x := by
      rw [takeWhile_numeral (by decide) (by decide), value_numeral (by decide) (by decide)]
      exact ((ofNat_natAbs x).trans (if_neg negative)).symm
    cases shape : numeral 10 x.toInt.natAbs with
    | nil => exact absurd shape numeral_ne_nil
    | cons c rest =>
        rw [shape] at digit number
        obtain ⟨notMinus, notPlus⟩ := digit c List.mem_cons_self
        dsimp only
        rw [if_neg notMinus, if_neg notPlus, number]

/-! Fields and lines. -/

theorem field_append {p rest : Name} (solid : ∀ b ∈ p, 45 ≤ b.toNat) :
    field (p ++ space :: rest) = some (p, rest) := by
  have other : ∀ b ∈ p, decide (b ≠ space) = true := by
    intro b member
    refine decide_eq_true fun same => ?_
    rw [same] at member
    exact absurd (solid space member) (by decide)
  have dropped : (space :: rest).dropWhile (fun b => decide (b ≠ space)) = space :: rest :=
    List.dropWhile_cons_of_neg (by simp)
  have taken : (space :: rest).takeWhile (fun b => decide (b ≠ space)) = [] :=
    List.takeWhile_cons_of_neg (by simp)
  rw [field, List.dropWhile_append_of_pos other, dropped, List.takeWhile_append_of_pos other,
    taken, List.append_nil]

theorem flagged_letter (letter : Byte) (p : Name) (set : Bool)
    (other : ∀ b ∈ p.head?, b ≠ letter) :
    flagged letter ((if set then [letter] else []) ++ p) = (set, p) := by
  cases set with
  | true => exact if_pos rfl
  | false =>
      cases p with
      | nil => rfl
      | cons b p => exact if_neg (other b rfl)

/-- The entry of a scan file that a node gives. -/
def entryOf (entry : CString × Node) : ScanEntry :=
  ⟨has entry.2.flags FBACKUP, has entry.2.flags FNOACCT,
    ⟨entry.2.mode, entry.2.ctime, entry.2.mtime⟩, entry.1, names entry.2.exec⟩

theorem parseLine_fileLine (name : CString) (t : Node) : parseLine (fileLine name t) =
    some (.file (has t.flags FBACKUP) (has t.flags FNOACCT) ⟨t.mode, t.ctime, t.mtime⟩ name) := by
  have octalSolid : ∀ b ∈ octal t.mode, 45 ≤ b.toNat := fun b member => by
    have digit := octal_digit member
    omega
  have decimalSolid : ∀ x : CInt, ∀ b ∈ decimal x, 45 ≤ b.toNat :=
    fun x b member => (decimal_digit member).1
  -- the mode begins with a digit, which is none of the letters
  obtain ⟨d, rest, mode, digit⟩ : ∃ d rest, octal t.mode = d :: rest ∧ d.toNat < 58 := by
    cases shape : octal t.mode with
    | nil => exact absurd shape numeral_ne_nil
    | cons d rest =>
        refine ⟨d, rest, rfl, (octal_digit (x := t.mode) (b := d) ?_).2⟩
        rw [shape]
        exact List.mem_cons_self
  have notLetter : ∀ letter : Byte, 58 ≤ letter.toNat → d ≠ letter := by
    rintro letter above rfl
    omega
  have parsed : parseFile (fileLine name t) =
      some (.file (has t.flags FBACKUP) (has t.flags FNOACCT) ⟨t.mode, t.ctime, t.mtime⟩ name) := by
    rw [parseFile, fileLine, List.append_assoc, flagged_letter]
    · dsimp only
      rw [flagged_letter]
      · dsimp only
        rw [field_append octalSolid, Option.bind_eq_bind, Option.bind_some]
        dsimp only
        rw [field_append (decimalSolid _), Option.bind_some]
        dsimp only
        rw [field_append (decimalSolid _), Option.bind_some]
        rw [atoo_octal, atoi_decimal, atoi_decimal, CString.ofMemory_data]
      · rw [mode]
        rintro b ⟨⟩
        exact notLetter letterN (by decide)
    · rw [mode]
      split
      · rintro b ⟨⟩
        decide
      · rintro b ⟨⟩
        exact notLetter letterB (by decide)
  have first : ∀ b ∈ (fileLine name t).head?, b ≠ letterX := by
    rw [fileLine, mode]
    split
    · rintro b ⟨⟩
      decide
    · split
      · rintro b ⟨⟩
        decide
      · rintro b ⟨⟩
        exact notLetter letterX (by decide)
  cases shape : fileLine name t with
  | nil => rw [parseLine, ← shape, parsed]
  | cons b p =>
      rw [shape] at first
      rw [parseLine, if_neg (first b rfl), ← shape, parsed]

theorem parseLine_commandLine (command : CString) :
    parseLine (commandLine command) = some (.exec command) := by
  rw [commandLine, parseLine, if_pos rfl, CString.ofMemory_data]

theorem parse_recordLines (entry : CString × Node) :
    (recordLines entry).mapM parseLine = some (entryOf entry).lines := by
  have commands : ∀ l : List CString,
      (l.map commandLine).mapM parseLine = some (l.map ScanLine.exec) := by
    intro l
    induction l with
    | nil => rfl
    | cons command l ih =>
        rw [List.map_cons, List.mapM_cons, parseLine_commandLine, ih]
        rfl
  rw [recordLines, List.mapM_cons, parseLine_fileLine, commands]
  rfl

theorem parse_lines (entries : List (CString × Node)) :
    (entries.flatMap recordLines).mapM parseLine =
      some ((entries.map entryOf).flatMap ScanEntry.lines) := by
  induction entries with
  | nil => rfl
  | cons entry entries ih =>
      rw [List.flatMap_cons, List.mapM_append, parse_recordLines, ih, List.map_cons,
        List.flatMap_cons]
      rfl

/-- A line without newlines and zero bytes. -/
def Clean (line : Name) : Prop := newline ∉ line ∧ (0 : Byte) ∉ line

theorem clean_of_solid {p : Name} (solid : ∀ b ∈ p, 45 ≤ b.toNat) : Clean p := by
  refine ⟨fun member => ?_, fun member => ?_⟩
  · exact absurd (solid newline member) (by decide)
  · exact absurd (solid 0 member) (by decide)

theorem Clean.append {p r : Name} (first : Clean p) (second : Clean r) : Clean (p ++ r) := by
  rw [Clean, List.mem_append, List.mem_append]
  exact ⟨fun either => either.elim first.1 second.1, fun either => either.elim first.2 second.2⟩

theorem Clean.cons {b : Byte} {p : Name} (first : b ≠ newline ∧ b ≠ 0) (rest : Clean p) :
    Clean (b :: p) := by
  rw [Clean, List.mem_cons, List.mem_cons]
  exact ⟨fun either => either.elim (fun same => first.1 same.symm) rest.1,
    fun either => either.elim (fun same => first.2 same.symm) rest.2⟩

theorem clean_string {name : CString} (single : newline ∉ name.data) : Clean name.data :=
  ⟨single, name.noNul⟩

theorem clean_fileLine {name : CString} (t : Node) (single : newline ∉ name.data) :
    Clean (fileLine name t) := by
  have separator : space ≠ newline ∧ space ≠ 0 := by decide
  have decimals : ∀ x : CInt, Clean (decimal x) :=
    fun x => clean_of_solid fun b member => (decimal_digit member).1
  have mode : Clean (octal t.mode) := clean_of_solid fun b member => by
    have digit := octal_digit member
    omega
  have letter : ∀ (set : Bool) (b : Byte), 45 ≤ b.toNat → Clean (if set then [b] else []) := by
    intro set b solid
    refine clean_of_solid fun c member => ?_
    split at member
    · rw [List.mem_singleton.mp member]
      exact solid
    · exact absurd member List.not_mem_nil
  refine ((letter _ letterB (by decide)).append (letter _ letterN (by decide))).append ?_
  refine mode.append (Clean.cons separator ?_)
  refine (decimals _).append (Clean.cons separator ?_)
  exact (decimals _).append (Clean.cons separator (clean_string single))

theorem clean_recordLines {entry : CString × Node} (single : newline ∉ entry.1.data)
    (commands : ∀ command ∈ names entry.2.exec, newline ∉ command.data) :
    ∀ line ∈ recordLines entry, Clean line := by
  intro line member
  rcases List.mem_cons.mp member with rfl | member
  · exact clean_fileLine entry.2 single
  · obtain ⟨command, inside, rfl⟩ := List.mem_map.mp member
    exact Clean.cons (by decide) (clean_string (commands command inside))

theorem buffered_line {line : Name} (clean : Clean line) : buffered (line ++ [newline]) = line := by
  have before : ∀ b ∈ line, decide (b ≠ newline) = true := by
    intro b member
    refine decide_eq_true fun same => ?_
    exact clean.1 (same ▸ member)
  have nonzero : ∀ b ∈ line, decide (b ≠ 0) = true := by
    intro b member
    refine decide_eq_true fun same => ?_
    exact clean.2 (same ▸ member)
  rw [buffered, List.takeWhile_append_of_pos before,
    List.takeWhile_cons_of_neg (by simp), List.append_nil]
  exact List.takeWhile_eq_self_iff.mpr nonzero

/-- The lines of a scan file are read as they were written. -/
theorem versionedLines_makescanfile {listT : NodeTree}
    (clean : ∀ line ∈ listT.toList.flatMap recordLines, Clean line)
    (short : ∀ line ∈ listT.toList.flatMap recordLines, line.length + 1 < STRINGLENGTH) :
    versionedLines (makescanfile listT) = some (listT.toList.flatMap recordLines) := by
  have first : Clean versionLine :=
    Clean.cons (by decide) (clean_of_solid fun b member => (decimal_digit member).1)
  have cleanAll : ∀ line ∈ versionLine :: listT.toList.flatMap recordLines, Clean line := by
    intro line member
    rcases List.mem_cons.mp member with rfl | member
    · exact first
    · exact clean line member
  have fits : ∀ line ∈ versionLine :: listT.toList.flatMap recordLines,
      newline ∉ line ∧ line.length < STRINGLENGTH - 1 := by
    intro line member
    refine ⟨(cleanAll line member).1, ?_⟩
    rcases List.mem_cons.mp member with rfl | member
    · decide
    · have below := short line member
      omega
  have lines : (readLines (STRINGLENGTH - 1) (makescanfile listT).length
      (makescanfile listT)).map buffered = versionLine :: listT.toList.flatMap recordLines := by
    rw [makescanfile, readLines_flatten _ fits _ (Nat.le_refl _), List.map_map]
    refine (List.map_congr_left fun line member => ?_).trans (List.map_id _)
    exact buffered_line (cleanAll line member)
  rw [versionedLines, lines, versionLine]
  exact if_pos ⟨rfl, atoi_decimal SCANVERSION⟩

end RoundTrip

end MachFormal.Sup.Lists
