import MachFormal.Sup.Releases

/-!
# Host access files

A release of a collection may have a file with the hosts that can upgrade it.  `setup`
looks for the first line of it that admits the remote host; a line with an exclamation
mark admits every host but the one that it names.  What follows the name of the host is
the key that the rest of the session is encrypted with.

Whether a name is that of the remote host is asked of the name service; the model has a
predicate for it, and a function for the files that can be opened.
-/

namespace MachFormal.Sup.HostAccess

open Library Library.Text Sup.Lists Sup.Releases

/-! ## A line -/

def exclamation : Byte := 33

/-- `not`, `q` and what is left of the line. -/
structure Entry where
  negated : Bool
  host : Name
  key : Name
  deriving DecidableEq

/-- What is made of a line.  The exclamation mark may stand apart from the host. -/
def entry (line : Name) : Entry :=
  let q := nxtarg line blanks
  if q.text.head? = some exclamation then
    if q.text.tail = [] then
      let q := nxtarg q.rest blanks
      ⟨true, q.text, q.rest⟩
    else ⟨true, q.text.tail, q.rest⟩
  else ⟨false, q.text, q.rest⟩

/-- `cryptkey`, after this line. -/
def Entry.cryptkey (e : Entry) (cryptkey : Option Name) : Option Name :=
  if e.key = [] then cryptkey else some e.key

/-! ## The files -/

section Files

variable (matchhost : Name → Bool)

def hostok (e : Entry) : Bool := e.negated == !matchhost e.host

/-- The loop over the lines of a file.  It fails if no line admits the host. -/
def checkLines : List Name → Option Name → Option (Option Name)
  | [], _ => none
  | line :: lines, cryptkey =>
      if Releases.comment line then checkLines lines cryptkey
      else if hostok matchhost (entry line) then some ((entry line).cryptkey cryptkey)
      else checkLines lines cryptkey

def FILEHOSTDEF : Name := [104, 111, 115, 116]

def FILEHOST (collname h : Name) : Name := [115, 117, 112, 47] ++ collname ++ [47] ++ h

variable (fopen : Name → Option (List Byte)) (collname : Name)

/-- The host access file of a release, if there is one. -/
def hostFile (tl : Treelist) : Option (List Byte) :=
  fopen (FILEHOST collname (tl.TLhost.getD FILEHOSTDEF))

/-- The loop over the releases.  It fails if the client is told `FSETUPHOST`. -/
def checkHosts : List Treelist → Option Name → Option (Option Name)
  | [], cryptkey => some cryptkey
  | tl :: listTL, cryptkey =>
      match hostFile fopen collname tl with
      | none => checkHosts listTL cryptkey
      | some text =>
          match checkLines matchhost (fileLines text) cryptkey with
          | none => none
          | some cryptkey => checkHosts listTL cryptkey

end Files

/-! ## What is asked of them -/

/-- The lines of a file that are looked at. -/
def entries (text : List Byte) : List Entry :=
  ((fileLines text).filter fun line => !Releases.comment line).map entry

section Meaning

variable (matchhost : Name → Bool)

/-- A line with an exclamation mark admits the hosts that it does not name, another line the
host that it names. -/
def Entry.Admits (e : Entry) : Prop :=
  if e.negated = true then matchhost e.host = false else matchhost e.host = true

/-- The line that admits the host. -/
def admitting (text : List Byte) : Option Entry := (entries text).find? (hostok matchhost)

variable (fopen : Name → Option (List Byte)) (collname : Name)

/-- The lines that admit the host, of the releases that have a file. -/
def admittingAll (listTL : List Treelist) : List Entry :=
  listTL.filterMap fun tl => (hostFile fopen collname tl).bind (admitting matchhost)

/-- Every release that has a file admits the host. -/
def Admitted (listTL : List Treelist) : Prop :=
  ∀ tl ∈ listTL, ∀ text, hostFile fopen collname tl = some text →
    (admitting matchhost text).isSome

end Meaning

section Spec

variable {matchhost : Name → Bool}

theorem hostok_iff {e : Entry} : hostok matchhost e = true ↔ e.Admits matchhost := by
  rw [hostok, Entry.Admits]
  cases e.negated <;> cases matchhost e.host <;> decide

theorem checkLines_eq (lines : List Name) (cryptkey : Option Name) :
    checkLines matchhost lines cryptkey =
      (((lines.filter fun line => !Releases.comment line).map entry).find? (hostok matchhost)).map
        (Entry.cryptkey · cryptkey) := by
  induction lines with
  | nil => rfl
  | cons line lines ih =>
      rw [checkLines]
      by_cases skipped : Releases.comment line = true
      · rw [if_pos skipped, ih, List.filter_cons_of_neg (by simp [skipped])]
      · rw [if_neg skipped, List.filter_cons_of_pos (by simp [skipped]), List.map_cons]
        cases ok : hostok matchhost (entry line) with
        | true =>
            rw [if_pos rfl, List.find?_cons_of_pos ok]
            rfl
        | false =>
            rw [if_neg Bool.false_ne_true, ih,
              List.find?_cons_of_neg (Bool.eq_false_iff.mp ok)]

theorem checkLines_fileLines (text : List Byte) (cryptkey : Option Name) :
    checkLines matchhost (fileLines text) cryptkey =
      (admitting matchhost text).map (Entry.cryptkey · cryptkey) :=
  checkLines_eq _ _

theorem admitting_iff {text : List Byte} {e : Entry} :
    admitting matchhost text = some e ↔ e.Admits matchhost ∧
      ∃ before after, entries text = before ++ e :: after ∧
        ∀ d ∈ before, ¬ d.Admits matchhost := by
  rw [admitting, List.find?_eq_some_iff_append, hostok_iff]
  simp only [Bool.not_eq_true', ← hostok_iff, Bool.not_eq_true]

variable {fopen : Name → Option (List Byte)} {collname : Name}

variable (matchhost fopen collname) in
theorem checkHosts_eq (listTL : List Treelist) (cryptkey : Option Name) :
    (Admitted matchhost fopen collname listTL ∧
        checkHosts matchhost fopen collname listTL cryptkey =
          some ((admittingAll matchhost fopen collname listTL).foldl
            (fun cryptkey e => e.cryptkey cryptkey) cryptkey)) ∨
      (¬ Admitted matchhost fopen collname listTL ∧
        checkHosts matchhost fopen collname listTL cryptkey = none) := by
  induction listTL generalizing cryptkey with
  | nil => exact .inl ⟨(fun _ inside => by cases inside), rfl⟩
  | cons tl listTL ih =>
      -- the files of the other releases
      have others {result : Option (Option Name)} {cryptkey : Option Name}
          (first : ∀ text, hostFile fopen collname tl = some text →
            (admitting matchhost text).isSome)
          (step : result = checkHosts matchhost fopen collname listTL cryptkey) :
          (Admitted matchhost fopen collname (tl :: listTL) ∧
              result = some ((admittingAll matchhost fopen collname listTL).foldl
                (fun cryptkey e => e.cryptkey cryptkey) cryptkey)) ∨
            (¬ Admitted matchhost fopen collname (tl :: listTL) ∧ result = none) := by
        rcases ih cryptkey with ⟨all, same⟩ | ⟨fails, same⟩
        · exact .inl ⟨List.forall_mem_cons.mpr ⟨first, all⟩, step.trans same⟩
        · exact .inr ⟨fun all => fails (List.forall_mem_cons.mp all).2, step.trans same⟩
      rw [checkHosts, admittingAll, List.filterMap_cons]
      cases file : hostFile fopen collname tl with
      | none =>
          exact others (fun text found => by rw [file] at found; cases found) rfl
      | some text =>
          simp only [Option.bind_some]
          rw [checkLines_fileLines]
          cases found : admitting matchhost text with
          | none =>
              refine .inr ⟨fun all => ?_, rfl⟩
              have some_ := all tl List.mem_cons_self text file
              rw [found] at some_
              cases some_
          | some e =>
              refine others (fun text' found' => ?_) rfl
              rw [file] at found'
              rw [← Option.some.inj found', found]
              rfl

theorem foldl_cryptkey {es : List Entry} {cryptkey : Option Name} {key : Name}
    (used : es.foldl (fun cryptkey e => e.cryptkey cryptkey) cryptkey = some key) :
    (∃ e ∈ es, e.key = key ∧ key ≠ []) ∨ cryptkey = some key := by
  induction es generalizing cryptkey with
  | nil => exact .inr used
  | cons e es ih =>
      rcases ih used with ⟨d, inside, required⟩ | before
      · exact .inl ⟨d, List.mem_cons_of_mem e inside, required⟩
      · change (if e.key = [] then cryptkey else some e.key) = some key at before
        by_cases empty : e.key = []
        · rw [if_pos empty] at before
          exact .inr before
        · rw [if_neg empty] at before
          have same := Option.some.inj before
          exact .inl ⟨e, List.mem_cons_self, same, same ▸ empty⟩

end Spec

/-! ## The rules of access -/

/-- The first line that admits the host decides, and a line with an exclamation mark admits
just the hosts that it does not name; so a host that all of them name is admitted by a plain
line that names it.  The host is admitted with the key of its line; and every release that
has a file must admit it, with a key of one of the lines that do. -/
theorem access_rules (matchhost : Name → Bool) (fopen : Name → Option (List Byte))
    (collname : Name) :
    (∀ text e, admitting matchhost text = some e ↔ e.Admits matchhost ∧
      ∃ before after, entries text = before ++ e :: after ∧
        ∀ d ∈ before, ¬ d.Admits matchhost) ∧
    (∀ text, (∀ d ∈ entries text, d.negated = true → matchhost d.host = true) →
      ∀ e, admitting matchhost text = some e → e.negated = false ∧ matchhost e.host = true) ∧
    (∀ text e, admitting matchhost text = some e → ∀ cryptkey,
      checkLines matchhost (fileLines text) cryptkey = some (e.cryptkey cryptkey)) ∧
    (∀ listTL, (Admitted matchhost fopen collname listTL ↔
        (checkHosts matchhost fopen collname listTL none).isSome) ∧
      ∀ key, checkHosts matchhost fopen collname listTL none = some (some key) →
        ∃ tl ∈ listTL, ∃ text e, hostFile fopen collname tl = some text ∧
          admitting matchhost text = some e ∧ e.key = key ∧ key ≠ []) := by
  refine ⟨fun text e => admitting_iff, fun text named e found => ?_,
    fun text e found cryptkey => ?_, fun listTL => ⟨?_, fun key used => ?_⟩⟩
  · have admits : e.Admits matchhost := (admitting_iff.mp found).1
    have inside : e ∈ entries text := List.mem_of_find?_eq_some found
    cases negated : e.negated with
    | true =>
        rw [Entry.Admits, if_pos negated] at admits
        exact absurd (named e inside negated) (by rw [admits]; exact Bool.false_ne_true)
    | false =>
        rw [Entry.Admits, if_neg (by rw [negated]; exact Bool.false_ne_true)] at admits
        exact ⟨rfl, admits⟩
  · rw [checkLines_fileLines, found]
    rfl
  · rcases checkHosts_eq matchhost fopen collname listTL none with ⟨all, same⟩ | ⟨fails, same⟩
    · rw [same]
      exact ⟨fun _ => rfl, fun _ => all⟩
    · rw [same]
      exact ⟨fun all => absurd all fails, fun ok => by cases ok⟩
  · rcases checkHosts_eq matchhost fopen collname listTL none with ⟨all, same⟩ | ⟨fails, same⟩
    · rw [same] at used
      rcases foldl_cryptkey (Option.some.inj used) with ⟨e, inside, required⟩ | before
      · obtain ⟨tl, listed, found⟩ := List.mem_filterMap.mp inside
        obtain ⟨text, file, first⟩ := Option.bind_eq_some_iff.mp found
        exact ⟨tl, listed, text, e, file, first, required⟩
      · cases before
    · rw [same] at used
      cases used

/-- The file `!a`, `!b`: the host `b` that the second line names is admitted by the first. -/
theorem access_other : ∃ (matchhost : Name → Bool) (text : List Byte) (d e : Entry),
    d ∈ entries text ∧ d.negated = true ∧ matchhost d.host = true ∧
      e ∈ entries text ∧ e ≠ d ∧ e.negated = true ∧ admitting matchhost text = some e ∧
      checkLines matchhost (fileLines text) none = some none :=
  ⟨fun name => name = [98], [33, 97, 10, 33, 98, 10], ⟨true, [98], []⟩, ⟨true, [97], []⟩,
    by decide⟩

end MachFormal.Sup.HostAccess
