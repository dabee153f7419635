import MachFormal.Sup.Agreement
import MachFormal.Sup.Answers
import MachFormal.Sup.Readlist
import MachFormal.Sup.StandsFor

/-!
# The commands of a file

A command is written in the list file, and is handed to `system` on the client once its
file is there.  On the way it is the name of a node again and again: among the commands of
the list file, of the scan file, and of the file that was received.  Every insertion takes
a leading `./` off, as it does for the name of a file.  A file that is sent as a link of
another has no commands of its own: `execone` is called for those of the other one.
-/

namespace MachFormal.Sup.Commands

open Library Library.Loop Library.Wire Sup.Lists Readlist

/-! ## The trees of a list file -/

/-- A list file without lines, for the files that it could name. -/
def noLines (file : CString → File) : ListFile where
  upgT := .empty
  flagsT := .empty
  omitT := .empty
  omanyT := .empty
  execT := .empty
  symT := .empty
  rsymT := .empty
  file := file
  flagsOnly := fun _ _ found => absurd found nofun

/-- The flags of a line are set for its name. -/
def setFlags (list : ListFile) (name : CString) (flags : CInt)
    (only : flags &&& ~~~(FBACKUP ||| FNOACCT) = 0) : ListFile :=
  { list with
    flagsT := Tfind list.flagsT name fun t => { t with flags := t.flags ||| flags }
    flagsOnly := by
      intro p t found
      rw [search_Tfind] at found
      split at found
      · have kept : ((list.flagsT.search p).getD default).flags &&&
            ~~~(FBACKUP ||| FNOACCT) = 0 := by
          cases before : list.flagsT.search p with
          | none => rfl
          | some t' => exact list.flagsOnly p t' before
        rw [← Option.some.inj found]
        dsimp only
        rw [BitVec.and_or_distrib_right, kept, only]
        rfl
      · exact list.flagsOnly p t found }

theorem only_backup : FBACKUP &&& ~~~(FBACKUP ||| FNOACCT) = 0 := by decide

theorem only_noacct : FNOACCT &&& ~~~(FBACKUP ||| FNOACCT) = 0 := by decide

/-- The node that a line is about, in the tree of its keyword. -/
def insertLine (list : ListFile) : Insertion → ListFile
  | .upgrade name always => { list with upgT := Tfind list.upgT name (· || always) }
  | .backup name => setFlags list name FBACKUP only_backup
  | .noaccount name => setFlags list name FNOACCT only_noacct
  | .omit name => { list with omitT := Tinsert list.omitT name }
  | .omitany name => { list with omanyT := Tinsert list.omanyT name }
  | .symlink name => { list with symT := Tinsert list.symT name }
  | .rsymlink name => { list with rsymT := Tinsert list.rsymT name }
  | .execute name command =>
      { list with
        execT := Tfind list.execT name fun t => { t with exec := Tinsert t.exec command } }

/-- The trees that `readlistfile` leaves. -/
def listFile (made : List Insertion) (file : CString → File) : ListFile :=
  made.foldl insertLine (noLines file)

/-- The command, if the line is one for this file. -/
def commandFor (f : CString) : Insertion → Option CString
  | .execute name command => if strip name = f then some command else none
  | _ => none

/-- The commands that the list file has for a file. -/
def written (made : List Insertion) (f : CString) : List CString := made.filterMap (commandFor f)

/-! ## The list of files -/

/-- A list is made by a scan of the disk, or from a scan file of some time that was written in an
earlier scan. -/
inductive Route where
  | direct
  | scanfile (lasttime mtime : CInt)

section Routes

variable (anyglob : CString → CString → Bool) (q : Request) (list : ListFile)
  (listTL : List NodeTree)

/-- The tree of the list, if the scan file can be used. -/
def Route.tree : Route → Option NodeTree
  | .direct => some (doscan anyglob q list listTL).listT
  | .scanfile lasttime mtime =>
      (readScanfile q mtime (makescanfile (scanned anyglob list lasttime)) listTL).join.map Prod.fst

/-- The sight of a file that is listed. -/
def Route.seen : Route → CString → Option Sight
  | .direct, f => (reachedSights anyglob list q.refuseT).find? fun v =>
      strip v.name = f && wanted q v.st
  | .scanfile _ mtime, f =>
      if q.newonly && mtime = q.lasttime then none
      else ((sights anyglob list).find? fun v => strip v.name = f).filter fun v =>
        wanted q v.st && (Tlookup q.refuseT f).isNone

/-- The lines of the scan file can be read back. -/
def Route.Tidy : Route → Prop
  | .direct => True
  | .scanfile lasttime _ => Legible anyglob list lasttime

/-- So often is a command inserted before it is sent. -/
def Route.insertions : Route → Nat
  | .direct => 1
  | .scanfile _ _ => 2

end Routes

/-! ## The transfer -/

/-- What `execone` hands to `system`, for a node that was received. -/
def handed (c : Collection) (t : Node) : List CString :=
  if c.list || !c.execute then [] else names t.exec

/-- The node that is sent: its owner, its links and what the client has asked for are filled in. -/
structure Filled (node sent : Node) : Prop where
  mode : sent.mode = node.mode
  mtime : sent.mtime = node.mtime
  exec : sent.exec = node.exec

section Transfer

variable (w r : Endpoint)

/-- The client comes to have a node: whatever routine takes the file, it is given this one. -/
def Receives (f : CString) (sent : Node) (fd : Option OpenFile) (t t' : Node) : Prop :=
  ∀ (β : Type) (xferfile : Option (CString × Node) → Recv β) (b : β),
    Consumes Input.pending (xferfile (some (f, t'))) (blockBytes w fd) b →
    Mirrors Output.Closed Output.Closed (msgrecvServer w false (some (sent.tree f, fd)))
      (msgrecvWith r xferfile t) b

/-- A file is received, and these commands are handed to `system`.  The server has answered the
needs of the client with `out`: the file is sent for itself, or in the links of another one,
which `msgrecv` inserts and `linkone` makes. -/
inductive Runs (c : Collection) (tree : NodeTree) (out : Answers) :
    CString → List CString → Prop where
  | own {f : CString} {node sent t t' : Node} {fd : Option OpenFile}
      (found : tree.search f = some node) (needed : Needed out f) (filled : Filled node sent)
      (granted : sent.mode ≠ 0) (fits : (sent.tree f).Fits)
      (whole : fd.isSome ↔ SendsFile false (sent.tree f))
      (received : Receives w r f sent fd t t') : Runs c tree out f (handed c t')
  | link {f : CString} {p : Pointer} (linked : LinkOf out f p) : Runs c tree out (strip f) []

/-- A client that executes commands runs those of the list file, each once. -/
def Verbatim (made : List Insertion) (tree : NodeTree) (out : Answers) : Prop :=
  ∀ c : Collection, c.list = false → c.execute = true →
    ∀ f commands, Runs w r c tree out f commands →
      commands.Nodup ∧ ∀ command, command ∈ commands ↔ command ∈ written made f

end Transfer

/-- The commands come through: those of a name that is listed as it is have no `./` in front; a
name that is listed without its `./` has the commands of the file, but for their `./`. -/
def Kept (made : List Insertion) (passes : Nat) (name : CString) : Prop :=
  if Canonical name then ∀ command ∈ written made name, Canonical command
  else ∀ command, (∃ c ∈ written made name, strip^[passes] c = command) ↔
    command ∈ written made (strip name)

/-- The commands of all files that can be received come through, and those that are sent as links
have none. -/
structure AllKept (made : List Insertion) (passes : Nat) (seen : CString → Option Sight)
    (out : Answers) : Prop where
  own : ∀ f v, seen f = some v → (Item.string (some f)).Fits → v.st.mode ≠ 0 → Needed out f →
    Kept made passes v.name
  links : ∀ f p, LinkOf out f p → written made (strip f) = []

/-! ## The commands of the list file -/

section ListFiles

/-- The commands that are kept for a name. -/
def commandsOf (execT : NodeTree) (name : CString) : NameTree :=
  ((execT.search name).getD default).exec

theorem mem_commandsOf_insertLine (list : ListFile) (i : Insertion) (name command : CString) :
    command ∈ names (commandsOf (insertLine list i).execT name) ↔
      (∃ c, commandFor name i = some c ∧ strip c = command) ∨
        command ∈ names (commandsOf list.execT name) := by
  cases i with
  | execute p c =>
      rw [insertLine, commandsOf, search_Tfind, commandFor]
      by_cases same : strip p = name
      · rw [if_pos same.symm, if_pos same, Option.getD_some, mem_names_Tinsert, eq_comm]
        simp only [Option.some.injEq, exists_eq_left']
        rfl
      · rw [if_neg (Ne.symm same), if_neg same]
        simp [commandsOf]
  | _ =>
      exact (or_iff_right fun ⟨_, absent, _⟩ => absurd absent nofun).symm

theorem mem_commandsOf_listFile (made : List Insertion) (file : CString → File)
    (name command : CString) :
    command ∈ names (commandsOf (listFile made file).execT name) ↔
      ∃ c ∈ written made name, strip c = command := by
  have fold : ∀ list : ListFile,
      command ∈ names (commandsOf (made.foldl insertLine list).execT name) ↔
        (∃ c ∈ written made name, strip c = command) ∨
        command ∈ names (commandsOf list.execT name) := by
    induction made with
    | nil => exact fun list => (or_iff_right fun ⟨_, absent, _⟩ => List.not_mem_nil absent).symm
    | cons i made ih =>
        intro list
        have here : (∃ c ∈ written (i :: made) name, strip c = command) ↔
            (∃ c, commandFor name i = some c ∧ strip c = command) ∨
              ∃ c ∈ written made name, strip c = command := by
          rw [written, List.filterMap_cons]
          cases commandFor name i with
          | none => simp [written]
          | some c => simp [written]
        rw [List.foldl_cons, ih, mem_commandsOf_insertLine, here, or_assoc, or_left_comm]
  exact (fold (noLines file)).trans (or_iff_left List.not_mem_nil)

/-- The commands of an entry are those that the list file gives for the name. -/
theorem listed_exec (q : Request) (list : ListFile) (name : CString) (st : FileStat)
    (execT : NodeTree) : (listed q list name st execT default).exec = commandsOf execT name := by
  rw [listed, commandsOf]
  cases execT.search name with
  | none => rfl
  | some t => rfl

theorem mem_entryOf (q p : Request) (made : List Insertion) (file : CString → File)
    (name : CString) (st : FileStat) (command : CString) :
    command ∈ names ((entryOf (name, listed p (listFile made file) name st
        (listFile made file).execT default)).node q default).exec ↔
      ∃ c ∈ written made name, strip (strip c) = command := by
  have entry : ((entryOf (name, listed p (listFile made file) name st
      (listFile made file).execT default)).node q default).exec =
        (names (commandsOf (listFile made file).execT name)).foldl Tinsert .empty := by
    rw [← listed_exec p (listFile made file) name st]
    rfl
  rw [entry, mem_names_inserted]
  constructor
  · rintro ⟨p, member, rfl⟩
    obtain ⟨c, given, rfl⟩ := (mem_commandsOf_listFile made file name p).mp member
    exact ⟨c, given, rfl⟩
  · rintro ⟨c, given, rfl⟩
    exact ⟨strip c, (mem_commandsOf_listFile made file name _).mpr ⟨c, given, rfl⟩, rfl⟩

end ListFiles

/-! ## The commands of a list -/

section Routes

variable {anyglob : CString → CString → Bool} {q : Request} {made : List Insertion}
  {file : CString → File} {listTL : List NodeTree}

/-- An entry has the status of the file that was seen, and the commands written for it. -/
structure Describes (made : List Insertion) (insertions : Nat) (v : Sight) (node : Node) :
    Prop where
  mode : node.mode = v.st.mode
  exec : ∀ command, command ∈ names node.exec ↔
    ∃ c ∈ written made v.name, strip^[insertions] c = command

variable (q) (listTL) in
/-- However the list is made, its entries are those of the files that are seen. -/
theorem Route.tree_describes (route : Route) (tidy : route.Tidy anyglob (listFile made file)) :
    ∃ tree, route.tree anyglob q (listFile made file) listTL = some tree ∧
      ∀ f, Option.Rel (Describes made route.insertions)
        (route.seen anyglob q (listFile made file) f) (tree.search f) := by
  cases route with
  | direct =>
      refine ⟨_, rfl, fun f => ?_⟩
      rw [doscan_eq, fold_listed, SearchTree.search_empty, Route.seen]
      cases (reachedSights anyglob (listFile made file) q.refuseT).find? fun v =>
          strip v.name = f && wanted q v.st with
      | none => exact Option.Rel.none
      | some v =>
          refine Option.Rel.some ⟨rfl, fun command => ?_⟩
          rw [listed_exec, mem_commandsOf_listFile]
          rfl
  | scanfile lasttime mtime =>
      by_cases skipped : q.newonly = true ∧ mtime = q.lasttime
      · have skips : (q.newonly && decide (mtime = q.lasttime)) = true := by
          rw [skipped.1, decide_eq_true skipped.2]
          rfl
        refine ⟨.empty, ?_, fun f => ?_⟩
        · rw [Route.tree, readScanfile, tidy.lines]
          dsimp only
          rw [if_pos skips]
          rfl
        · rw [Route.seen, if_pos skips]
          exact Option.Rel.none
      · obtain ⟨tree, listTL', ran, found⟩ := readScanfile_search tidy skipped listTL
        refine ⟨tree, by rw [Route.tree, ran]; rfl, fun f => ?_⟩
        have reads : ¬(q.newonly && decide (mtime = q.lasttime)) = true := by
          rw [Bool.and_eq_true, decide_eq_true_eq]
          exact skipped
        have same : ((sights anyglob (listFile made file)).find? fun v => strip v.name = f) =
            (sights anyglob (listFile made file)).find? fun v => v.name = f := by
          refine List.find?_congr fun v member => ?_
          rw [show strip v.name = v.name from (tidy.files v member).1]
        rw [Route.seen, if_neg reads, same, found]
        cases seen : (sights anyglob (listFile made file)).find? fun v => v.name = f with
        | none => exact Option.Rel.none
        | some v =>
            have name : v.name = f := by simpa using List.find?_some seen
            rw [Option.filter_some]
            split
            · refine Option.Rel.some ⟨rfl, fun command => ?_⟩
              exact (mem_entryOf _ _ made file f v.st command).trans (by rw [name]; rfl)
            · exact Option.Rel.none

end Routes

/-! ## The commands of a file that is received -/

section Transfer

variable {w r : Endpoint}

theorem mirrors_unique {α : Type} {before after : Output → Prop} {write : Send Unit}
    {read : Recv α} {a b : α} {out : Output} (start : before out)
    (first : Mirrors before after write read a) (second : Mirrors before after write read b) :
    a = b := by
  obtain ⟨bytes, wrote, took⟩ := first
  obtain ⟨bytes', wrote', took'⟩ := second
  obtain ⟨out', ran, -, sent⟩ := wrote out start
  obtain ⟨out'', ran', -, sent'⟩ := wrote' out start
  obtain ⟨-, rfl⟩ : () = () ∧ out' = out'' := by simpa using ran.symm.trans ran'
  obtain rfl : bytes = bytes' := List.append_cancel_left (sent.symm.trans sent')
  have pending : (Input.start ⟨bytes, fun _ => 0⟩).pending = bytes ++ [] := by
    simp [Input.pending, Input.start]
  obtain ⟨input, read, -⟩ := took _ [] pending
  obtain ⟨input', read', -⟩ := took' _ [] pending
  exact congrArg Prod.fst (Except.ok.inj (read.symm.trans read'))

/-- A routine that passes over the file. -/
def passOver (r : Endpoint) (fd : Option OpenFile) (given : Option (CString × Node)) :
    Recv (Option (CString × Node)) :=
  match fd with
  | none => pure given
  | some _ => readskip r >>= fun _ => pure given

variable (peers : Peers w r)
include peers

theorem passOver_consumes (fd : Option OpenFile) (given : Option (CString × Node)) :
    Consumes Input.pending (passOver r fd given) (blockBytes w fd) given := by
  cases fd with
  | none => exact .pure given
  | some f => exact (readskip_consumes peers f).map fun _ => given

theorem Receives.unique {f : CString} {sent t t₁ t₂ : Node} {fd : Option OpenFile}
    (first : Receives w r f sent fd t t₁) (second : Receives w r f sent fd t t₂) : t₁ = t₂ := by
  have closed : Output.start.Closed := rfl
  have same := mirrors_unique closed
    (first _ (passOver r fd) _ (passOver_consumes peers fd _))
    (second _ (passOver r fd) _ (passOver_consumes peers fd _))
  exact congrArg Prod.snd (Option.some.inj same)

theorem receives {f : CString} {sent : Node} {fd : Option OpenFile} (t : Node)
    (fits : (sent.tree f).Fits) (granted : sent.mode ≠ 0)
    (whole : fd.isSome ↔ SendsFile false (sent.tree f)) :
    ∃ t', Receives w r f sent fd t t' ∧ t'.exec = (names sent.exec).foldl Tinsert .empty := by
  obtain ⟨name, user, group, links, execs⟩ := fits
  exact ⟨_, fun _ _ _ takes => recv_mirrors peers false fd t name user group links execs granted
    whole takes, rfl⟩

end Transfer

/-! ## What is written fits a buffer -/

section Reading

variable {w : Surroundings}

/-- A command is printed for the name of its line, and fits the buffer. -/
def Printed (w : Surroundings) : Insertion → Prop
  | .execute name command =>
      (∃ exec, command = w.sprintf exec name) ∧ command.data.length < STRINGLENGTH
  | _ => True

theorem expTinsert_printed {insert : CString → Insertion} (plain : ∀ name, Printed w (insert name))
    {p : Name} {i : Insertion} (member : Step.insert i ∈ expTinsert w insert p) : Printed w i := by
  obtain ⟨name, -, same⟩ := List.mem_map.mp member
  exact Step.insert.inj same ▸ plain name

theorem expTinsertExec_printed {exec : CString} {p : Name} {i : Insertion}
    (member : Step.insert i ∈ expTinsertExec w exec p) : Printed w i := by
  obtain ⟨name, -, same⟩ := List.mem_map.mp member
  split at same
  · exact absurd same nofun
  next short =>
    rw [← Step.insert.inj same]
    exact ⟨⟨exec, rfl⟩, Nat.lt_of_not_le short⟩

theorem executeSteps_printed {p : Name} {i : Insertion}
    (member : Step.insert i ∈ executeSteps w p) : Printed w i := by
  dsimp only [executeSteps] at member
  generalize commandEnd _ _ = ends at member
  obtain ⟨q, rest⟩ := ends
  cases rest with
  | nil => exact absurd (List.mem_singleton.mp member) nofun
  | cons b rest =>
      obtain ⟨name, -, inside⟩ := List.mem_flatMap.mp member
      exact expTinsertExec_printed inside

theorem keywordSteps_printed {lt : ListType} {p : Name} {i : Insertion}
    (member : Step.insert i ∈ keywordSteps w lt p) : Printed w i := by
  have plain : ∀ insert : CString → Insertion,
      Step.insert i ∈ (arguments (p.length + 1) p).flatMap (expTinsert w insert) →
      (∀ name, Printed w (insert name)) → Printed w i := by
    intro insert member plain
    obtain ⟨q, -, inside⟩ := List.mem_flatMap.mp member
    exact expTinsert_printed plain inside
  cases lt with
  | execute => exact executeSteps_printed member
  | «include» =>
      obtain ⟨q, -, inside⟩ := List.mem_flatMap.mp member
      obtain ⟨name, -, same⟩ := List.mem_map.mp inside
      exact absurd same nofun
  | omitany =>
      obtain ⟨q, -, same⟩ := List.mem_map.mp member
      rw [← Step.insert.inj same]
      trivial
  | _ => exact plain _ member fun _ => trivial

theorem lineSteps_printed {line : Name} {i : Insertion}
    (member : Step.insert i ∈ lineSteps w line) : Printed w i := by
  rw [lineSteps] at member
  split at member
  · exact absurd member List.not_mem_nil
  · dsimp only at member
    split at member
    · exact absurd member List.not_mem_nil
    · split at member
      · exact absurd (List.mem_singleton.mp member) nofun
      · exact keywordSteps_printed member

/-- What was inserted is printed, and so is what is to be inserted yet. -/
structure Progress.Printed (w : Surroundings) (s : Progress) : Prop where
  made : ∀ i ∈ s.made, Commands.Printed w i
  current : ∀ i, Step.insert i ∈ s.current → Commands.Printed w i
  suspended : ∀ steps ∈ s.suspended, ∀ i, Step.insert i ∈ steps → Commands.Printed w i

theorem readTurn_printed {s s' : Progress} (printed : Progress.Printed w s)
    (turned : readTurn w s = .inl s') : Progress.Printed w s' := by
  obtain ⟨free, current, suspended, made⟩ := s
  cases current with
  | nil =>
      cases suspended with
      | nil => exact absurd turned nofun
      | cons steps rest =>
          obtain rfl := Sum.inl.inj turned
          exact ⟨printed.made, printed.suspended steps List.mem_cons_self,
            fun steps' member => printed.suspended steps' (List.mem_cons_of_mem steps member)⟩
  | cons step steps =>
      have later := fun i member => printed.current i (List.mem_cons_of_mem step member)
      cases step with
      | insert i =>
          obtain rfl := Sum.inl.inj turned
          refine ⟨fun j member => ?_, later, printed.suspended⟩
          rcases List.mem_append.mp member with member | member
          · exact printed.made j member
          · rw [List.mem_singleton.mp member]
            exact printed.current i List.mem_cons_self
      | stop reason => exact absurd turned nofun
      | read fname =>
          dsimp only [readTurn] at turned
          split at turned
          next free text =>
            obtain rfl := Sum.inl.inj turned
            refine ⟨printed.made, fun i member => ?_, fun steps' member => ?_⟩
            · obtain ⟨line, -, inside⟩ := List.mem_flatMap.mp member
              exact lineSteps_printed inside
            · rcases List.mem_cons.mp member with rfl | member
              · exact later
              · exact printed.suspended steps' member
          next => exact absurd turned nofun

/-- Every command of a list file is printed for its file, and fits the buffer. -/
theorem printed_of_readlistfile {free : Nat} {fname : CString} {made : List Insertion}
    (reads : Readlistfile w free fname (.ok made)) : ∀ i ∈ made, Printed w i := by
  have left : ∀ s outcome, Progress.Printed w s → readTurn w s = .inr outcome →
      ∀ made, outcome = .ok made → ∀ i ∈ made, Printed w i := by
    rintro ⟨free, current, suspended, made⟩ outcome printed turned made' rfl
    cases current with
    | nil =>
        cases suspended with
        | nil =>
            obtain rfl := Except.ok.inj (Sum.inr.inj turned)
            exact printed.made
        | cons steps rest => exact absurd turned nofun
    | cons step steps =>
        cases step with
        | insert i => exact absurd turned nofun
        | stop reason => exact absurd turned nofun
        | read fname =>
            dsimp only [readTurn] at turned
            split at turned
            · exact absurd turned nofun
            · exact absurd turned nofun
  refine Ends.invariant (Q := fun outcome => ∀ made, outcome = .ok made → ∀ i ∈ made, Printed w i)
    (fun s s' printed turned => readTurn_printed printed turned) left reads ?_ made rfl
  refine ⟨fun i member => absurd member List.not_mem_nil, fun i member => ?_, fun steps member =>
    absurd member List.not_mem_nil⟩
  exact absurd (List.mem_singleton.mp member) nofun

end Reading

/-! ## Commands that come through -/

section Kept

theorem strip_iterate_length (k : Nat) (c : CString) :
    (strip^[k] c).data.length ≤ c.data.length := by
  induction k generalizing c with
  | zero => exact Nat.le_refl _
  | succ k ih =>
      rw [Function.iterate_succ_apply]
      refine Nat.le_trans (ih (strip c)) ?_
      rcases strip_shorter c with same | shorter
      · rw [show strip c = c from same]
      · exact Nat.le_of_lt shorter

theorem strip_iterate_shorter (k : Nat) (c : CString) :
    Canonical c ∨ (strip^[k + 1] c).data.length < c.data.length := by
  refine (strip_shorter c).imp_right fun shorter => ?_
  rw [Function.iterate_succ_apply]
  exact Nat.lt_of_le_of_lt (strip_iterate_length k (strip c)) shorter

theorem kept_iff {made : List Insertion} {k : Nat} {name : CString} :
    (∀ command, (∃ c ∈ written made name, strip^[k + 1] c = command) ↔
      command ∈ written made (strip name)) ↔ Kept made (k + 1) name := by
  rw [Kept]
  split
  next canonical =>
    rw [show strip name = name from canonical]
    constructor
    · intro same command member
      have shrinks : ∀ c, strip^[k + 1] c = c ∨ (strip^[k + 1] c).data.length < c.data.length :=
        fun c => (strip_iterate_shorter k c).imp_left fun fixed => Function.iterate_fixed fixed _
      have fixed := eq_self_of_onto (fun c : CString => c.data.length) shrinks
        (fun c inside => (same c).mpr inside) command member
      refine (strip_iterate_shorter k command).resolve_right fun shorter => ?_
      rw [fixed] at shorter
      exact Nat.lt_irrefl _ shorter
    · intro canonical command
      constructor
      · rintro ⟨c, member, rfl⟩
        rw [Function.iterate_fixed (canonical c member)]
        exact member
      · exact fun member => ⟨command, member, Function.iterate_fixed (canonical command member) _⟩
  next => exact Iff.rfl

theorem Describes.sent {made : List Insertion} {k : Nat} {v : Sight} {node : Node}
    (describes : Describes made k v node) (command : CString) :
    (∃ p ∈ names node.exec, strip p = command) ↔
      ∃ c ∈ written made v.name, strip^[k + 1] c = command := by
  constructor
  · rintro ⟨p, member, rfl⟩
    obtain ⟨c, given, rfl⟩ := (describes.exec p).mp member
    exact ⟨c, given, Function.iterate_succ_apply' strip k c⟩
  · rintro ⟨c, given, rfl⟩
    exact ⟨_, (describes.exec _).mpr ⟨c, given, rfl⟩, (Function.iterate_succ_apply' strip k c).symm⟩

end Kept

section Theorem

variable {w r : Endpoint} (peers : Peers w r)
include peers

/-- What is handed to `system` for a file that is sent for itself. -/
theorem handed_received {c : Collection} {f : CString} {node sent t t' : Node}
    {fd : Option OpenFile} (lists : c.list = false) (executes : c.execute = true)
    (filled : Filled node sent) (granted : sent.mode ≠ 0) (fits : (sent.tree f).Fits)
    (whole : fd.isSome ↔ SendsFile false (sent.tree f)) (received : Receives w r f sent fd t t') :
    (handed c t').Nodup ∧
      ∀ command, command ∈ handed c t' ↔ ∃ p ∈ names node.exec, strip p = command := by
  obtain ⟨t'', received', exec⟩ := receives peers t fits granted whole
  obtain rfl := received.unique peers received'
  have all : handed c t' = names t'.exec := by
    rw [handed, lists, executes]
    rfl
  refine ⟨all ▸ nodup_names _, fun command => ?_⟩
  rw [all, exec, filled.exec, mem_names_inserted]

theorem runs_of_entry {tree : NodeTree} {out : Answers} {f : CString} {node : Node}
    (found : tree.search f = some node) (needed : Needed out f) (granted : node.mode ≠ 0)
    (fits : (Item.string (some f)).Fits)
    (execs : ∀ p ∈ names node.exec, (Item.string (some p)).Fits) :
    ∃ commands, Runs w r ⟨false, false, true⟩ tree out f commands ∧
      ∀ command, command ∈ commands ↔ ∃ p ∈ names node.exec, strip p = command := by
  let sent : Node := { node with user := none, group := none, link := .empty }
  have whole : ∃ fd : Option OpenFile, fd.isSome ↔ SendsFile false (sent.tree f) := by
    by_cases sends : SendsFile false (sent.tree f)
    · exact ⟨some ⟨[], Nat.pow_pos (Nat.succ_pos 1)⟩, iff_of_true rfl sends⟩
    · exact ⟨none, iff_of_false nofun sends⟩
  obtain ⟨fd, whole⟩ := whole
  have allFit : (sent.tree f).Fits :=
    ⟨fits, trivial, trivial, fun p member => absurd member List.not_mem_nil, execs⟩
  obtain ⟨t', received, -⟩ := receives peers Tmake allFit granted whole
  have filled : Filled node sent := ⟨rfl, rfl, rfl⟩
  exact ⟨_, .own found needed filled granted allFit whole received,
    (handed_received peers rfl rfl filled granted allFit whole received).2⟩

end Theorem

theorem Route.seen_name {anyglob : CString → CString → Bool} {q : Request} {list : ListFile}
    (route : Route) {f : CString} {v : Sight} (seen : route.seen anyglob q list f = some v) :
    strip v.name = f := by
  cases route with
  | direct =>
      have both := List.find?_some seen
      rw [Bool.and_eq_true, decide_eq_true_eq] at both
      exact both.1
  | scanfile lasttime mtime =>
      rw [Route.seen] at seen
      split at seen
      · exact absurd seen nofun
      · have here := List.find?_some (Option.filter_eq_some_iff.mp seen).1
        exact of_decide_eq_true here

theorem Describes.fits {u : Surroundings} {made : List Insertion} {k : Nat} {v : Sight}
    {node : Node} (describes : Describes made k v node) (printed : ∀ i ∈ made, Printed u i) :
    ∀ p ∈ names node.exec, (Item.string (some p)).Fits := by
  intro p member
  obtain ⟨c, given, rfl⟩ := (describes.exec p).mp member
  obtain ⟨i, inside, command⟩ := List.mem_filterMap.mp given
  have short : c.data.length < STRINGLENGTH := by
    cases i with
    | execute name c' =>
        rw [commandFor] at command
        split at command
        · rw [← Option.some.inj command]
          exact (printed _ inside).2
        · exact absurd command nofun
    | _ => exact absurd command nofun
  have room : STRINGLENGTH ≤ FILEXFER := by decide
  have shorter := strip_iterate_length k c
  change (strip^[k] c).data.length ≤ FILEXFER
  omega

theorem verbatim_iff_allKept {w r : Endpoint} (peers : Peers w r) {u : Surroundings}
    {made : List Insertion} (printed : ∀ i ∈ made, Printed u i)
    {anyglob : CString → CString → Bool} {q : Request} {list : ListFile} (route : Route)
    {tree : NodeTree} (describes : ∀ f, Option.Rel (Describes made route.insertions)
      (route.seen anyglob q list f) (tree.search f)) (out : Answers) :
    Verbatim w r made tree out ↔
      AllKept made (route.insertions + 1) (route.seen anyglob q list) out := by
  refine ⟨fun verbatim => ⟨fun f v seen fits granted needed => ?_, fun f p linked => ?_⟩,
    fun kept c lists executes f commands runs => ?_⟩
  · have described := describes f
    rw [seen] at described
    cases found : tree.search f with
    | none =>
        rw [found] at described
        exact absurd described nofun
    | some node =>
        rw [found] at described
        obtain ⟨entry⟩ := described
        obtain ⟨commands, runs, same⟩ := runs_of_entry peers found needed (entry.mode ▸ granted)
          fits (entry.fits printed)
        refine kept_iff.mp fun command => ?_
        rw [← entry.sent, ← same, route.seen_name seen]
        exact (verbatim ⟨false, false, true⟩ rfl rfl f commands runs).2 command
  · have nothing := (verbatim ⟨false, false, true⟩ rfl rfl (strip f) [] (.link linked)).2
    exact List.eq_nil_iff_forall_not_mem.mpr fun command given =>
      List.not_mem_nil ((nothing command).mpr given)
  · cases runs with
    | link linked =>
        rw [kept.links _ _ linked]
        exact ⟨List.nodup_nil, fun command => Iff.rfl⟩
    | own found needed filled granted fits whole received =>
        obtain ⟨nodup, same⟩ :=
          handed_received peers lists executes filled granted fits whole received
        refine ⟨nodup, fun command => (same command).trans ?_⟩
        have described := describes f
        rw [found] at described
        cases seen : route.seen anyglob q list f with
        | none =>
            rw [seen] at described
            exact absurd described nofun
        | some v =>
            rw [seen] at described
            obtain ⟨entry⟩ := described
            have mode := entry.mode ▸ filled.mode ▸ granted
            rw [entry.sent, ← route.seen_name seen]
            exact kept_iff.mpr (kept.own f v seen fits.1 mode needed) command

/-- Whether the list comes from a scan or from a scan file with lines that can be read back, the
commands of the list file are run exactly if they have no `./` in front that an insertion takes
off, and no file that has commands is sent as a link. -/
theorem verbatim_iff {crypt : List Byte → List Byte} {pword : Option (List Byte)} {w r : Endpoint}
    (connected : Connected crypt pword w r) {u : Surroundings} {free : Nat} {fname : CString}
    {made : List Insertion} (reads : Readlistfile u free fname (.ok made))
    (file : CString → File) (anyglob : CString → CString → Bool) (q : Request)
    (listTL : List NodeTree) (route : Route) (tidy : route.Tidy anyglob (listFile made file))
    (fs : ServerFiles) (needT : NodeTree) :
    ∃ tree, route.tree anyglob q (listFile made file) listTL = some tree ∧
      (Verbatim w r made tree (listfilesServer fs [tree] needT) ↔
        AllKept made (route.insertions + 1) (route.seen anyglob q (listFile made file))
          (listfilesServer fs [tree] needT)) := by
  obtain ⟨tree, listed, describes⟩ := route.tree_describes q listTL tidy
  have printed := printed_of_readlistfile reads
  exact ⟨tree, listed, verbatim_iff_allKept connected.peers printed route describes _⟩

/-! ## A list file with a command -/

/-- `upgrade d` and `execute a (d)`. -/
def plainText : List Byte :=
  [117, 112, 103, 114, 97, 100, 101, 32, 100, 10] ++
    [101, 120, 101, 99, 117, 116, 101, 32, 97, 32, 40, 100, 41, 10]

/-- `upgrade d` and `execute ./a (d)`. -/
def dotText : List Byte :=
  [117, 112, 103, 114, 97, 100, 101, 32, 100, 10] ++
    [101, 120, 101, 99, 117, 116, 101, 32, 46, 47, 97, 32, 40, 100, 41, 10]

/-- Every list file has this text; its names have nothing to expand, and its commands nothing to
print a name for. -/
def oneFile (text : List Byte) : Surroundings where
  files _ := some text
  includes name := [name]
  expand name := [name]
  sprintf exec _ := exec

theorem noNul_dotA : (0 : Byte) ∉ [46, 47, 97] := by decide

/-- `./a`. -/
def dotA : CString := ⟨[46, 47, 97], noNul_dotA⟩

/-- `a`. -/
def plainA : CString := ⟨[97], noNul_a⟩

/-- Every name is that of a plain file. -/
def plainFile : CString → File := fun _ => .mk (some ⟨S_IFREG ||| 0o644, 1, 1⟩) none true []

/-- The lines for a command and the file `d`. -/
def oneCommand (command : CString) : List Insertion :=
  [.upgrade Lists.directoryD false, .execute Lists.directoryD command]

theorem reads_dotText : Readlistfile (oneFile dotText) 1 Lists.directoryD (.ok (oneCommand dotA)) :=
  ⟨6, rfl⟩

theorem reads_plainText : Readlistfile (oneFile plainText) 1 Lists.directoryD (.ok (oneCommand plainA)) :=
  ⟨6, rfl⟩

/-- A client that has nothing yet asks for everything. -/
def everything : Request := ⟨.empty, 0, false⟩

/-- It then needs `d`. -/
def needsD : NodeTree := Tinsert .empty Lists.directoryD

/-- Every name of the server is that of a plain file, and its only one. -/
def singleNames : ServerFiles where
  stat _ _ := some ⟨S_IFREG ||| 0o644, 1, 1, 1, 0, 0⟩
  lstat _ _ := some ⟨S_IFREG ||| 0o644, 1, 1, 1, 0, 0⟩
  readlink _ _ := none

theorem written_oneCommand {command c name : CString}
    (given : c ∈ written (oneCommand command) name) : c = command := by
  obtain ⟨i, inside, here⟩ := List.mem_filterMap.mp given
  rw [oneCommand, List.mem_cons, List.mem_singleton] at inside
  rcases inside with rfl | rfl
  · exact absurd here nofun
  · rw [commandFor] at here
    split at here
    · exact (Option.some.inj here).symm
    · exact absurd here nofun

/-- `execute a (d)` is run, also when the list comes from a scan file. -/
theorem verbatim_plain : ∃ tree, Route.tree (fun _ _ => false) everything
      (listFile (oneCommand plainA) plainFile) [] (.scanfile 0 5) = some tree ∧
    Verbatim ⟨.big, true, none⟩ ⟨.little, false, none⟩ (oneCommand plainA) tree
      (listfilesServer singleNames [tree] needsD) := by
  have tidy : Legible (fun _ _ => false) (listFile (oneCommand plainA) plainFile) 0 := by
    refine ⟨by decide, fun n t found command member => ?_, by decide⟩
    have lines := mem_commandsOf_listFile (oneCommand plainA) plainFile n command
    rw [commandsOf, found, Option.getD_some] at lines
    obtain ⟨c, given, rfl⟩ := lines.mp member
    rw [written_oneCommand given]
    decide
  have connected : Connected id none ⟨.big, true, none⟩ ⟨.little, false, none⟩ :=
    .toClient .little .big true rfl
  obtain ⟨tree, listed, iff⟩ := verbatim_iff connected
    reads_plainText plainFile (fun _ _ => false) everything [] (.scanfile 0 5) tidy
    singleNames needsD
  refine ⟨tree, listed, iff.mpr ⟨fun f v seen _ _ _ => ?_, fun f p linked => ?_⟩⟩
  rotate_left
  · have single : ((Route.tree (fun _ _ => false) everything (listFile (oneCommand plainA) plainFile) []
        (.scanfile 0 5)).map fun tree => (listfilesServer singleNames [tree] needsD).trees.all fun t =>
          t.toList.all fun e => (names e.2.link).isEmpty) = some true := by decide +kernel
    rw [listed, Option.map_some] at single
    obtain ⟨t, node, -, member⟩ := linked
    obtain ⟨names, inside, found⟩ := Option.bind_eq_some_iff.mp node
    have empty := List.all_eq_true.mp (List.all_eq_true.mp (Option.some.inj single) _
      (List.mem_of_getElem? inside)) _ (SearchTree.mem_toList.mpr found)
    rw [List.isEmpty_iff.mp empty] at member
    exact absurd member List.not_mem_nil
  have member : v ∈ sights (fun _ _ => false) (listFile (oneCommand plainA) plainFile) :=
    List.mem_of_find?_eq_some (Option.filter_eq_some_iff.mp seen).1
  rw [Kept, if_pos (tidy.files v member).1]
  intro command given
  rw [written_oneCommand given]
  decide

/-- `execute ./a (d)` is run as `a`. -/
theorem dotCommand_altered :
    Readlistfile (oneFile dotText) 1 Lists.directoryD (.ok (oneCommand dotA)) ∧
      ∃ tree, Route.tree (fun _ _ => false) everything (listFile (oneCommand dotA) plainFile) []
          .direct = some tree ∧
        (∃ commands, Runs ⟨.big, true, none⟩ ⟨.little, false, none⟩ ⟨false, false, true⟩ tree
          (listfilesServer singleNames [tree] needsD) Lists.directoryD commands ∧
          plainA ∈ commands ∧ dotA ∉ commands) ∧
        ¬Verbatim ⟨.big, true, none⟩ ⟨.little, false, none⟩ (oneCommand dotA) tree
          (listfilesServer singleNames [tree] needsD) := by
  have peers : Peers ⟨.big, true, none⟩ ⟨.little, false, none⟩ := ⟨rfl, Or.inr ⟨rfl, rfl⟩⟩
  have printed := printed_of_readlistfile reads_dotText
  have tidy : Route.direct.Tidy (fun _ _ => false) (listFile (oneCommand dotA) plainFile) := trivial
  obtain ⟨tree, listed, describes⟩ := Route.direct.tree_describes everything [] tidy
  have seen : Route.direct.seen (fun _ _ => false) everything
      (listFile (oneCommand dotA) plainFile) Lists.directoryD =
        some ⟨[], Lists.directoryD, ⟨S_IFREG ||| 0o644, 1, 1⟩⟩ := rfl
  have described := describes Lists.directoryD
  rw [seen] at described
  cases found : tree.search Lists.directoryD with
  | none =>
      rw [found] at described
      exact absurd described nofun
  | some node =>
      rw [found] at described
      obtain ⟨entry⟩ := described
      have granted : node.mode ≠ 0 := by
        rw [entry.mode]
        decide
      have needed : Needed (listfilesServer singleNames [tree] needsD) Lists.directoryD := by
        have marked : ((Route.tree (fun _ _ => false) everything
            (listFile (oneCommand dotA) plainFile) [] .direct).bind fun tree =>
              (nodeAt (listfilesServer singleNames [tree] needsD).trees 0 Lists.directoryD).map fun t =>
                has t.flags FNEEDED) = some true := by decide +kernel
        rw [listed, Option.bind_some] at marked
        obtain ⟨t, there, flag⟩ := Option.map_eq_some_iff.mp marked
        exact ⟨0, t, there, flag⟩
      obtain ⟨commands, runs, same⟩ := runs_of_entry peers found needed granted
        (by decide : Lists.directoryD.data.length ≤ FILEXFER) (entry.fits printed)
      have altered : dotA ∉ commands := by
        rw [same, entry.sent]
        rintro ⟨c, given, unchanged⟩
        rw [written_oneCommand given] at unchanged
        exact absurd unchanged (by decide)
      refine ⟨reads_dotText, tree, listed, ⟨commands, runs, ?_, altered⟩,
        fun verbatim => altered ?_⟩
      · rw [same, entry.sent]
        exact ⟨dotA, by decide, by decide⟩
      · have same := (verbatim ⟨false, false, true⟩ rfl rfl Lists.directoryD commands runs).2 dotA
        exact same.mpr (by decide)

end MachFormal.Sup.Commands
