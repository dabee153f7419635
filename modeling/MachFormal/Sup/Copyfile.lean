import MachFormal.Library.Chunks
import MachFormal.Sup.Peek
import MachFormal.Sup.ScanText

/-!
# Storing a file that is received

`copyfile` receives into a temporary file and then gives it the name of the destination.
It tries five places for the temporary file, and then writes to the destination itself.
If the temporary file cannot be renamed, it is copied.

Two of the places are in the base directory of the collection, which is not the current
directory if the collection has a prefix.  The names of these two are relative, and the
file is not found again under its name once the current directory has been restored.

The answers of the system to every call are given, and so is what a name stands for in a
directory.  Only `unlink` always does what it is asked for.
-/

namespace MachFormal.Sup.Copy

open Library Library.Chunks Library.Wire

/-! ## Names -/

/-- The current directory: the base directory, or the one that the prefix gives inside it. -/
inductive Directory where
  | base
  | inside
  deriving DecidableEq

/-- The process: what its names stand for, whether the collection has a prefix, its number, and
whether `rpauseflag` is set. -/
structure Process (φ : Type) where
  resolve : Directory → Name → φ
  located : Bool
  thispid : CInt
  rpauseflag : Bool

/-- `#%d.sup`. -/
def tempFile (pid : CInt) : Name := 35 :: Lists.decimal pid ++ [46, 115, 117, 112]

/-- The name of the file that is opened at a place: in the directory of the destination, in `sup/`,
in the base directory, in `/usr/tmp/` and in `/tmp/`. -/
def tname (name : Name) (pid : CInt) : Place → Name
  | .destination => dirPart name ++ slash :: tempFile pid
  | .sup => [115, 117, 112, 47] ++ tempFile pid
  | .base => tempFile pid
  | .usrTmp => [47, 117, 115, 114, 47, 116, 109, 112, 47] ++ tempFile pid
  | .tmp => [47, 116, 109, 112, 47] ++ tempFile pid
  | .target => name

/-- Where the process is when it opens the file at a place. -/
def opensIn (cwd : Directory) : Place → Directory
  | .sup => .base
  | .base => .base
  | _ => cwd

section Names

variable {φ : Type} (s : Process φ) (name : Name)

def Process.cwd : Directory := if s.located then .inside else .base

/-- The destination. -/
def Process.dest : φ := s.resolve s.cwd name

/-- The file that is opened. -/
def Process.opened (place : Place) : φ :=
  s.resolve (opensIn s.cwd place) (tname name s.thispid place)

/-- What the name of that file stands for afterwards. -/
def Process.named (place : Place) : φ := s.resolve s.cwd (tname name s.thispid place)

end Names

/-! ## Files and answers -/

/-- The contents of the files that are there. -/
abbrev Files (φ : Type) := φ → Option (List Byte)

section Files

variable {φ : Type} [DecidableEq φ]

def Files.store (files : Files φ) (x : φ) (content : List Byte) : Files φ :=
  Function.update files x (some content)

def Files.unlink (files : Files φ) (x : φ) : Files φ := Function.update files x none

/-- `rename`, of a file that is there. -/
def Files.rename (files : Files φ) (x y : φ) : Files φ :=
  if x = y then files else Files.unlink (Function.update files y (files x)) x

end Files

/-- What `ioctl` tells about the disk: it fails, it does not know, or it tells its size, what is to
be left free in percent, and what is free. -/
inductive Space where
  | failed
  | unknown
  | known (size minfree free : CInt)

/-- The answers of the system.  The `i`-th `write` of `readfile` and of `filecopy` stores so many
bytes at most, and the `i`-th `read` of `filecopy` succeeds or does not. -/
structure Answers where
  creat : Place → Bool
  space : Space
  store : Nat → Nat
  rename : Bool
  reopen : Bool
  recreat : Bool
  read : Nat → Bool
  copy : Nat → Nat

/-! ## The routines -/

def MAX (x y : CInt) : CInt := if y.toInt < x.toInt then x else y

/-- The file does not fit what may be used of the disk. -/
def exceeds (fsize size minfree free : CInt) : Bool :=
  let fsize := (fsize + 1023).sdiv 1024
  let reserve := (size * MAX minfree 1).sdiv 100
  (MAX (free - reserve) 0).toInt < fsize.toInt

section Routines

variable (r : Endpoint) (a : Answers)

/-- The check of the disk space; nothing is returned where the client gives up. -/
def checkSpace (rpauseflag : Bool) (input : Input) : Option Input :=
  if rpauseflag then some input
  else
    match prereadcount r input with
    | .error _ => none
    | .ok (fsize, input) =>
        match a.space with
        | .failed => none
        | .unknown => some input
        | .known size minfree free => if exceeds fsize size minfree free then none else some input

/-- The loop of `readfile`, and what has been stored when it ends. -/
def receiveLoop : Nat → Nat → Nat → List Byte → Input → List Byte × Option Input
  | 0, _, _, out, input => (out, some input)
  | fuel + 1, count, i, out, input =>
      if count = 0 then (out, some input)
      else
        match readdata (XFERSIZE count) input with
        | .error _ => (out, none)
        | .ok (buf, input) =>
            receiveLoop fuel (count - XFERSIZE count) (i + 1)
              (out ++ (r.cipher buf).take (a.store i)) input

/-- `readfile`, of which the writes are not looked at. -/
def receive (input : Input) : List Byte × Option Input :=
  match (readcount r >>= checkCount) input with
  | .error _ => ([], none)
  | .ok (n, input) => receiveLoop r a n n 0 [] input

def BUFFERSIZE : Nat := 10240

/-- The loop of `filecopy`: whether it ends well, and what has been copied. -/
def filecopyLoop : Nat → Nat → List Byte → List Byte → Bool × List Byte
  | 0, _, _, out => (true, out)
  | fuel + 1, i, here, out =>
      if !a.read i then (false, out)
      else if here = [] then (true, out)
      else if a.copy i < (here.take BUFFERSIZE).length then
        (false, out ++ (here.take BUFFERSIZE).take (a.copy i))
      else filecopyLoop fuel (i + 1) (here.drop BUFFERSIZE) (out ++ here.take BUFFERSIZE)

def filecopy (here : List Byte) : Bool × List Byte := filecopyLoop a (here.length + 1) 0 here []

/-- `copyfile` returns whether it has failed, or the client gives up. -/
inductive Outcome where
  | returned (failed : Bool) (input : Input)
  | goaway

variable {φ : Type} [DecidableEq φ] (s : Process φ) (name : Name)

/-- The temporary file is removed, if it is one. -/
def abandon (place : Place) (files : Files φ) : Files φ :=
  if place = .target then files else files.unlink (s.named name place)

/-- The temporary file becomes the destination. -/
def install (place : Place) (files : Files φ) (input : Input) : Files φ × Outcome :=
  let named := s.named name place
  let dest := s.dest name
  if a.rename && (files named).isSome then
    ((files.rename named dest).unlink named, .returned false input)
  else if !(a.reopen && (files named).isSome) then (files.unlink named, .returned true input)
  else if !a.recreat then (files.unlink named, .returned true input)
  else
    let emptied := files.store dest []
    let copied := filecopy a ((emptied named).getD [])
    ((emptied.store dest copied.2).unlink named, .returned (!copied.1) input)

/-- `copyfile`, reading from the network, as it is compiled with `CMUCS`: with the look at the
space on the disk. -/
def copyfile (files : Files φ) (input : Input) : Files φ × Outcome :=
  match places.find? a.creat with
  | none =>
      match readskip r input with
      | .error _ => (files, .goaway)
      | .ok (_, input) => (files, .returned true input)
  | some place =>
      let files := files.store (s.opened name place) []
      match checkSpace r a s.rpauseflag input with
      | none => (abandon s name place files, .goaway)
      | some input =>
          let received := receive r a input
          let files := files.store (s.opened name place) received.1
          match received.2 with
          | none => (abandon s name place files, .goaway)
          | some input =>
              if place = .target then (files, .returned false input)
              else install a s name place files input

end Routines

/-! ## All or nothing -/

/-- The file arrives, or a part of it before the connection breaks. -/
def Arrives (w : Endpoint) (f : OpenFile) (input : Input) : Prop :=
  fileBlock w f <+: input.pending ∨ input.pending <+: fileBlock w f

section AllOrNothing

variable {φ : Type} [DecidableEq φ]

/-- All or nothing: the destination has the file, or it is what it was; the temporary file is gone,
and one block is taken from the connection. -/
structure AllOrNothing (w : Endpoint) (f : OpenFile) (a : Answers) (s : Process φ) (name : Name)
    (files : Files φ) (input : Input) (result : Files φ × Outcome) : Prop where
  stored : ∀ input', result.2 = .returned false input' → result.1 (s.dest name) = some f.content
  unchanged : (∀ input', result.2 ≠ .returned false input') →
    result.1 (s.dest name) = files (s.dest name)
  removed : ∀ place, places.find? a.creat = some place → place ≠ .target →
    result.1 (s.opened name place) = none
  consumed : ∀ failed input', result.2 = .returned failed input' →
    input.pending = fileBlock w f ++ input'.pending

/-- The bytes that are stored of a part of the file that has arrived. -/
def partOf (f : OpenFile) (a : Answers) (input : Input) : List Byte :=
  kept FILEXFER a.store (f.content.length + 1) 0
    (f.content.take ((input.pending.length - 4) / FILEXFER * FILEXFER))

/-- All that the writes of `readfile` store of the file. -/
def storedOf (f : OpenFile) (a : Answers) : List Byte :=
  kept FILEXFER a.store (f.content.length + 1) 0 f.content

/-- Every `write` of `readfile` stores all it is given. -/
def StoresAll (f : OpenFile) (a : Answers) : Prop := Complete FILEXFER a.store 0 f.content

variable (w r : Endpoint) (f : OpenFile) (a : Answers) (s : Process φ) (name : Name)
  (files : Files φ) (input : Input)

/-- The client gives up: there is no room, or the connection breaks. -/
def GivesUp : Prop :=
  checkSpace r a s.rpauseflag input = none ∨ ¬fileBlock w f <+: input.pending

instance : Decidable (GivesUp w r f a s input) := inferInstanceAs (Decidable (_ ∨ _))

/-- Nothing is lost of a destination that is itself called like the temporary file. -/
def Untouched (place : Place) : Prop :=
  s.dest name ≠ s.opened name place ∨ files (s.dest name) = none

/-- What is copied if the temporary file cannot be renamed. -/
def copyOf (place : Place) : Bool × List Byte :=
  filecopy a (if s.dest name = s.opened name place then [] else storedOf f a)

/-- When the destination itself is written. -/
def SafeDirect : Prop :=
  if checkSpace r a s.rpauseflag input = none then files (s.dest name) = some []
  else if fileBlock w f <+: input.pending then StoresAll f a
  else files (s.dest name) = some (partOf f a input)

/-- When there is a temporary file. -/
def SafeTemporary (place : Place) : Prop :=
  s.opened name place = s.named name place ∧
    if GivesUp w r f a s input then Untouched s name files place
    else if a.rename then s.dest name ≠ s.opened name place ∧ StoresAll f a
    else if !a.reopen || !a.recreat then Untouched s name files place
    else if (copyOf f a s name place).1 then s.dest name ≠ s.opened name place ∧ StoresAll f a
    else if s.dest name = s.opened name place then files (s.dest name) = none
    else files (s.dest name) = some (copyOf f a s name place).2

/-- When `copyfile` is all or nothing. -/
def Safe : Prop :=
  match places.find? a.creat with
  | none => True
  | some .target => SafeDirect w r f a s name files input
  | some place => SafeTemporary w r f a s name files input place

end AllOrNothing

/-! ## Receiving -/

section Receiving

variable {w r : Endpoint} {a : Answers}

theorem readdata_error {count : Nat} {input : Input} (short : input.pending.length < count) :
    readdata count input = .error prematureEOF := by
  have total : input.pending.length = input.data.length + input.net.bytes.length :=
    List.length_append
  exact readdata_fails (by omega)

theorem receiveLoop_round (peers : Peers w r) {fuel i : Nat} {content out rest : List Byte}
    {input : Input} (some : content ≠ [])
    (here : input.pending = w.cipher (content.take FILEXFER) ++ rest) :
    ∃ input', input'.pending = rest ∧
      receiveLoop r a (fuel + 1) content.length i out input =
        receiveLoop r a fuel (content.drop FILEXFER).length (i + 1)
          (out ++ (content.take FILEXFER).take (a.store i)) input' := by
  obtain ⟨input', read, left⟩ := readdata_block content input rest here
  refine ⟨input', left, ?_⟩
  rw [receiveLoop, if_neg (Nat.ne_of_gt (List.length_pos_of_ne_nil some)), read]
  dsimp only
  rw [length_drop_block, peers.cipher_cipher]

theorem receiveLoop_whole (peers : Peers w r) (fuel fuel' i : Nat) (content out rest : List Byte)
    (input : Input) (enough : content.length ≤ fuel) (enough' : content.length < fuel')
    (here : input.pending = fileBytes w fuel' content ++ rest) :
    ∃ input', receiveLoop r a fuel content.length i out input =
        (out ++ kept FILEXFER a.store fuel' i content, some input') ∧ input'.pending = rest := by
  induction fuel generalizing fuel' i content out input with
  | zero =>
      obtain rfl := List.eq_nil_of_length_eq_zero (Nat.le_zero.mp enough)
      obtain ⟨fuel', rfl⟩ := Nat.exists_eq_succ_of_ne_zero (Nat.ne_of_gt enough')
      rw [fileBytes, if_pos (List.take_nil ..), List.nil_append] at here
      exact ⟨input, by rw [kept_nil, List.append_nil]; rfl, here⟩
  | succ fuel ih =>
      obtain ⟨fuel', rfl⟩ :=
        Nat.exists_eq_succ_of_ne_zero (Nat.ne_of_gt (Nat.zero_lt_of_lt enough'))
      by_cases done : content = []
      · subst done
        rw [fileBytes, if_pos (List.take_nil ..), List.nil_append] at here
        exact ⟨input, by rw [kept_nil, List.append_nil]; rfl, here⟩
      · have positive := List.length_pos_of_ne_nil done
        rw [fileBytes, if_neg (mt take_filexfer_eq_nil.mp done), List.append_assoc] at here
        obtain ⟨input', left, turned⟩ := receiveLoop_round (a := a) peers done here
        have shorter : (content.drop FILEXFER).length < content.length := by
          rw [List.length_drop]
          exact Nat.sub_lt positive (by decide)
        obtain ⟨input'', ran, left'⟩ := ih fuel' (i + 1) (content.drop FILEXFER)
          (out ++ (content.take FILEXFER).take (a.store i)) input' (by omega) (by omega) left
        refine ⟨input'', ?_, left'⟩
        rw [turned, ran, kept, if_neg done, List.append_assoc]

theorem receiveLoop_cut (peers : Peers w r) (fuel fuel' i : Nat) (content out : List Byte)
    (input : Input) (enough : content.length ≤ fuel) (enough' : content.length < fuel')
    (part : input.pending <+: fileBytes w fuel' content)
    (cut : ¬fileBytes w fuel' content <+: input.pending) :
    receiveLoop r a fuel content.length i out input =
      (out ++ kept FILEXFER a.store fuel' i
        (content.take (input.pending.length / FILEXFER * FILEXFER)), none) := by
  induction fuel generalizing fuel' i content out input with
  | zero =>
      obtain rfl := List.eq_nil_of_length_eq_zero (Nat.le_zero.mp enough)
      obtain ⟨fuel', rfl⟩ := Nat.exists_eq_succ_of_ne_zero (Nat.ne_of_gt enough')
      rw [fileBytes, if_pos (List.take_nil ..)] at cut
      exact absurd (List.nil_prefix) cut
  | succ fuel ih =>
      obtain ⟨fuel', rfl⟩ :=
        Nat.exists_eq_succ_of_ne_zero (Nat.ne_of_gt (Nat.zero_lt_of_lt enough'))
      by_cases done : content = []
      · subst done
        rw [fileBytes, if_pos (List.take_nil ..)] at cut
        exact absurd (List.nil_prefix) cut
      · have nonempty := mt take_filexfer_eq_nil.mp done
        rw [fileBytes, if_neg nonempty] at part cut
        have size : (w.cipher (content.take FILEXFER)).length = XFERSIZE content.length := by
          rw [length_cipher, List.length_take, XFERSIZE_eq]
        by_cases arrived : (w.cipher (content.take FILEXFER)).length ≤ input.pending.length
        · obtain ⟨rest, here⟩ :=
            List.prefix_of_prefix_length_le (List.prefix_append _ _) part arrived
          rw [← here, List.prefix_append_right_inj] at part cut
          -- there is another piece, so that this one is a full one
          have more : FILEXFER < content.length := by
            refine Nat.lt_of_not_le fun last => cut ?_
            have nothing : fileBytes w fuel' (content.drop FILEXFER) = [] := by
              rw [List.drop_eq_nil_of_le last]
              cases fuel' with
              | zero => rfl
              | succ fuel' => exact if_pos (List.take_nil ..)
            rw [nothing]
            exact List.nil_prefix
          obtain ⟨input', left, turned⟩ := receiveLoop_round (a := a) peers done here.symm
          subst left
          have shorter : (content.drop FILEXFER).length < content.length := by
            rw [List.length_drop]
            exact Nat.sub_lt (List.length_pos_of_ne_nil done) (by decide)
          have later := ih fuel' (i + 1) (content.drop FILEXFER)
            (out ++ (content.take FILEXFER).take (a.store i)) input' (by omega) (by omega) part cut
          have blocks : input.pending.length / FILEXFER * FILEXFER =
              FILEXFER + input'.pending.length / FILEXFER * FILEXFER := by
            have total := congrArg List.length here
            rw [List.length_append, size, XFERSIZE_eq, Nat.min_eq_left (Nat.le_of_lt more)] at total
            rw [← total, Nat.add_div_left _ (by decide), Nat.succ_mul, Nat.add_comm]
          rw [turned, later, blocks, kept_take_add fuel' i _ done (by decide), List.append_assoc]
        · have few : input.pending.length < XFERSIZE content.length := by omega
          have none : input.pending.length / FILEXFER = 0 := by
            rw [XFERSIZE_eq] at few
            exact Nat.div_eq_of_lt (by omega)
          rw [receiveLoop, if_neg (Nat.ne_of_gt (List.length_pos_of_ne_nil done)),
            readdata_error few, none, Nat.zero_mul, List.take_zero, kept_nil, List.append_nil]

theorem count_read (peers : Peers w r) (f : OpenFile) {input : Input} {rest : List Byte}
    (here : input.pending = w.intBytes (BitVec.ofNat 32 f.content.length) ++ rest) :
    ∃ input', (readcount r >>= checkCount) input = .ok (f.content.length, input') ∧
      input'.pending = rest := by
  rw [← List.append_nil (w.intBytes _)] at here
  exact ((readcount_consumes peers _).bind (checkCount_consumes f.size_lt)) input rest here

theorem receive_whole (peers : Peers w r) {f : OpenFile} {input : Input}
    (whole : fileBlock w f <+: input.pending) :
    ∃ input', receive r a input =
        (kept FILEXFER a.store (f.content.length + 1) 0 f.content, some input') ∧
      input.pending = fileBlock w f ++ input'.pending := by
  obtain ⟨rest, here⟩ := whole
  rw [fileBlock, List.append_assoc] at here
  obtain ⟨input', counted, left⟩ := count_read peers f here.symm
  obtain ⟨input'', ran, left'⟩ := receiveLoop_whole (a := a) peers f.content.length
    (f.content.length + 1) 0 f.content [] rest input' (Nat.le_refl _) (Nat.lt_succ_self _) left
  refine ⟨input'', ?_, ?_⟩
  · rw [receive, counted]
    exact ran
  · rw [left', ← here, fileBlock, List.append_assoc]

theorem receive_cut (peers : Peers w r) {f : OpenFile} {input : Input}
    (part : input.pending <+: fileBlock w f) (cut : ¬fileBlock w f <+: input.pending) :
    receive r a input = (partOf f a input, none) := by
  rw [fileBlock] at part cut
  have four : (w.intBytes (BitVec.ofNat 32 f.content.length)).length = 4 := length_intBytes w _
  by_cases counted : 4 ≤ input.pending.length
  · obtain ⟨rest, here⟩ := List.prefix_of_prefix_length_le (List.prefix_append _ _) part
      (by rw [four]; exact counted)
    rw [← here, List.prefix_append_right_inj] at part cut
    obtain ⟨input', read, left⟩ := count_read peers f here.symm
    subst left
    have size : input.pending.length - 4 = input'.pending.length := by
      rw [← here, List.length_append, four, Nat.add_sub_cancel_left]
    have ran := receiveLoop_cut (a := a) peers f.content.length (f.content.length + 1) 0 f.content
      [] input' (Nat.le_refl _) (Nat.lt_succ_self _) part cut
    rw [receive, read, partOf, size]
    exact ran
  · have failed : (readcount r >>= checkCount) input = .error prematureEOF := by
      simp only [readcount, bind, StateT.bind, Except.bind,
        readdata_error (Nat.lt_of_not_le counted)]
    have none : input.pending.length - 4 = 0 := by omega
    rw [receive, failed, partOf, none, Nat.zero_div, Nat.zero_mul, List.take_zero, kept_nil]

theorem receiveLoop_skip (fuel count i : Nat) (out : List Byte) (input : Input) :
    (receiveLoop r a fuel count i out input).2 =
      (readskipLoop fuel count input).toOption.map Prod.snd := by
  induction fuel generalizing count i out input with
  | zero => rfl
  | succ fuel ih =>
      rw [receiveLoop, readskipLoop]
      by_cases done : count = 0
      · rw [if_pos done, if_pos done]
        rfl
      · rw [if_neg done, if_neg done]
        simp only [bind, StateT.bind, Except.bind]
        cases readdata (XFERSIZE count) input with
        | error failure => rfl
        | ok read => exact ih _ _ _ _

theorem receive_skip (input : Input) :
    (receive r a input).2 = (readskip r input).toOption.map Prod.snd := by
  have parts : readskip r input =
      (readcount r >>= checkCount >>= fun n => readskipLoop n n) input := by
    rw [bind_assoc]
    rfl
  rw [parts, receive]
  simp only [bind, StateT.bind, Except.bind]
  cases readcount r input with
  | error failure => rfl
  | ok counted =>
      dsimp only
      cases checkCount counted.1 counted.2 with
      | error failure => rfl
      | ok checked => exact receiveLoop_skip _ _ _ _ _

theorem checkSpace_pending {rpauseflag : Bool} {input input' : Input}
    (granted : checkSpace r a rpauseflag input = some input') :
    input'.pending = input.pending := by
  have peeked : ∀ fsize, prereadcount r input = .ok (fsize, input') →
      input'.pending = input.pending := by
    intro fsize peeked
    by_cases four : 4 ≤ input.pending.length
    · by_cases buffered : 4 ≤ input.data.length
      · rw [prereadcount_buffered r buffered] at peeked
        rw [(Prod.mk.inj (Except.ok.inj peeked)).2]
      · by_cases empty : input.data = []
        · obtain ⟨input'', ran, same, -⟩ := prereadcount_empty r empty four
          rw [ran] at peeked
          rw [← (Prod.mk.inj (Except.ok.inj peeked)).2, same]
        · rw [prereadcount_no_space r empty (by omega) four] at peeked
          cases peeked
    · have failed : prereadcount r input = .error prematureEOF := by
        simp only [prereadcount, bind, StateT.bind, Except.bind,
          readdata_error (Nat.lt_of_not_le four)]
      rw [failed] at peeked
      cases peeked
  rw [checkSpace] at granted
  split at granted
  · rw [Option.some.inj granted]
  · split at granted
    · cases granted
    next fsize input'' peeked' =>
      have same : input'' = input' := by
        split at granted
        · cases granted
        · exact Option.some.inj granted
        · split at granted
          · cases granted
          · exact Option.some.inj granted
      exact peeked fsize (same ▸ peeked')

end Receiving

/-! ## Files -/

section Files

variable {φ : Type} [DecidableEq φ] {files : Files φ} {x y : φ} {content content' : List Byte}

@[simp] theorem store_same : files.store x content x = some content := Function.update_self ..

theorem store_other (other : y ≠ x) : files.store x content y = files y :=
  Function.update_of_ne other ..

@[simp] theorem store_store : (files.store x content).store x content' = files.store x content' :=
  Function.update_idem ..

@[simp] theorem unlink_same : files.unlink x x = none := Function.update_self ..

theorem unlink_other (other : y ≠ x) : files.unlink x y = files y := Function.update_of_ne other ..

theorem rename_target (other : y ≠ x) : files.rename x y y = files x := by
  rw [Files.rename, if_neg (Ne.symm other), unlink_other other, Function.update_self]

end Files

theorem filecopyLoop_ok {a : Answers} (fuel i : Nat) (here out : List Byte)
    (enough : here.length < fuel) (ok : (filecopyLoop a fuel i here out).1 = true) :
    (filecopyLoop a fuel i here out).2 = out ++ here := by
  induction fuel generalizing i here out with
  | zero => exact absurd enough (Nat.not_lt_zero _)
  | succ fuel ih =>
      rw [filecopyLoop] at ok ⊢
      split at ok
      · cases ok
      next =>
        rw [if_neg ‹_›]
        split at ok
        next empty => rw [if_pos empty, empty, List.append_nil]
        next some =>
          rw [if_neg some]
          split at ok
          · cases ok
          next =>
            rw [if_neg ‹_›]
            have positive := List.length_pos_of_ne_nil some
            have shorter : (here.drop BUFFERSIZE).length < fuel := by
              rw [List.length_drop]
              have room : 0 < BUFFERSIZE := by decide
              omega
            rw [ih (i + 1) _ _ shorter ok, List.append_assoc, List.take_append_drop]

theorem filecopy_ok {a : Answers} {here : List Byte} (ok : (filecopy a here).1 = true) :
    (filecopy a here).2 = here :=
  filecopyLoop_ok _ 0 here [] (Nat.lt_succ_self _) ok

/-! ## What has happened when `copyfile` ends -/

section Runs

variable {φ : Type} [DecidableEq φ] {w r : Endpoint} {f : OpenFile} {a : Answers} {s : Process φ}
  {name : Name} {files : Files φ} {input : Input} {place : Place}

theorem storedOf_eq_iff : storedOf f a = f.content ↔ StoresAll f a :=
  kept_eq_iff (by decide) _ _ _ (Nat.lt_succ_self _)

variable (s name files)

theorem copyfile_none (peers : Peers w r) (arrives : Arrives w f input)
    (found : places.find? a.creat = none) :
    copyfile r a s name files input = (files, .goaway) ∨
      ∃ input', input.pending = fileBlock w f ++ input'.pending ∧
        copyfile r a s name files input = (files, .returned true input') := by
  have skipped := @receive_skip r a input
  rw [copyfile, found]
  by_cases whole : fileBlock w f <+: input.pending
  · obtain ⟨input', ran, left⟩ := receive_whole (a := a) peers whole
    rw [ran] at skipped
    cases read : readskip r input with
    | error failure =>
        rw [read] at skipped
        cases skipped
    | ok done =>
        rw [read] at skipped
        obtain rfl := Option.some.inj skipped
        exact .inr ⟨_, left, rfl⟩
  · rw [receive_cut peers (arrives.resolve_left whole) whole] at skipped
    cases read : readskip r input with
    | error failure => exact .inl rfl
    | ok done =>
        rw [read] at skipped
        cases skipped

theorem copyfile_noSpace (found : places.find? a.creat = some place)
    (refused : checkSpace r a s.rpauseflag input = none) :
    copyfile r a s name files input =
      (abandon s name place (files.store (s.opened name place) []), .goaway) := by
  rw [copyfile, found]
  dsimp only
  rw [refused]

theorem copyfile_cut (peers : Peers w r) (arrives : Arrives w f input)
    (found : places.find? a.creat = some place)
    (granted : checkSpace r a s.rpauseflag input ≠ none)
    (cut : ¬fileBlock w f <+: input.pending) :
    copyfile r a s name files input =
      (abandon s name place (files.store (s.opened name place) (partOf f a input)), .goaway) := by
  obtain ⟨input', checked⟩ := Option.ne_none_iff_exists'.mp granted
  have same := checkSpace_pending checked
  have part : input'.pending <+: fileBlock w f := by
    rw [same]
    exact arrives.resolve_left cut
  have cut' : ¬fileBlock w f <+: input'.pending := by rwa [same]
  have ran := receive_cut (a := a) peers part cut'
  have alike : partOf f a input' = partOf f a input := by rw [partOf, partOf, same]
  rw [copyfile, found]
  dsimp only
  rw [checked]
  dsimp only
  rw [ran, alike, store_store]

theorem copyfile_whole (peers : Peers w r) (found : places.find? a.creat = some place)
    (granted : checkSpace r a s.rpauseflag input ≠ none)
    (whole : fileBlock w f <+: input.pending) :
    ∃ input', input.pending = fileBlock w f ++ input'.pending ∧
      copyfile r a s name files input =
        if place = .target then
          (files.store (s.opened name place) (storedOf f a), .returned false input')
        else install a s name place (files.store (s.opened name place) (storedOf f a)) input' := by
  obtain ⟨input', checked⟩ := Option.ne_none_iff_exists'.mp granted
  have same := checkSpace_pending checked
  have whole' : fileBlock w f <+: input'.pending := by rwa [same]
  obtain ⟨input'', ran, left⟩ := receive_whole (a := a) peers whole'
  refine ⟨input'', by rw [← same, left], ?_⟩
  rw [copyfile, found]
  dsimp only
  rw [checked]
  dsimp only
  rw [ran]
  dsimp only
  rw [store_store]
  rfl

variable {s name files}

/-! ## When it is all or nothing -/

omit [DecidableEq φ] in
theorem failed_iff {files' : Files φ} {outcome : Outcome}
    (found : places.find? a.creat = some place) (fails : ∀ input', outcome ≠ .returned false input')
    (consumed : ∀ failed input', outcome = .returned failed input' →
      input.pending = fileBlock w f ++ input'.pending) :
    AllOrNothing w f a s name files input (files', outcome) ↔
      files' (s.dest name) = files (s.dest name) ∧
        (place ≠ .target → files' (s.opened name place) = none) := by
  constructor
  · exact fun all => ⟨all.unchanged fails, all.removed place found⟩
  · rintro ⟨same, gone⟩
    refine ⟨fun input' ended => absurd ended (fails input'), fun _ => same, ?_, consumed⟩
    intro place' found' temporary
    obtain rfl := Option.some.inj (found.symm.trans found')
    exact gone temporary

omit [DecidableEq φ] in
theorem goaway_iff {files' : Files φ} (found : places.find? a.creat = some place) :
    AllOrNothing w f a s name files input (files', .goaway) ↔
      files' (s.dest name) = files (s.dest name) ∧
        (place ≠ .target → files' (s.opened name place) = none) :=
  failed_iff found (fun _ ended => nomatch ended) fun _ _ ended => nomatch ended

omit [DecidableEq φ] in
theorem returned_iff {files' : Files φ} {input' : Input}
    (found : places.find? a.creat = some place)
    (left : input.pending = fileBlock w f ++ input'.pending) :
    AllOrNothing w f a s name files input (files', .returned true input') ↔
      files' (s.dest name) = files (s.dest name) ∧
        (place ≠ .target → files' (s.opened name place) = none) := by
  refine failed_iff found (fun _ ended => nomatch ended) fun failed input'' ended => ?_
  cases ended
  exact left

omit [DecidableEq φ] in
theorem done_iff {files' : Files φ} {input' : Input} (found : places.find? a.creat = some place)
    (consumed : input.pending = fileBlock w f ++ input'.pending) :
    AllOrNothing w f a s name files input (files', .returned false input') ↔
      files' (s.dest name) = some f.content ∧
        (place ≠ .target → files' (s.opened name place) = none) := by
  constructor
  · exact fun all => ⟨all.stored input' rfl, all.removed place found⟩
  · rintro ⟨whole, gone⟩
    refine ⟨fun _ _ => whole, fun fails => absurd rfl (fails input'), ?_, ?_⟩
    · intro place' found' temporary
      obtain rfl := Option.some.inj (found.symm.trans found')
      exact gone temporary
    · intro failed input'' ended
      cases ended
      exact consumed

theorem allOrNothing_none (peers : Peers w r) (arrives : Arrives w f input)
    (found : places.find? a.creat = none) :
    AllOrNothing w f a s name files input (copyfile r a s name files input) := by
  have removed : ∀ files' : Files φ, ∀ place, places.find? a.creat = some place →
      place ≠ .target → files' (s.opened name place) = none :=
    fun _ place found' => absurd (found.symm.trans found') nofun
  rcases copyfile_none s name files peers arrives found with ran | ⟨input', left, ran⟩
  · rw [ran]
    exact ⟨fun _ ended => absurd ended nofun, fun _ => rfl, removed files,
      fun _ _ ended => absurd ended nofun⟩
  · rw [ran]
    refine ⟨fun _ ended => absurd ended nofun, fun _ => rfl, removed files, ?_⟩
    intro failed input'' ended
    cases ended
    exact left

theorem allOrNothing_target (peers : Peers w r) (arrives : Arrives w f input)
    (found : places.find? a.creat = some .target) :
    AllOrNothing w f a s name files input (copyfile r a s name files input) ↔
      SafeDirect w r f a s name files input := by
  have direct : s.opened name .target = s.dest name := rfl
  rw [SafeDirect]
  by_cases refused : checkSpace r a s.rpauseflag input = none
  · rw [if_pos refused, copyfile_noSpace s name files found refused,
      goaway_iff found, and_iff_left fun other => absurd rfl other, abandon, if_pos rfl, direct,
      store_same]
    exact eq_comm
  · rw [if_neg refused]
    by_cases whole : fileBlock w f <+: input.pending
    · obtain ⟨input', left, ran⟩ := copyfile_whole s name files peers found refused whole
      rw [if_pos whole, ran, if_pos rfl, done_iff found left,
        and_iff_left fun other => absurd rfl other, direct, store_same, Option.some_inj,
        storedOf_eq_iff]
    · rw [if_neg whole, copyfile_cut s name files peers arrives found refused whole,
        goaway_iff found, and_iff_left fun other => absurd rfl other, abandon, if_pos rfl, direct,
        store_same]
      exact eq_comm

theorem install_remains {input' : Input} (temporary : s.opened name place ≠ s.named name place)
    (there : (files (s.opened name place)).isSome) :
    ((install a s name place files input').1 (s.opened name place)).isSome := by
  rw [install]
  split
  next both =>
    have some : (files (s.named name place)).isSome := (Bool.and_eq_true_iff.mp both).2
    dsimp only
    rw [unlink_other temporary, Files.rename]
    split
    · exact there
    · rw [unlink_other temporary]
      by_cases here : s.opened name place = s.dest name
      · rw [here, Function.update_self]
        exact some
      · rw [Function.update_of_ne here]
        exact there
  next =>
    split
    · dsimp only
      rw [unlink_other temporary]
      exact there
    · split
      · dsimp only
        rw [unlink_other temporary]
        exact there
      · dsimp only
        rw [unlink_other temporary]
        by_cases here : s.opened name place = s.dest name
        · rw [here, store_same]
          rfl
        · rw [store_other here, store_other here]
          exact there

theorem install_eq {input' : Input} {content : List Byte}
    (same : s.named name place = s.opened name place)
    (there : files (s.opened name place) = some content) :
    install a s name place files input' =
      if a.rename then ((files.rename (s.opened name place) (s.dest name)).unlink
        (s.opened name place), .returned false input')
      else if !a.reopen || !a.recreat then
        (files.unlink (s.opened name place), .returned true input')
      else
        let copied := filecopy a (if s.dest name = s.opened name place then [] else content)
        ((files.store (s.dest name) copied.2).unlink (s.opened name place),
          .returned (!copied.1) input') := by
  have source : ((files.store (s.dest name) []) (s.opened name place)).getD [] =
      if s.dest name = s.opened name place then [] else content := by
    by_cases here : s.dest name = s.opened name place
    · rw [if_pos here, here, store_same]
      rfl
    · rw [if_neg here, store_other (Ne.symm here), there]
      rfl
  rw [install, same]
  dsimp only
  rw [there, Option.isSome_some, Bool.and_true, Bool.and_true, source, store_store]
  cases a.rename with
  | true => rfl
  | false =>
      cases a.reopen with
      | false => rfl
      | true =>
          cases a.recreat with
          | false => rfl
          | true => rfl

variable (s name files) in
/-- The client gives up, with something stored in the file that it has opened. -/
theorem copyfile_givesUp (peers : Peers w r) (arrives : Arrives w f input)
    (found : places.find? a.creat = some place) (givesUp : GivesUp w r f a s input) :
    ∃ content, copyfile r a s name files input =
      (abandon s name place (files.store (s.opened name place) content), .goaway) := by
  by_cases refused : checkSpace r a s.rpauseflag input = none
  · exact ⟨_, copyfile_noSpace s name files found refused⟩
  · exact ⟨_, copyfile_cut s name files peers arrives found refused (givesUp.resolve_left refused)⟩

variable (files) in
theorem copyfile_remains (peers : Peers w r) (arrives : Arrives w f input)
    (found : places.find? a.creat = some place) (temporary : place ≠ .target)
    (other : s.opened name place ≠ s.named name place) :
    ((copyfile r a s name files input).1 (s.opened name place)).isSome := by
  by_cases givesUp : GivesUp w r f a s input
  · obtain ⟨content, ran⟩ := copyfile_givesUp s name files peers arrives found givesUp
    rw [ran]
    dsimp only
    rw [abandon, if_neg temporary, unlink_other other, store_same]
    rfl
  · rw [GivesUp, not_or, not_not] at givesUp
    obtain ⟨input', -, ran⟩ := copyfile_whole s name files peers found givesUp.1 givesUp.2
    rw [ran, if_neg temporary]
    exact install_remains other (by rw [store_same]; rfl)

/-- Without the temporary file the destination is what it was, unless it was that file. -/
theorem untouched_iff {content : List Byte} :
    (files.store (s.opened name place) content).unlink (s.opened name place) (s.dest name) =
      files (s.dest name) ↔ Untouched s name files place := by
  rw [Untouched]
  by_cases here : s.dest name = s.opened name place
  · rw [here, unlink_same, or_iff_right (not_not.mpr rfl)]
    exact eq_comm
  · rw [unlink_other here, store_other here]
    exact iff_of_true rfl (.inl here)

/-- The destination has what was stored, if it is another file than the temporary one. -/
theorem installed_iff {files' : Files φ}
    (other : s.dest name ≠ s.opened name place →
      files' (s.dest name) = some (storedOf f a)) :
    files'.unlink (s.opened name place) (s.dest name) = some f.content ↔
      s.dest name ≠ s.opened name place ∧ StoresAll f a := by
  by_cases here : s.dest name = s.opened name place
  · rw [here, unlink_same]
    exact iff_of_false nofun fun both => both.1 rfl
  · rw [unlink_other here, other here, and_iff_right here, Option.some_inj, storedOf_eq_iff]

theorem copied_iff {input' : Input} (found : places.find? a.creat = some place)
    (left : input.pending = fileBlock w f ++ input'.pending) :
    AllOrNothing w f a s name files input
        ((((files.store (s.opened name place) (storedOf f a)).store (s.dest name)
          (copyOf f a s name place).2).unlink (s.opened name place)),
          .returned (!(copyOf f a s name place).1) input') ↔
      if (copyOf f a s name place).1 then s.dest name ≠ s.opened name place ∧ StoresAll f a
      else if s.dest name = s.opened name place then files (s.dest name) = none
      else files (s.dest name) = some (copyOf f a s name place).2 := by
  cases ok : (copyOf f a s name place).1 with
  | true =>
      rw [if_pos rfl, Bool.not_true, done_iff found left, and_iff_left fun _ => unlink_same]
      refine installed_iff fun other => ?_
      have copied : (copyOf f a s name place).2 = _ := filecopy_ok ok
      rw [store_same, copied, if_neg other]
  | false =>
      rw [if_neg nofun, Bool.not_false, returned_iff found left, and_iff_left fun _ => unlink_same]
      by_cases here : s.dest name = s.opened name place
      · rw [if_pos here, here, unlink_same]
        exact eq_comm
      · rw [if_neg here, unlink_other here, store_same]
        exact eq_comm

theorem allOrNothing_temporary (peers : Peers w r) (arrives : Arrives w f input)
    (found : places.find? a.creat = some place) (temporary : place ≠ .target) :
    AllOrNothing w f a s name files input (copyfile r a s name files input) ↔
      SafeTemporary w r f a s name files input place := by
  by_cases same : s.opened name place = s.named name place
  · rw [SafeTemporary, and_iff_right same]
    by_cases givesUp : GivesUp w r f a s input
    · obtain ⟨content, ran⟩ := copyfile_givesUp s name files peers arrives found givesUp
      rw [if_pos givesUp, ran, goaway_iff found, abandon, if_neg temporary, ← same,
        and_iff_left fun _ => unlink_same, untouched_iff]
    · have both := givesUp
      rw [GivesUp, not_or, not_not] at both
      obtain ⟨input', left, ran⟩ := copyfile_whole s name files peers found both.1 both.2
      rw [if_neg givesUp, ran, if_neg temporary, install_eq same.symm store_same]
      by_cases moved : a.rename = true
      · rw [if_pos moved, if_pos moved, done_iff found left, and_iff_left fun _ => unlink_same]
        exact installed_iff fun other => by rw [rename_target other, store_same]
      · rw [if_neg moved, if_neg moved]
        by_cases lost : (!a.reopen || !a.recreat) = true
        · rw [if_pos lost, if_pos lost, returned_iff found left, and_iff_left fun _ => unlink_same,
            untouched_iff]
        · rw [if_neg lost, if_neg lost]
          exact copied_iff found left
  · refine iff_of_false (fun all => ?_) fun safe => same safe.1
    have remains := copyfile_remains files peers arrives found temporary same
    rw [all.removed place found temporary] at remains
    cases remains

end Runs

/-- Whatever the system answers, `copyfile` is all or nothing exactly if every write of a file that
is received stores all it is given, the temporary file is found again under its name and is not the
destination, and a destination that is written itself is written to the end. -/
theorem allOrNothing_iff {φ : Type} [DecidableEq φ] {crypt : List Byte → List Byte}
    {pword : Option (List Byte)} {w r : Endpoint} (connected : Connected crypt pword w r)
    {f : OpenFile} {input : Input} (arrives : Arrives w f input) (a : Answers) (s : Process φ)
    (name : Name) (files : Files φ) :
    AllOrNothing w f a s name files input (copyfile r a s name files input) ↔
      Safe w r f a s name files input := by
  have peers := connected.peers
  rw [Safe]
  cases found : places.find? a.creat with
  | none => exact iff_of_true (allOrNothing_none peers arrives found) trivial
  | some place =>
      cases place with
      | target => exact allOrNothing_target peers arrives found
      | destination | sup | base | usrTmp | tmp =>
          exact allOrNothing_temporary peers arrives found nofun

/-! ## A disk that is full -/

/-- A process whose names stand for themselves, in a collection without prefix. -/
def plainProcess : Process (Directory × Name) := ⟨fun cwd name => (cwd, name), false, 5, true⟩

/-- Every call succeeds, and every write of a received file stores so many bytes. -/
def storing (count : Nat) : Answers where
  creat _ := true
  space := .unknown
  store _ := count
  rename := true
  reopen := true
  recreat := true
  read _ := true
  copy _ := BUFFERSIZE

/-- The file has one byte, `a`. -/
def fileA : OpenFile := ⟨[97], by decide⟩

/-- There is a file `a`, with the byte `b` in it. -/
def oldFiles : Files (Directory × Name) := fun x => if x = (.base, [97]) then some [98] else none

/-- The block of the file, and nothing behind it. -/
def arriving : Input := Input.start ⟨fileBlock ⟨.big, true, none⟩ fileA, fun _ => 0⟩

theorem arrives_arriving : Arrives ⟨.big, true, none⟩ fileA arriving := .inl (List.prefix_refl _)

/-- A file that fits the disk is stored. -/
theorem allOrNothing_roomy :
    AllOrNothing ⟨.big, true, none⟩ fileA (storing FILEXFER) plainProcess [97] oldFiles arriving
      (copyfile ⟨.little, false, none⟩ (storing FILEXFER) plainProcess [97] oldFiles arriving) := by
  have connected : Connected id none ⟨.big, true, none⟩ ⟨.little, false, none⟩ :=
    .toClient .little .big true rfl
  refine (allOrNothing_iff connected arrives_arriving _ _ _ _).mpr ⟨rfl, ?_⟩
  have whole : ¬GivesUp ⟨.big, true, none⟩ ⟨.little, false, none⟩ fileA (storing FILEXFER)
      plainProcess arriving := by
    rintro (refused | cut)
    · cases refused
    · exact cut (List.prefix_refl _)
  rw [if_neg whole]
  refine ⟨by decide, fun k inside => ?_⟩
  exact Nat.min_le_left _ _

/-- A disk that takes nothing leaves an empty file where the old one was, and no error is seen. -/
theorem fullDisk_empties :
    (∃ input', (copyfile ⟨.little, false, none⟩ (storing 0) plainProcess [97] oldFiles arriving).2 =
      .returned false input') ∧
    (copyfile ⟨.little, false, none⟩ (storing 0) plainProcess [97] oldFiles arriving).1
      (plainProcess.dest [97]) = some [] ∧
    ¬AllOrNothing ⟨.big, true, none⟩ fileA (storing 0) plainProcess [97] oldFiles arriving
      (copyfile ⟨.little, false, none⟩ (storing 0) plainProcess [97] oldFiles arriving) := by
  have emptied : (copyfile ⟨.little, false, none⟩ (storing 0) plainProcess [97] oldFiles arriving).1
      (plainProcess.dest [97]) = some [] := rfl
  refine ⟨⟨_, rfl⟩, emptied, fun all => ?_⟩
  have whole := all.stored _ rfl
  rw [emptied] at whole
  exact absurd whole (by decide)

end MachFormal.Sup.Copy
