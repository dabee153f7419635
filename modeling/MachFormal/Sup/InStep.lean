import MachFormal.Sup.Transfer

/-!
# The transfer stays in step

Every answer of the server is a message with one file block or with none, and the
block is there exactly for a regular file that is sent whole. The client takes that
block in every branch but one: when the path of a regular file cannot be prepared it
skips a block without asking whether the entry came with one, and an entry that only
updates the file's information comes with none.
-/

namespace MachFormal.Sup

open Library.Wire

/-! ## What the server writes -/

/-- The server sends the file itself. -/
def SendsFile (listonly : Bool) (t : Tree) : Prop :=
  fmt t.mode = S_IFREG ∧ listonly = false ∧ has t.flags FUPDATE = false

/-- Every string of the node fits a buffer. -/
def Tree.Fits (t : Tree) : Prop :=
  (Item.string (some t.name)).Fits ∧ (Item.string t.user).Fits ∧ (Item.string t.group).Fits ∧
    (∀ p ∈ t.link, (Item.string (some p)).Fits) ∧ (∀ p ∈ t.exec, (Item.string (some p)).Fits)

/-- Names and the null string after them. -/
def nameBytes (e : Endpoint) (names : List CString) : List Byte :=
  (names.map fun p => Item.string (some p)).flatMap (Item.bytes e) ++
    (Item.string none).bytes e

/-- The message up to the mode. -/
def headBytes (e : Endpoint) (t : Tree) : List Byte :=
  e.intBytes MSGRECV ++ ((Item.string (some t.name)).bytes e ++ (Item.int t.mode).bytes e)

/-- The message from the flags up to the file block. -/
def bodyBytes (e : Endpoint) (t : Tree) : List Byte :=
  (Item.int t.flags).bytes e ++ ((Item.string t.user).bytes e ++ ((Item.string t.group).bytes e ++
    ((Item.int t.mtime).bytes e ++ (nameBytes e t.link ++ nameBytes e t.exec))))

/-- The file block, if there is one. -/
def blockBytes (e : Endpoint) : Option OpenFile → List Byte
  | none => []
  | some f => fileBlock e f

section Server

variable (e : Endpoint) (listonly : Bool)

theorem writeones_eq (names : List CString) :
    writeones e names = writeitems e (names.map fun p => Item.string (some p)) := by
  induction names with
  | nil => rfl
  | cons p rest ih =>
      rw [writeones, ih]
      rfl

theorem writeones_produces {names : List CString}
    (fits : ∀ p ∈ names, (Item.string (some p)).Fits) :
    Produces Output.Open Output.Open Output.emitted (writeones e names)
      ((names.map fun p => Item.string (some p)).flatMap (Item.bytes e)) () := by
  rw [writeones_eq]
  refine writeitems_produces e (fun i member => ?_)
  obtain ⟨p, inside, rfl⟩ := List.mem_map.mp member
  exact fits p inside

theorem sendfile_produces {t : Tree} {fd : Option OpenFile}
    (whole : fd.isSome ↔ SendsFile listonly t) :
    Produces Output.Open Output.Open Output.emitted (sendfile e listonly t fd)
      (blockBytes e fd) () := by
  cases fd with
  | none =>
      have off : fmt t.mode ≠ S_IFREG ∨ listonly ∨ has t.flags FUPDATE := by
        by_contra none
        rw [not_or, not_or, not_not] at none
        exact absurd (whole.mpr ⟨none.1, by simpa using none.2.1, by simpa using none.2.2⟩) nofun
      rw [sendfile, if_pos off]
      exact .pure _
  | some f =>
      obtain ⟨regular, notList, notUpdate⟩ := whole.mp rfl
      rw [sendfile, if_neg (by simp [regular, notList, notUpdate])]
      exact writefile_produces e f

/-- An entry that cannot be read at the server. -/
theorem msgrecvServer_denied {t : Tree} {fd : Option OpenFile} (fits : t.Fits)
    (denied : t.mode = 0) :
    Produces Output.Closed Output.Closed Output.emitted (msgrecvServer e listonly (some (t, fd)))
      (headBytes e t ++ e.intBytes ENDCOUNT) () := by
  rw [headBytes, List.append_assoc, List.append_assoc]
  refine (writemsg_produces e MSGRECV).bind ?_
  refine (writeitem_produces e fits.1).bind ?_
  refine (writeint_produces e t.mode).bind ?_
  rw [if_pos denied]
  exact writemend_produces e

/-- An entry that is described in full. -/
theorem msgrecvServer_sent {t : Tree} {fd : Option OpenFile} (fits : t.Fits)
    (granted : t.mode ≠ 0) (whole : fd.isSome ↔ SendsFile listonly t) :
    Produces Output.Closed Output.Closed Output.emitted (msgrecvServer e listonly (some (t, fd)))
      (headBytes e t ++ (bodyBytes e t ++ (blockBytes e fd ++ e.intBytes ENDCOUNT))) () := by
  obtain ⟨name, user, group, link, exec⟩ := fits
  simp only [headBytes, bodyBytes, nameBytes, List.append_assoc]
  refine (writemsg_produces e MSGRECV).bind ?_
  refine (writeitem_produces e name).bind ?_
  refine (writeint_produces e t.mode).bind ?_
  rw [if_neg granted]
  refine (writeint_produces e t.flags).bind ?_
  refine (writeitem_produces e user).bind ?_
  refine (writeitem_produces e group).bind ?_
  refine (writeint_produces e t.mtime).bind ?_
  refine (writeones_produces e link).bind ?_
  refine (writedata_intBytes e NULLCOUNT).bind ?_
  refine (writeones_produces e exec).bind ?_
  refine (writedata_intBytes e NULLCOUNT).bind ?_
  exact (sendfile_produces e listonly whole).bind (writemend_produces e)

/-- The end of the list. -/
theorem msgrecvServer_end :
    Produces Output.Closed Output.Closed Output.emitted (msgrecvServer e listonly none)
      (e.intBytes MSGRECV ++ ((Item.string none).bytes e ++ e.intBytes ENDCOUNT)) () :=
  (writemsg_produces e MSGRECV).bind
    ((writedata_intBytes e NULLCOUNT).bind (writemend_produces e))

end Server

/-- What a turn for an entry puts into the message, and the file it opens. -/
def Entry.onWire (listonly : Bool) (t : Entry) : Tree × Option OpenFile :=
  if fmt t.mode = S_IFREG then
    if !listonly && !has t.flags FUPDATE then
      match t.source with
      | none => ({ t.tree with mode := 0 }, none)
      | some f => (t.owned, some f)
    else
      (t.owned, none)
  else if fmt t.mode = S_IFDIR then
    (t.owned, none)
  else
    (t.tree, none)

theorem serve_eq (e : Endpoint) (listonly : Bool) (t : Entry) :
    serve e listonly (some t) = msgrecvServer e listonly (some (t.onWire listonly)) := by
  rw [serve]
  by_cases directory : fmt t.mode = S_IFDIR
  · have irregular : fmt t.mode ≠ S_IFREG := by rw [directory]; decide
    rw [if_pos directory, senddir, Entry.onWire, if_neg irregular, if_pos directory]
  · rw [if_neg directory, sendone, Entry.onWire]
    split
    · split
      · cases t.source with
        | none => rfl
        | some f => rfl
      · rfl
    · rfl

theorem short_fits {p : CString} (short : p.data.length < STRINGLENGTH) :
    (Item.string (some p)).Fits :=
  Nat.le_of_lt (Nat.lt_of_lt_of_le short (by decide))

theorem Entry.tree_fits (t : Entry) : t.tree.Fits := by
  refine ⟨short_fits (t.short t.name (by simp)), trivial, trivial, ?_, ?_⟩
  · intro p member
    have inside : p ∈ t.link := member
    exact short_fits (t.short p (by simp [inside]))
  · intro p member
    have inside : p ∈ t.exec := member
    exact short_fits (t.short p (by simp [inside]))

theorem Entry.owned_fits (t : Entry) : t.owned.Fits :=
  ⟨t.tree_fits.1, short_fits (t.short t.owner (by simp)),
    short_fits (t.short t.ownerGroup (by simp)), t.tree_fits.2.2.2⟩

theorem Entry.mode_ne_zero (t : Entry) : t.mode ≠ 0 := by
  intro zero
  have typed := t.typed
  rw [zero] at typed
  revert typed
  decide

/-- The node the client gets to see, and with it the file block: an entry is either
denied or described as it is, with the file exactly when it is to be sent. -/
theorem Entry.onWire_spec (listonly : Bool) (t : Entry) :
    (t.onWire listonly).1.Fits ∧ (t.onWire listonly).1.name = t.name ∧
      ((t.onWire listonly).1.mode = 0 ∧ (t.onWire listonly).2 = none ∧
          has t.flags FUPDATE = false ∨
        (t.onWire listonly).1.mode = t.mode ∧ (t.onWire listonly).1.flags = t.flags ∧
          ((t.onWire listonly).2.isSome ↔ SendsFile listonly (t.onWire listonly).1)) := by
  by_cases regular : fmt t.mode = S_IFREG
  · by_cases wanted : (!listonly && !has t.flags FUPDATE) = true
    · obtain ⟨notList, notUpdate⟩ := (Bool.and_eq_true _ _).mp wanted
      rw [Bool.not_eq_true'] at notList notUpdate
      cases opened : t.source with
      | none =>
          simp only [Entry.onWire, if_pos regular, if_pos wanted, opened]
          exact ⟨t.tree_fits, rfl, .inl ⟨trivial, trivial, notUpdate⟩⟩
      | some f =>
          simp only [Entry.onWire, if_pos regular, if_pos wanted, opened]
          exact ⟨t.owned_fits, rfl, .inr ⟨rfl, rfl, fun _ => ⟨regular, notList, notUpdate⟩,
            fun _ => rfl⟩⟩
    · simp only [Entry.onWire, if_pos regular, if_neg wanted]
      refine ⟨t.owned_fits, rfl, .inr ⟨rfl, rfl, nofun, fun sends => absurd ?_ wanted⟩⟩
      obtain ⟨_, notList, notUpdate⟩ := sends
      rw [notList, show has t.flags FUPDATE = false from notUpdate]
      rfl
  · have nothing : ∀ u : Tree, u.mode = t.mode → ¬SendsFile listonly u :=
      fun u same sends => regular (same ▸ sends.1)
    simp only [Entry.onWire, if_neg regular]
    split
    · exact ⟨t.owned_fits, rfl, .inr ⟨rfl, rfl, nofun, fun sends => absurd sends (nothing _ rfl)⟩⟩
    · exact ⟨t.tree_fits, rfl, .inr ⟨rfl, rfl, nofun, fun sends => absurd sends (nothing _ rfl)⟩⟩

/-! ## What the client takes -/

section Client

variable {σ : Type} (fs : FileSystem σ) (c : Collection) {w r : Endpoint} (peers : Peers w r)

/-- `prepare` fails for a regular file exactly when its path is obstructed and the
collection is not merely listed. -/
theorem prepare_failed_iff (name : Name) (world : σ) :
    (prepare fs c name S_IFREG world).failed = true ↔ c.list = false ∧ Obstructed fs name world := by
  have follows : lookAt fs name S_IFREG world = fs.stat name world := if_neg (by decide)
  rw [prepare, follows, Obstructed]
  cases found : fs.stat name world with
  | none => cases listed : c.list <;> simp
  | some st =>
      by_cases same : S_IFREG = fmt st.mode
      · cases listed : c.list <;> simp [← same]
      · have differ : fmt st.mode ≠ S_IFREG := fun h => same h.symm
        cases listed : c.list <;> simp [same, differ]

include peers in
theorem skip_consumes (f : OpenFile) : Consumes Input.pending (skip r) (fileBlock w f) () := by
  intro state rest next
  obtain ⟨state', ran, left⟩ := readskip_consumes peers f state rest next
  exact ⟨state', by rw [skip, ran], left⟩

include peers in
theorem skip_rejects_end : Rejects Input.pending (skip r) (w.intBytes ENDCOUNT) := by
  intro state rest next
  obtain ⟨failure, failed⟩ := readskip_rejects_end peers state rest next
  exact ⟨_, by rw [skip, failed]⟩

include peers in
theorem receive_consumes (dest : Name) (f : OpenFile) :
    Consumes Input.pending (copyfile.receive r dest) (fileBlock w f) f.content := by
  intro state rest next
  obtain ⟨state', ran, left⟩ := readfile_consumes peers f state rest next
  exact ⟨state', by rw [copyfile.receive, ran], left⟩

include peers in
/-- Stored or not, the file is taken off the connection. -/
theorem copyfile_consumes (dest : Name) (world : σ) (f : OpenFile) :
    ∃ result, Consumes Input.pending (copyfile fs r dest world) (fileBlock w f) result := by
  rw [copyfile]
  cases opened : openFirst fs dest places world with
  | mk place world' =>
      cases place with
      | none => exact ⟨_, (skip_consumes peers f).map (fun _ => (true, world'))⟩
      | some place =>
          exact ⟨_, (receive_consumes peers dest f).map
            (fun content => install fs dest place (fs.store place dest content world'))⟩

include peers in
/-- `recvreg` takes the file if one was sent, whatever fails on the way. -/
theorem recvreg_consumes (t : Tree) (fd : Option OpenFile) (regular : fmt t.mode = S_IFREG)
    (whole : fd.isSome ↔ SendsFile c.list t) (isNew : Bool) (st : Stat) (world : σ) :
    ∃ result, Consumes Input.pending (recvreg fs c r t isNew st world) (blockBytes w fd) result := by
  cases fd with
  | none =>
      have off : has t.flags FUPDATE = true ∨ c.list = true := by
        by_contra neither
        rw [not_or, Bool.not_eq_true, Bool.not_eq_true] at neither
        exact absurd (whole.mpr ⟨regular, neither.2, neither.1⟩) nofun
      rw [recvreg]
      by_cases update : has t.flags FUPDATE = true
      · rw [if_pos update]
        split
        · exact ⟨_, .pure _⟩
        · split
          · exact ⟨_, .pure _⟩
          · exact ⟨_, .pure _⟩
      · rw [if_neg update, if_pos (off.resolve_left update)]
        exact ⟨_, .pure _⟩
  | some f =>
      obtain ⟨_, notList, notUpdate⟩ := whole.mp rfl
      rw [recvreg, if_neg (by simp [notUpdate]), if_neg (by simp [notList])]
      cases backup fs c t isNew world with
      | mk saved world' =>
          cases saved with
          | false => exact ⟨_, (skip_consumes peers f).map (fun _ => (true, world'))⟩
          | true =>
              obtain ⟨result, copied⟩ := copyfile_consumes fs peers t.name.data world' f
              exact ⟨_, copied.map (finishReg fs t)⟩

include peers in
theorem recvtype_consumes (t : Tree) (fd : Option OpenFile)
    (typed : fmt t.mode = S_IFREG ∨ fmt t.mode = S_IFDIR ∨ fmt t.mode = S_IFLNK)
    (whole : fd.isSome ↔ SendsFile c.list t) (p : Prepared σ) :
    ∃ result, Consumes Input.pending (recvtype fs c r t p) (blockBytes w fd) result := by
  have absent : fmt t.mode ≠ S_IFREG → fd = none := fun irregular =>
    Option.not_isSome_iff_eq_none.mp (fun sent => irregular (whole.mp sent).1)
  rw [recvtype]
  rcases typed with regular | directory | symbolic
  · rw [if_neg (by rw [regular]; decide), if_neg (by rw [regular]; decide), if_pos regular]
    exact recvreg_consumes fs c peers t fd regular whole _ _ _
  · rw [if_pos directory, absent (by rw [directory]; decide)]
    exact ⟨_, .pure _⟩
  · rw [if_neg (by rw [symbolic]; decide), if_pos symbolic, absent (by rw [symbolic]; decide)]
    exact ⟨_, .pure _⟩

include peers in
/-- The whole of `recvone`, for an entry that does not skip too much. -/
theorem recvone_consumes (t : Tree) (fd : Option OpenFile)
    (typed : fmt t.mode = S_IFREG ∨ fmt t.mode = S_IFDIR ∨ fmt t.mode = S_IFLNK)
    (granted : t.mode ≠ 0) (whole : fd.isSome ↔ SendsFile c.list t) (nogood : Bool) (world : σ)
    (clear : ¬(fmt t.mode = S_IFREG ∧ has t.flags FUPDATE = true ∧ c.list = false ∧
      Obstructed fs t.name.data world)) :
    ∃ result, Consumes Input.pending (recvone fs c r t nogood world) (blockBytes w fd) result := by
  rw [recvone, if_neg granted]
  generalize prepared : prepare fs c t.name.data (fmt t.mode) world = p
  have absent : fmt t.mode ≠ S_IFREG → fd = none := fun irregular =>
    Option.not_isSome_iff_eq_none.mp (fun sent => irregular (whole.mp sent).1)
  by_cases failed : p.failed = true
  · simp only [if_pos failed]
    by_cases regular : fmt t.mode = S_IFREG
    · rw [if_pos regular]
      rw [regular] at prepared
      obtain ⟨notList, obstructed⟩ :=
        (prepare_failed_iff fs c t.name.data world).mp (prepared ▸ failed)
      have notUpdate : has t.flags FUPDATE = false := by
        by_contra update
        exact clear ⟨regular, by simpa using update, notList, obstructed⟩
      obtain ⟨f, rfl⟩ := Option.isSome_iff_exists.mp (whole.mpr ⟨regular, notList, notUpdate⟩)
      exact ⟨_, (skip_consumes peers f).map (fun _ => (true, p.world))⟩
    · rw [if_neg regular, absent regular]
      exact ⟨_, .pure _⟩
  · simp only [if_neg failed]
    obtain ⟨result, received⟩ := recvtype_consumes fs c peers t fd typed whole p
    exact ⟨_, received.map (finishOne fs c t nogood)⟩

include peers in
/-- The branch that takes a block without asking whether there is one. -/
theorem recvone_rejects (t : Tree) (granted : t.mode ≠ 0) (regular : fmt t.mode = S_IFREG)
    (notList : c.list = false) (nogood : Bool) (world : σ)
    (obstructed : Obstructed fs t.name.data world) :
    Rejects Input.pending (recvone fs c r t nogood world) (w.intBytes ENDCOUNT) := by
  have failed := (prepare_failed_iff fs c t.name.data world).mpr ⟨notList, obstructed⟩
  rw [recvone, if_neg granted, regular]
  simp only [if_pos failed]
  exact (skip_rejects_end peers).bind _

include peers in
theorem readstring_item {p : Option CString} (fits : (Item.string p).Fits) :
    Consumes Input.pending (readstring r) ((Item.string p).bytes w) p := by
  cases p with
  | none => exact readstring_null peers
  | some p => exact readstring_consumes peers p fits

include peers in
theorem readones_consumes {names : List CString} (fits : ∀ p ∈ names, (Item.string (some p)).Fits)
    (fuel : Nat) (enough : names.length < fuel) :
    Consumes Input.pending (readones r fuel) (nameBytes w names) names := by
  induction names generalizing fuel with
  | nil =>
      obtain ⟨fuel, rfl⟩ := Nat.exists_eq_succ_of_ne_zero (Nat.ne_of_gt enough)
      rw [← List.append_nil (nameBytes w [])]
      exact (readstring_null peers).bind (.pure _)
  | cons p rest ih =>
      obtain ⟨fuel, rfl⟩ := Nat.exists_eq_succ_of_ne_zero (Nat.ne_of_gt (Nat.zero_lt_of_lt enough))
      rw [nameBytes, List.map_cons, List.flatMap_cons, List.append_assoc]
      refine (readstring_item peers (fits p List.mem_cons_self)).bind ?_
      exact (ih (fun q member => fits q (List.mem_cons_of_mem _ member)) fuel
        (Nat.lt_of_succ_lt_succ enough)).map (p :: ·)

/-- Every name takes at least its count. -/
theorem length_lt_nameBytes (names : List CString) : names.length < (nameBytes w names).length := by
  have null : ((Item.string none).bytes w).length = 4 := length_intBytes w NULLCOUNT
  induction names with
  | nil => rw [nameBytes, List.map_nil, List.flatMap_nil, List.nil_append, null]; decide
  | cons p rest ih =>
      have count : 4 ≤ ((Item.string (some p)).bytes w).length := by
        rw [Item.bytes, List.length_append, length_intBytes]
        exact Nat.le_add_right 4 _
      simp only [nameBytes, List.map_cons, List.flatMap_cons, List.length_append, List.length_cons]
        at ih ⊢
      omega

include peers in
theorem readnames_consumes {names : List CString}
    (fits : ∀ p ∈ names, (Item.string (some p)).Fits) :
    Consumes Input.pending (readnames r) (nameBytes w names) names := by
  intro state rest next
  refine readones_consumes peers fits _ ?_ state rest next
  have size := congrArg List.length next
  rw [List.length_append] at size
  have least := @length_lt_nameBytes w names
  omega

include peers in
/-- A message about an entry, read up to the point where the entry is stored. -/
theorem msgrecvClient_sent (t : Tree) (fits : t.Fits) (granted : t.mode ≠ 0) (block : List Byte)
    (nogood : Bool) (world : σ) {result : Bool × σ}
    (stored : Consumes Input.pending (recvone fs c r t nogood world) block result) :
    Consumes Input.pending (msgrecvClient fs c r nogood world)
      (headBytes w t ++ (bodyBytes w t ++ (block ++ w.intBytes ENDCOUNT))) (true, result) := by
  obtain ⟨name, user, group, link, exec⟩ := fits
  simp only [headBytes, bodyBytes, List.append_assoc]
  refine (readmsg_consumes peers MSGRECV).bind ?_
  refine (readstring_item peers name).bind ?_
  refine (readint_consumes peers t.mode).bind ?_
  rw [if_neg granted]
  refine (readint_consumes peers t.flags).bind ?_
  refine (readstring_item peers user).bind ?_
  refine (readstring_item peers group).bind ?_
  refine (readint_consumes peers t.mtime).bind ?_
  refine (readnames_consumes peers link).bind ?_
  refine (readnames_consumes peers exec).bind ?_
  exact stored.bind ((readmend_consumes peers).map (fun _ => (true, result)))

include peers in
theorem msgrecvClient_rejects (t : Tree) (fits : t.Fits) (granted : t.mode ≠ 0)
    (nogood : Bool) (world : σ)
    (lost : Rejects Input.pending (recvone fs c r t nogood world) (w.intBytes ENDCOUNT)) :
    Rejects Input.pending (msgrecvClient fs c r nogood world)
      (headBytes w t ++ (bodyBytes w t ++ w.intBytes ENDCOUNT)) := by
  obtain ⟨name, user, group, link, exec⟩ := fits
  simp only [headBytes, bodyBytes, List.append_assoc]
  refine (readmsg_consumes peers MSGRECV).bind_rejects ?_
  refine (readstring_item peers name).bind_rejects ?_
  refine (readint_consumes peers t.mode).bind_rejects ?_
  rw [if_neg granted]
  refine (readint_consumes peers t.flags).bind_rejects ?_
  refine (readstring_item peers user).bind_rejects ?_
  refine (readstring_item peers group).bind_rejects ?_
  refine (readint_consumes peers t.mtime).bind_rejects ?_
  refine (readnames_consumes peers link).bind_rejects ?_
  refine (readnames_consumes peers exec).bind_rejects ?_
  exact lost.bind _

include peers in
theorem msgrecvClient_denied (t : Tree) (fits : t.Fits) (denied : t.mode = 0) (nogood : Bool)
    (world : σ) :
    Consumes Input.pending (msgrecvClient fs c r nogood world)
      (headBytes w t ++ w.intBytes ENDCOUNT) (true, true, world) := by
  simp only [headBytes, List.append_assoc]
  refine (readmsg_consumes peers MSGRECV).bind ?_
  refine (readstring_item peers fits.1).bind ?_
  refine (readint_consumes peers t.mode).bind ?_
  rw [if_pos denied]
  exact (readmend_consumes peers).map (fun _ => (true, true, world))

include peers in
theorem msgrecvClient_end (nogood : Bool) (world : σ) :
    Consumes Input.pending (msgrecvClient fs c r nogood world)
      (w.intBytes MSGRECV ++ ((Item.string none).bytes w ++ w.intBytes ENDCOUNT))
      (false, nogood, world) := by
  refine (readmsg_consumes peers MSGRECV).bind ?_
  refine (readstring_null peers).bind ?_
  exact (readmend_consumes peers).map (fun _ => (false, nogood, world))

end Client

/-! ## The conversation -/

theorem Peers.symm {w r : Endpoint} (peers : Peers w r) : Peers r w where
  key := peers.key.symm
  swap := by
    rcases peers.swap with ⟨plain, other⟩ | ⟨plain, other⟩
    · exact .inr ⟨plain, by simp only [other, ne_comm]⟩
    · exact .inl ⟨plain, by simp only [other, ne_comm]⟩

/-- The bytes of the server's answer to a turn. -/
def answer (e : Endpoint) (listonly : Bool) : Option Entry → List Byte
  | none => e.intBytes MSGRECV ++ ((Item.string none).bytes e ++ e.intBytes ENDCOUNT)
  | some t =>
      if (t.onWire listonly).1.mode = 0 then
        headBytes e (t.onWire listonly).1 ++ e.intBytes ENDCOUNT
      else
        headBytes e (t.onWire listonly).1 ++ (bodyBytes e (t.onWire listonly).1 ++
          (blockBytes e (t.onWire listonly).2 ++ e.intBytes ENDCOUNT))

theorem serve_produces (e : Endpoint) (listonly : Bool) (turn : Option Entry) :
    Produces Output.Closed Output.Closed Output.emitted (serve e listonly turn)
      (answer e listonly turn) () := by
  cases turn with
  | none => exact msgrecvServer_end e listonly
  | some t =>
      obtain ⟨fits, _, denied | described⟩ := t.onWire_spec listonly
      · rw [serve_eq, answer, if_pos denied.1]
        exact msgrecvServer_denied e listonly fits denied.1
      · have granted : (t.onWire listonly).1.mode ≠ 0 := described.1 ▸ t.mode_ne_zero
        rw [serve_eq, answer, if_neg granted]
        exact msgrecvServer_sent e listonly fits granted described.2.2

section Conversation

variable {σ : Type} (fs : FileSystem σ) (c : Collection) {client server : Endpoint}
  (peers : Peers client server)

theorem Output.Closed.emitted_eq {out : Output} (closed : out.Closed) : out.emitted = out.sent := by
  rw [Output.emitted, show out.bufptr = none from closed]

theorem pending_deliver (r : Input) (bytes : List Byte) :
    (r.deliver bytes).pending = r.pending ++ bytes := by
  simp only [Input.pending, Input.deliver, List.append_assoc]

include peers in
/-- A request is written and heard. -/
theorem request_heard {l : Link σ} (drained : l.Drained) :
    ∃ asked heard, writemnull client MSGSEND l.clientOut = .ok ((), asked) ∧ asked.Closed ∧
      readmnull server MSGSEND (l.serverIn.deliver asked.sent) = .ok ((), heard) ∧
      heard.pending = [] := by
  obtain ⟨asked, wrote, closed, emitted⟩ :=
    writemnull_produces client MSGSEND l.clientOut drained.asked
  rw [closed.emitted_eq, drained.asked.emitted_eq, drained.askedSent, List.nil_append] at emitted
  obtain ⟨heard, read, left⟩ := readmnull_consumes peers MSGSEND
    (l.serverIn.deliver asked.sent) [] (by rw [pending_deliver, drained.heard, emitted]; simp)
  exact ⟨asked, heard, wrote, closed, read, left⟩

/-- An answer is written, and what the client has before it is exactly that answer. -/
theorem answer_delivered (server : Endpoint) {l : Link σ} (drained : l.Drained)
    (turn : Option Entry) :
    ∃ answered, serve server c.list turn l.serverOut = .ok ((), answered) ∧ answered.Closed ∧
      (l.clientIn.deliver answered.sent).pending = answer server c.list turn := by
  obtain ⟨answered, wrote, closed, emitted⟩ :=
    serve_produces server c.list turn l.serverOut drained.answered
  rw [closed.emitted_eq, drained.answered.emitted_eq, drained.answeredSent,
    List.nil_append] at emitted
  refine ⟨answered, wrote, closed, ?_⟩
  rw [pending_deliver, drained.taken, emitted, List.nil_append]

include peers in
theorem inStep_of_consumes {l : Link σ} (drained : l.Drained) (turn : Option Entry)
    (received : Bool × σ)
    (takes : Consumes Input.pending (msgrecvClient fs c client l.nogood l.world)
      (answer server c.list turn) (turn.isSome, received)) :
    InStep fs c client server turn l := by
  obtain ⟨asked, heard, wrote, askedClosed, read, heardAll⟩ := request_heard peers drained
  obtain ⟨answered, served, answeredClosed, arrived⟩ := answer_delivered c server drained turn
  obtain ⟨taken, took, left⟩ := takes (l.clientIn.deliver answered.sent) [] (by simp [arrived])
  refine ⟨⟨{ asked with sent := [] }, heard, { answered with sent := [] }, taken, received.1,
    received.2⟩, ?_, ⟨askedClosed, rfl, heardAll, answeredClosed, rfl, left⟩⟩
  simp only [exchange, bind, Except.bind, wrote, read, served, took]
  rfl

include peers in
theorem not_inStep_of_rejects {l : Link σ} (drained : l.Drained) (turn : Option Entry)
    (refuses : Rejects Input.pending (msgrecvClient fs c client l.nogood l.world)
      (answer server c.list turn)) :
    ¬InStep fs c client server turn l := by
  obtain ⟨asked, heard, wrote, _, read, _⟩ := request_heard peers drained
  obtain ⟨answered, served, _, arrived⟩ := answer_delivered c server drained turn
  obtain ⟨failure, failed⟩ := refuses (l.clientIn.deliver answered.sent) [] (by simp [arrived])
  rintro ⟨l', ran, _⟩
  simp only [exchange, bind, Except.bind, wrote, read, served, failed] at ran
  exact absurd ran nofun

include peers in
/-- One round is in step exactly when the client does not skip a block it was not sent. -/
theorem inStep_iff {l : Link σ} (drained : l.Drained) (turn : Option Entry) :
    InStep fs c client server turn l ↔ ¬SkipsTooMuch fs c turn l.world := by
  have back := peers.symm
  cases turn with
  | none =>
      refine ⟨fun _ => ?_, fun _ => ?_⟩
      · rintro ⟨t, same, _⟩
        exact absurd same nofun
      · exact inStep_of_consumes fs c peers drained none _ (msgrecvClient_end fs c back _ _)
  | some t =>
      obtain ⟨fits, name, denied | ⟨mode, flags, whole⟩⟩ := t.onWire_spec c.list
      · refine ⟨fun _ => ?_, fun _ => ?_⟩
        · rintro ⟨_, same, _, update, _⟩
          obtain rfl := Option.some.inj same
          exact absurd (denied.2.2.symm.trans update) nofun
        · refine inStep_of_consumes fs c peers drained (some t) (true, l.world) ?_
          rw [answer, if_pos denied.1]
          exact msgrecvClient_denied fs c back _ fits denied.1 _ _
      · have granted : (t.onWire c.list).1.mode ≠ 0 := mode ▸ t.mode_ne_zero
        have message : answer server c.list (some t) = headBytes server (t.onWire c.list).1 ++
            (bodyBytes server (t.onWire c.list).1 ++
              (blockBytes server (t.onWire c.list).2 ++ server.intBytes ENDCOUNT)) := by
          rw [answer, if_neg granted]
        constructor
        · rintro inStep ⟨_, same, regular, update, notList, obstructed⟩
          obtain rfl := Option.some.inj same
          have none_sent : (t.onWire c.list).2 = none := by
            refine Option.not_isSome_iff_eq_none.mp (fun sent => ?_)
            have kept := (whole.mp sent).2.2
            rw [flags, update] at kept
            exact absurd kept nofun
          refine not_inStep_of_rejects fs c peers drained (some t) ?_ inStep
          rw [message, none_sent]
          exact msgrecvClient_rejects fs c back _ fits granted _ _
            (recvone_rejects fs c back _ granted (mode ▸ regular) notList _ _ (name ▸ obstructed))
        · intro clear
          obtain ⟨result, stored⟩ := recvone_consumes fs c back (t.onWire c.list).1
            (t.onWire c.list).2 (mode ▸ t.typed) granted whole l.nogood l.world (by
              rintro ⟨regular, update, notList, obstructed⟩
              rw [mode] at regular
              rw [flags] at update
              rw [name] at obstructed
              exact clear ⟨t, rfl, regular, update, notList, obstructed⟩)
          refine inStep_of_consumes fs c peers drained (some t) result ?_
          rw [message]
          exact msgrecvClient_sent fs c back _ fits granted _ _ _ stored

/-- Round after round, the client takes exactly what the server wrote. -/
def StaysInStep (client server : Endpoint) : List (Option Entry) → Link σ → Prop
  | [], _ => True
  | turn :: rest, l =>
      ∃ l', exchange fs c client server turn l = .ok (turn.isSome, l') ∧ l'.Drained ∧
        StaysInStep client server rest l'

/-- In no round of the conversation does an entry that only updates information find the
path of its file obstructed. -/
def NeverSkips (client server : Endpoint) : List (Option Entry) → Link σ → Prop
  | [], _ => True
  | turn :: rest, l =>
      ¬SkipsTooMuch fs c turn l.world ∧
        ∀ l', exchange fs c client server turn l = .ok (turn.isSome, l') →
          NeverSkips client server rest l'

include peers in
theorem staysInStep_iff (turns : List (Option Entry)) {l : Link σ} (drained : l.Drained) :
    StaysInStep fs c client server turns l ↔ NeverSkips fs c client server turns l := by
  induction turns generalizing l with
  | nil => exact Iff.rfl
  | cons turn rest ih =>
      constructor
      · rintro ⟨l', ran, drained', later⟩
        refine ⟨(inStep_iff fs c peers drained turn).mp ⟨l', ran, drained'⟩, ?_⟩
        intro l'' ran'
        obtain rfl : l' = l'' := congrArg Prod.snd (Except.ok.inj (ran.symm.trans ran'))
        exact (ih drained').mp later
      · rintro ⟨clear, later⟩
        obtain ⟨l', ran, drained'⟩ := (inStep_iff fs c peers drained turn).mpr clear
        exact ⟨l', ran, drained', (ih drained').mpr (later l' ran)⟩

/-- The server writes one file block before the end marker exactly for a regular file that
is sent whole, and the client takes what was written in every round of the conversation if
and only if it never skips a block that was not sent. -/
theorem transfer_in_step_iff (crypt : List Byte → List Byte) (pword : Option (List Byte))
    (connected : Connected crypt pword client server) (lists : List (List Entry)) (l : Link σ)
    (drained : l.Drained) :
    (∀ t : Entry, ∃ described,
      Produces Output.Closed Output.Closed Output.emitted (serve server c.list (some t))
        (described ++ (blockBytes server (t.onWire c.list).2 ++ server.intBytes ENDCOUNT)) () ∧
      ((t.onWire c.list).2.isSome ↔ SendsFile c.list (t.onWire c.list).1)) ∧
    (StaysInStep fs c client server (sendfiles lists) l ↔
      NeverSkips fs c client server (sendfiles lists) l) := by
  refine ⟨fun t => ?_, staysInStep_iff fs c connected.peers _ drained⟩
  have written := serve_produces server c.list (some t)
  obtain ⟨_, _, denied | ⟨mode, _, whole⟩⟩ := t.onWire_spec c.list
  · refine ⟨headBytes server (t.onWire c.list).1, ?_, ?_⟩
    · rwa [answer, if_pos denied.1, ← List.nil_append (server.intBytes ENDCOUNT),
        show [] = blockBytes server (t.onWire c.list).2 by rw [denied.2.1]; rfl] at written
    · rw [denied.2.1]
      refine ⟨nofun, fun sends => ?_⟩
      have regular := sends.1
      rw [denied.1] at regular
      exact absurd regular (by decide)
  · have granted : (t.onWire c.list).1.mode ≠ 0 := mode ▸ t.mode_ne_zero
    refine ⟨headBytes server (t.onWire c.list).1 ++ bodyBytes server (t.onWire c.list).1, ?_, whole⟩
    rwa [answer, if_neg granted, ← List.append_assoc] at written

end Conversation

/-! ## A directory in the way of an update -/

/-- Two idle sides, every byte its own piece. -/
def Link.start {σ : Type} (world : σ) : Link σ :=
  ⟨Output.start, Input.start ⟨[], fun _ => 0⟩, Output.start, Input.start ⟨[], fun _ => 0⟩, false, world⟩

theorem Link.start_drained {σ : Type} (world : σ) : (Link.start world).Drained :=
  ⟨rfl, rfl, rfl, rfl, rfl, rfl⟩

/-- A machine on which a directory stands wherever one looks and nothing can be changed. -/
def stuckDirectory : FileSystem Unit where
  stat _ _ := some ⟨S_IFDIR ||| 0o755, 0, 0, 0, 0, 0⟩
  lstat _ _ := some ⟨S_IFDIR ||| 0o755, 0, 0, 0, 0, 0⟩
  mkdir _ _ := ()
  rmdir _ _ := (false, ())
  removeTree _ _ := ()
  unlink _ _ := ()
  readlink _ _ := none
  link _ _ _ := (false, ())
  symlink _ _ _ := (false, ())
  chown _ _ _ _ := ()
  chmod _ _ _ := ()
  utimes _ _ _ := ()
  getpwnam _ := none
  getgrnam _ := none
  defaultIds _ := (0, 0)
  readable _ _ := false
  creatBackup _ _ := (false, ())
  mkdirBackup _ _ := ()
  ffilecopy _ _ := ()
  creat _ _ _ := (false, ())
  store _ _ _ _ := ()
  rename _ _ _ := (false, ())
  reopen _ _ _ := false
  filecopy _ _ _ := (false, ())
  discard _ _ _ := ()
  system _ _ := (false, ())

/-- A regular file `a` of which only the information is to be updated. -/
def updateOnly : Entry where
  name := ⟨[97], noNul_a⟩
  mode := S_IFREG ||| 0o644
  flags := FUPDATE ||| FNEEDED
  mtime := 1
  link := []
  exec := []
  owner := ⟨[114], by decide⟩
  ownerGroup := ⟨[115], by decide⟩
  source := some ⟨[], by decide⟩
  typed := .inl (by decide)
  short := by decide

theorem updateOnly_skipsTooMuch :
    SkipsTooMuch stuckDirectory ⟨false, false, false⟩ (some updateOnly) () :=
  ⟨updateOnly, rfl, by decide, by decide, rfl, by decide, rfl⟩

/-- The characterisation at this entry. -/
theorem transfer_in_step_iff_updateOnly :
    (∀ t : Entry, ∃ described,
      Produces Output.Closed Output.Closed Output.emitted (serve ⟨.big, true, none⟩ false (some t))
        (described ++ (blockBytes ⟨.big, true, none⟩ (t.onWire false).2 ++
          Endpoint.intBytes ⟨.big, true, none⟩ ENDCOUNT)) () ∧
      ((t.onWire false).2.isSome ↔ SendsFile false (t.onWire false).1)) ∧
    (StaysInStep stuckDirectory ⟨false, false, false⟩ ⟨.little, false, none⟩ ⟨.big, true, none⟩
        (sendfiles [[updateOnly]]) (Link.start ()) ↔
      NeverSkips stuckDirectory ⟨false, false, false⟩ ⟨.little, false, none⟩ ⟨.big, true, none⟩
        (sendfiles [[updateOnly]]) (Link.start ())) :=
  transfer_in_step_iff stuckDirectory ⟨false, false, false⟩ id none
    (.toServer .little .big true rfl) [[updateOnly]] (Link.start ()) (Link.start_drained ())

/-- The path cannot be prepared, which should only mark the upgrade as no good; but the
client then reads the end marker as the count of a block and gives up. -/
theorem update_breaks_connection :
    (Link.start ()).Drained ∧
      ¬StaysInStep stuckDirectory ⟨false, false, false⟩ ⟨.little, false, none⟩ ⟨.little, false, none⟩
        (sendfiles [[updateOnly]]) (Link.start ()) := by
  refine ⟨Link.start_drained (), fun inStep => ?_⟩
  have peers : Peers ⟨.little, false, none⟩ ⟨.little, false, none⟩ := ⟨rfl, .inl ⟨rfl, rfl⟩⟩
  have turns : sendfiles [[updateOnly]] = [some updateOnly, none] := rfl
  rw [turns] at inStep
  exact ((staysInStep_iff _ _ peers _ (Link.start_drained ())).mp inStep).1
    updateOnly_skipsTooMuch

end MachFormal.Sup
