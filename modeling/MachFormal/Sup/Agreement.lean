import MachFormal.Sup.Messages

/-!
# The two branches of a message agree

Both branches of a message go through the same items in the same order, so one step of
the writer and one of the reader are put side by side and the pairs are chained.  A
tree arrives as its entries in order, and inserting them one after the other gives a
tree under which the same names stand for the same nodes.

`msgdone` refuses to run below version 6, on both sides, and `release` is carried from
version 6 on.
-/

namespace MachFormal.Sup

open Library Library.Wire

/-! ## Writers and readers side by side -/

/-- What `write` writes, `read` reads as `a`. -/
def Mirrors {α : Type} (before after : Output → Prop) (write : Send Unit) (read : Recv α) (a : α) :
    Prop :=
  ∃ bytes, Produces before after Output.emitted write bytes () ∧
    Consumes Input.pending read bytes a

section Mirrors

variable {α β : Type} {before between after : Output → Prop} {w r : Endpoint}

theorem Mirrors.bind {write : Send Unit} {more : Unit → Send Unit} {read : Recv α}
    {next : α → Recv β} {a : α} {b : β} (head : Mirrors before between write read a)
    (tail : Mirrors between after (more ()) (next a) b) :
    Mirrors before after (write >>= more) (read >>= next) b := by
  obtain ⟨first, wrote, took⟩ := head
  obtain ⟨second, wroteMore, tookMore⟩ := tail
  exact ⟨first ++ second, wrote.bind wroteMore, took.bind tookMore⟩

theorem Mirrors.pure (a : α) :
    Mirrors before before (Pure.pure () : Send Unit) (Pure.pure a : Recv α) a :=
  ⟨[], .pure (), .pure a⟩

variable (peers : Peers w r)
include peers

theorem msg_mirrors (msg : CInt) :
    Mirrors Output.Closed Output.Open (writemsg w msg) (readmsg r msg) () :=
  ⟨_, writemsg_produces w msg, readmsg_consumes peers msg⟩

theorem mend_mirrors : Mirrors Output.Open Output.Closed (writemend w) (readmend r) () :=
  ⟨_, writemend_produces w, readmend_consumes peers⟩

/-- The end of a message, and what the reader makes of it. -/
theorem mend_pure (a : α) :
    Mirrors Output.Open Output.Closed (writemend w) (readmend r >>= fun _ => Pure.pure a) a :=
  ⟨_, writemend_produces w, (readmend_consumes peers).map fun _ => a⟩

theorem int_mirrors (i : CInt) : Mirrors Output.Open Output.Open (writeint w i) (readint r) i :=
  ⟨_, writeint_produces w i, readint_consumes peers i⟩

theorem string_mirrors {p : Option CString} (fits : (Item.string p).Fits) :
    Mirrors Output.Open Output.Open (writestring w p) (readstring r) p :=
  ⟨_, writeitem_produces w fits, readstring_item peers fits⟩

end Mirrors

/-! ## Trees -/

section Trees

variable {α γ : Type} {w r : Endpoint}

/-- The entries of a tree, and the null string after them. -/
theorem visit_mirrors (peers : Peers w r) {f : CString → α → Send Unit}
    {body : CString → γ → Recv γ} {step : γ → CString × α → γ} {entries : List (CString × α)}
    (fits : ∀ e ∈ entries, (Item.string (some e.1)).Fits)
    (each : ∀ e ∈ entries, ∃ rest,
      Produces Output.Open Output.Open Output.emitted (f e.1 e.2)
        ((Item.string (some e.1)).bytes w ++ rest) () ∧
      ∀ tree, Consumes Input.pending (body e.1 tree) rest (step tree e)) :
    ∃ bytes, Produces Output.Open Output.Open Output.emitted (visit f entries) bytes () ∧
      entries.length ≤ bytes.length ∧
      ∀ fuel tree, entries.length < fuel →
        Consumes Input.pending (readentries r body fuel tree)
          (bytes ++ (Item.string none).bytes w) (entries.foldl step tree) := by
  induction entries with
  | nil =>
      refine ⟨[], .pure (), Nat.le_refl 0, fun fuel tree enough => ?_⟩
      obtain ⟨fuel, rfl⟩ := Nat.exists_eq_succ_of_ne_zero (Nat.ne_of_gt enough)
      have null : (Item.string none).Fits := trivial
      rw [List.nil_append, ← List.append_nil ((Item.string none).bytes w)]
      exact (readstring_item peers null).bind (.pure tree)
  | cons e entries ih =>
      obtain ⟨rest, wrote, took⟩ := each e List.mem_cons_self
      obtain ⟨bytes, wroteAll, long, tookAll⟩ :=
        ih (fun e' member => fits e' (List.mem_cons_of_mem e member))
          fun e' member => each e' (List.mem_cons_of_mem e member)
      refine ⟨((Item.string (some e.1)).bytes w ++ rest) ++ bytes, wrote.bind wroteAll, ?_,
        fun fuel tree enough => ?_⟩
      · have four : ((Item.string (some e.1)).bytes w).length ≥ 4 := by
          rw [Item.bytes, List.length_append, length_intBytes]
          omega
        rw [List.length_append, List.length_append, List.length_cons]
        omega
      · have positive : 0 < fuel := Nat.zero_lt_of_lt enough
        obtain ⟨fuel, rfl⟩ := Nat.exists_eq_succ_of_ne_zero (Nat.ne_of_gt positive)
        rw [List.append_assoc, List.append_assoc]
        refine (readstring_item peers (fits e List.mem_cons_self)).bind ?_
        exact (took tree).bind (tookAll fuel (step tree e) (Nat.lt_of_succ_lt_succ enough))

/-- A tree is written entry by entry and rebuilt step by step. -/
theorem tree_mirrors (peers : Peers w r) {f : CString → α → Send Unit}
    {body : CString → γ → Recv γ} (step : γ → CString × α → γ) {t : SearchTree CString α}
    (fits : ∀ p ∈ names t, (Item.string (some p)).Fits)
    (each : ∀ e ∈ t.toList, ∃ rest,
      Produces Output.Open Output.Open Output.emitted (f e.1 e.2)
        ((Item.string (some e.1)).bytes w ++ rest) () ∧
      ∀ tree, Consumes Input.pending (body e.1 tree) rest (step tree e)) (tree : γ)
    {after : Output → Prop} {β : Type} {more : Unit → Send Unit} {next : γ → Recv β} {b : β}
    (tail : Mirrors Output.Open after (more ()) (next (t.toList.foldl step tree)) b) :
    Mirrors Output.Open after (Tprocess t f >>= fun _ => writestring w none >>= more)
      (readtree r body tree >>= next) b := by
  have fits' : ∀ e ∈ t.toList, (Item.string (some e.1)).Fits :=
    fun e member => fits e.1 (List.mem_map_of_mem member)
  obtain ⟨bytes, wrote, long, took⟩ := visit_mirrors peers fits' each
  have null : (Item.string none).Fits := trivial
  obtain ⟨rest, wroteMore, tookMore⟩ := tail
  refine ⟨bytes ++ ((Item.string none).bytes w ++ rest),
    wrote.bind ((writeitem_produces w null).bind wroteMore), ?_⟩
  rw [← List.append_assoc]
  refine Consumes.bind (fun state others pending => ?_) tookMore
  refine took state.pending.length tree ?_ state others pending
  rw [pending, List.length_append, List.length_append]
  have four : ((Item.string none).bytes w).length = 4 := length_intBytes w NULLCOUNT
  omega

/-- What the refuse and deny lists carry of a node. -/
def Node.named (_ : Node) : Node := Tmake

/-- What the list of files carries. -/
def Node.listed (t : Node) : Node :=
  { Tmake with mode := t.mode, flags := t.flags, mtime := t.mtime }

/-- What the list of needed files carries. -/
def Node.needed (t : Node) : Node :=
  { Tmake with flags := if has t.flags FUPDATE then FUPDATE else 0 }

/-- The names fit a buffer and are inserted as they are. -/
def Sendable (t : SearchTree CString α) : Prop :=
  ∀ p ∈ names t, (Item.string (some p)).Fits ∧ Canonical p

variable (peers : Peers w r)
include peers

/-- Names that are inserted one after the other. -/
theorem inserts_mirrors [Inhabited γ] {t : SearchTree CString α}
    (fits : ∀ p ∈ names t, (Item.string (some p)).Fits) {after : Output → Prop} {β : Type}
    {more : Unit → Send Unit} {next : SearchTree CString γ → Recv β} {b : β}
    (tail : Mirrors Output.Open after (more ()) (next ((names t).foldl Tinsert .empty)) b) :
    Mirrors Output.Open after (Tprocess t (writeone w) >>= fun _ => writestring w none >>= more)
      (readtree r readone .empty >>= next) b := by
  rw [names, List.foldl_map] at tail
  refine tree_mirrors peers (fun u e => Tinsert u e.1) fits (fun e member => ?_) _ tail
  refine ⟨[], ?_, fun tree => .pure _⟩
  rw [List.append_nil]
  exact writeitem_produces w (fits e.1 (List.mem_map_of_mem member))

omit peers in
/-- Names that are inserted as they are. -/
theorem search_inserts [Inhabited γ] {t : SearchTree CString α} (sendable : Sendable t)
    (p : CString) : ((names t).foldl Tinsert (.empty : SearchTree CString γ)).search p =
      (t.search p).map fun _ => default := by
  rw [names, List.foldl_map]
  exact search_rebuild (g := fun _ => id) (fun u e q => search_Tinsert u e.1 q) t
    (fun p member => (sendable p member).2) p

/-- A tree of names only. -/
theorem names_mirrors [Inhabited γ] {t : SearchTree CString α} (sendable : Sendable t) :
    ∃ tree : SearchTree CString γ, (∀ p, tree.search p = (t.search p).map fun _ => default) ∧
      ∀ {after : Output → Prop} {β : Type} {more : Unit → Send Unit}
        {next : SearchTree CString γ → Recv β} {b : β},
        Mirrors Output.Open after (more ()) (next tree) b →
        Mirrors Output.Open after (Tprocess t (writeone w) >>= fun _ => writestring w none >>= more)
          (readtree r readone .empty >>= next) b :=
  ⟨_, search_inserts sendable, inserts_mirrors peers fun p member => (sendable p member).1⟩

theorem list_mirrors {t : NodeTree} (sendable : Sendable t) :
    ∃ tree : NodeTree, (∀ p, tree.search p = (t.search p).map Node.listed) ∧
      ∀ {after : Output → Prop} {β : Type} {more : Unit → Send Unit} {next : NodeTree → Recv β}
        {b : β}, Mirrors Output.Open after (more ()) (next tree) b →
        Mirrors Output.Open after (Tprocess t (listone w) >>= fun _ => writestring w none >>= more)
          (readtree r (readlist r) .empty >>= next) b := by
  let carry (t u : Node) : Node := { u with mode := t.mode, flags := t.flags, mtime := t.mtime }
  let step (u : NodeTree) (e : CString × Node) : NodeTree := Tfind u e.1 (carry e.2)
  refine ⟨t.toList.foldl step .empty, fun q => ?_, fun tail => ?_⟩
  · exact search_rebuild (g := carry) (fun u e q => search_Tfind u e.1 q _) t
      (fun p member => (sendable p member).2) q
  · refine tree_mirrors peers step (fun p member => (sendable p member).1) ?_ _ tail
    intro e member
    have fits := (sendable e.1 (List.mem_map_of_mem member)).1
    refine ⟨_, (writeitem_produces w fits).bind ((writeint_produces w e.2.mode).bind
      ((writeint_produces w e.2.flags).bind (writeint_produces w e.2.mtime))), fun tree => ?_⟩
    refine (readint_consumes peers e.2.mode).bind ?_
    refine (readint_consumes peers e.2.flags).bind ?_
    exact (readint_consumes peers e.2.mtime).map _

theorem need_mirrors {t : NodeTree} (sendable : Sendable t) :
    ∃ tree : NodeTree, (∀ p, tree.search p = (t.search p).map Node.needed) ∧
      ∀ {after : Output → Prop} {β : Type} {more : Unit → Send Unit} {next : NodeTree → Recv β}
        {b : β}, Mirrors Output.Open after (more ()) (next tree) b →
        Mirrors Output.Open after
          (Tprocess t (writeneed w) >>= fun _ => writestring w none >>= more)
          (readtree r (readneed r) .empty >>= next) b := by
  let carry (t u : Node) : Node :=
    if update t ≠ 0 then { u with flags := u.flags ||| FUPDATE } else u
  let step (u : NodeTree) (e : CString × Node) : NodeTree := Tfind u e.1 (carry e.2)
  have carried : ∀ t : Node, carry t default = t.needed := by
    intro t
    rw [Node.needed]
    by_cases updates : has t.flags FUPDATE = true
    · have one : update t ≠ 0 := by
        rw [update, if_pos updates]
        decide
      rw [if_pos updates]
      exact if_pos one
    · have zero : update t = 0 := if_neg updates
      rw [if_neg updates]
      exact if_neg (not_not.mpr zero)
  refine ⟨t.toList.foldl step .empty, fun q => ?_, fun tail => ?_⟩
  · have rebuilt := search_rebuild (g := carry) (fun u e q => search_Tfind u e.1 q (carry e.2)) t
      (fun p member => (sendable p member).2) q
    simpa only [carried] using rebuilt
  · refine tree_mirrors peers step (fun p member => (sendable p member).1) ?_ _ tail
    intro e member
    have fits := (sendable e.1 (List.mem_map_of_mem member)).1
    refine ⟨_, (writeitem_produces w fits).bind (writeint_produces w (update e.2)), fun tree => ?_⟩
    exact (readint_consumes peers (update e.2)).map _

theorem args_mirrors {args : List (Option CString)} (fits : ∀ p ∈ args, (Item.string p).Fits) :
    Mirrors Output.Open Output.Open (writeargs w args) (readargs r args.length) args := by
  induction args with
  | nil => exact .pure []
  | cons arg args ih =>
      have rest := ih fun p member => fits p (List.mem_cons_of_mem arg member)
      refine (string_mirrors peers (fits arg List.mem_cons_self)).bind ?_
      obtain ⟨bytes, wrote, took⟩ := rest
      exact ⟨bytes, wrote, took.map _⟩

omit peers in
theorem writeones_names (t : SearchTree CString α) :
    writeones w (names t) = Tprocess t (writeone w) := by
  rw [names, Tprocess]
  induction t.toList with
  | nil => rfl
  | cons e entries ih =>
      rw [List.map_cons, writeones, ih]
      rfl

end Trees

/-! ## The messages -/

/-- What one side writes, the other reads into its variables.  The trees of the reader are
empty before: each is set to null right before the call. -/
structure CodecsAgree (w r : Endpoint) : Prop where
  signon : ∀ v u : Variables, (Item.string v.scmversion).Fits →
    Mirrors Output.Closed Output.Closed (msgsignonClient w v) (msgsignonServer r u)
      { u with protver := PROTOVERSION, pgmver := v.pgmversion, scmver := v.scmversion }
  signonack : ∀ v u : Variables, (Item.string v.scmversion).Fits →
    Mirrors Output.Closed Output.Closed (msgsignonackServer w v) (msgsignonackClient r u)
      { u with
        protver := PROTOVERSION, pgmver := v.pgmversion, scmver := v.scmversion, fspid := v.fspid }
  /-- A crosspatch is set up with version 7 only. -/
  crosspatch : ∀ v u : Variables, u.protver = v.protver → v.xpatch ≠ 0 → 7 ≤ v.protver.toInt →
    (Item.string v.xuser).Fits →
    Mirrors Output.Closed Output.Closed (msgsetupClient w v) (msgsetupServer r u)
      { u with xpatch := v.xpatch, xuser := v.xuser }
  setup : ∀ v u : Variables, u.protver = v.protver → v.xpatch = 0 →
    (Item.string v.collname).Fits → (Item.string v.basedir).Fits → (Item.string v.release).Fits →
    Mirrors Output.Closed Output.Closed (msgsetupClient w v) (msgsetupServer r u)
      { u with
        xpatch := 0, collname := v.collname, lasttime := v.lasttime, basedir := v.basedir
        basedev := v.basedev, baseino := v.baseino, listonly := v.listonly, newonly := v.newonly
        release := if v.protver.toInt < 6 then none else v.release }
  login : ∀ v u : Variables, (Item.string v.logcrypt).Fits → (Item.string v.loguser).Fits →
    (Item.string v.logpswd).Fits →
    Mirrors Output.Closed Output.Closed (msgloginClient w v) (msgloginServer r u)
      { u with logcrypt := v.logcrypt, loguser := v.loguser, logpswd := v.logpswd }
  logack : ∀ v u : Variables, (Item.string v.logerror).Fits →
    Mirrors Output.Closed Output.Closed (msglogackServer w v) (msglogackClient r u)
      { u with logack := v.logack, logerror := v.logerror }
  refuse : ∀ v u : Variables, u.refuseT = .empty → Sendable v.refuseT →
    ∃ refuseT, Mirrors Output.Closed Output.Closed (msgrefuseClient w v) (msgrefuseServer r u)
      { u with refuseT } ∧ ∀ p, refuseT.search p = (v.refuseT.search p).map Node.named
  list : ∀ v u : Variables, u.listT = .empty → Sendable v.listT →
    ∃ listT, Mirrors Output.Closed Output.Closed (msglistServer w v) (msglistClient r u)
      { u with listT, scantime := v.scantime } ∧
      ∀ p, listT.search p = (v.listT.search p).map Node.listed
  need : ∀ v u : Variables, u.needT = .empty → Sendable v.needT →
    ∃ needT, Mirrors Output.Closed Output.Closed (msgneedClient w v) (msgneedServer r u)
      { u with needT } ∧ ∀ p, needT.search p = (v.needT.search p).map Node.needed
  deny : ∀ v u : Variables, u.denyT = .empty → Sendable v.denyT →
    ∃ denyT, Mirrors Output.Closed Output.Closed (msgdenyServer w v) (msgdenyClient r u)
      { u with denyT } ∧ ∀ p, denyT.search p = (v.denyT.search p).map Node.named
  /-- The end of the files. -/
  recvEnd : ∀ (listonly : Bool) (t : Node) (β : Type) (xferfile : Option (CString × Node) → Recv β)
    (b : β), Consumes Input.pending (xferfile none) [] b →
    Mirrors Output.Closed Output.Closed (msgrecvServer w listonly none) (msgrecvWith r xferfile t) b
  /-- A file that could not be opened. -/
  recvDenied : ∀ (listonly : Bool) (name : CString) (sent : Node) (fd : Option OpenFile) (t : Node)
    (β : Type) (xferfile : Option (CString × Node) → Recv β) (b : β),
    (Item.string (some name)).Fits → sent.mode = 0 →
    Consumes Input.pending (xferfile (some (name, { t with mode := sent.mode }))) [] b →
    Mirrors Output.Closed Output.Closed
      (msgrecvServer w listonly (some (sent.tree name, fd))) (msgrecvWith r xferfile t) b
  recv : ∀ (listonly : Bool) (name : CString) (sent : Node) (fd : Option OpenFile) (t : Node),
    (Item.string (some name)).Fits → (Item.string sent.user).Fits →
    (Item.string sent.group).Fits → Sendable sent.link → Sendable sent.exec → sent.mode ≠ 0 →
    (fd.isSome ↔ SendsFile listonly (sent.tree name)) →
    ∃ link exec, (∀ p, link.search p = sent.link.search p) ∧
      (∀ p, exec.search p = sent.exec.search p) ∧
      ∀ (β : Type) (xferfile : Option (CString × Node) → Recv β) (b : β),
        Consumes Input.pending
          (xferfile (some (name, { t with
            mode := sent.mode, flags := sent.flags, user := sent.user, group := sent.group
            mtime := sent.mtime, link, exec }))) (blockBytes w fd) b →
        Mirrors Output.Closed Output.Closed
          (msgrecvServer w listonly (some (sent.tree name, fd))) (msgrecvWith r xferfile t) b
  done : ∀ v u : Variables, u.protver = v.protver → 6 ≤ v.protver.toInt →
    (Item.string v.donereason).Fits →
    Mirrors Output.Closed Output.Closed (msgdoneClient w v) (msgdoneServer r u)
      { u with doneack := v.doneack, donereason := v.donereason }
  xpatch : ∀ v u : Variables, (∀ p ∈ v.xargv, (Item.string p).Fits) →
    v.xargv.length + 2 < 2 ^ 31 →
    Mirrors Output.Closed Output.Closed (msgxpatchClient w v) (msgxpatchServer r u)
      { u with xargv := none :: none :: v.xargv }

section Messages

variable {w r : Endpoint} (peers : Peers w r)
include peers

theorem signon_agrees (v u : Variables) (version : (Item.string v.scmversion).Fits) :
    Mirrors Output.Closed Output.Closed (msgsignonClient w v) (msgsignonServer r u)
      { u with protver := PROTOVERSION, pgmver := v.pgmversion, scmver := v.scmversion } := by
  refine (msg_mirrors peers MSGSIGNON).bind ?_
  refine (int_mirrors peers PROTOVERSION).bind ?_
  refine (int_mirrors peers v.pgmversion).bind ?_
  exact (string_mirrors peers version).bind (mend_pure peers _)

theorem signonack_agrees (v u : Variables) (version : (Item.string v.scmversion).Fits) :
    Mirrors Output.Closed Output.Closed (msgsignonackServer w v) (msgsignonackClient r u)
      { u with
        protver := PROTOVERSION, pgmver := v.pgmversion, scmver := v.scmversion
        fspid := v.fspid } := by
  refine (msg_mirrors peers MSGSIGNONACK).bind ?_
  refine (int_mirrors peers PROTOVERSION).bind ?_
  refine (int_mirrors peers v.pgmversion).bind ?_
  refine (string_mirrors peers version).bind ?_
  exact (int_mirrors peers v.fspid).bind (mend_pure peers _)

theorem crosspatch_agrees (v u : Variables) (same : u.protver = v.protver) (cross : v.xpatch ≠ 0)
    (version : 7 ≤ v.protver.toInt) (user : (Item.string v.xuser).Fits) :
    Mirrors Output.Closed Output.Closed (msgsetupClient w v) (msgsetupServer r u)
      { u with xpatch := v.xpatch, xuser := v.xuser } := by
  have first : Mirrors Output.Open Output.Open (writexpatch w v) (readxpatch r u) v.xpatch := by
    rw [writexpatch, readxpatch, same, if_pos version, if_pos version]
    exact int_mirrors peers v.xpatch
  refine (msg_mirrors peers MSGSETUP).bind (first.bind ?_)
  rw [if_pos cross, if_pos cross]
  exact (string_mirrors peers user).bind (mend_pure peers _)

theorem setup_agrees (v u : Variables) (same : u.protver = v.protver) (plain : v.xpatch = 0)
    (collname : (Item.string v.collname).Fits) (basedir : (Item.string v.basedir).Fits)
    (release : (Item.string v.release).Fits) :
    Mirrors Output.Closed Output.Closed (msgsetupClient w v) (msgsetupServer r u)
      { u with
        xpatch := 0, collname := v.collname, lasttime := v.lasttime, basedir := v.basedir
        basedev := v.basedev, baseino := v.baseino, listonly := v.listonly, newonly := v.newonly
        release := if v.protver.toInt < 6 then none else v.release } := by
  have first : Mirrors Output.Open Output.Open (writexpatch w v) (readxpatch r u) 0 := by
    rw [writexpatch, readxpatch, same]
    split
    · exact plain ▸ int_mirrors peers v.xpatch
    · exact .pure 0
  have last : Mirrors Output.Open Output.Open (writerelease w v) (readrelease r u)
      (if v.protver.toInt < 6 then none else v.release) := by
    rw [writerelease, readrelease, same]
    by_cases old : v.protver.toInt < 6
    · rw [if_neg (Int.not_le.mpr old), if_pos old, if_pos old]
      exact .pure none
    · rw [if_pos (Int.not_lt.mp old), if_neg old, if_neg old]
      exact string_mirrors peers release
  refine (msg_mirrors peers MSGSETUP).bind (first.bind ?_)
  rw [if_neg (not_not.mpr plain), if_neg (not_not.mpr rfl)]
  refine (string_mirrors peers collname).bind ?_
  refine (int_mirrors peers v.lasttime).bind ?_
  refine (string_mirrors peers basedir).bind ?_
  refine (int_mirrors peers v.basedev).bind ?_
  refine (int_mirrors peers v.baseino).bind ?_
  refine (int_mirrors peers v.listonly).bind ?_
  refine (int_mirrors peers v.newonly).bind ?_
  exact last.bind (mend_pure peers _)

theorem recvEnd_agrees (listonly : Bool) (t : Node) {β : Type}
    (xferfile : Option (CString × Node) → Recv β) (b : β)
    (takes : Consumes Input.pending (xferfile none) [] b) :
    Mirrors Output.Closed Output.Closed (msgrecvServer w listonly none)
      (msgrecvWith r xferfile t) b := by
  have null : (Item.string none).Fits := trivial
  refine (msg_mirrors peers MSGRECV).bind ((string_mirrors peers null).bind ?_)
  obtain ⟨bytes, wrote, took⟩ := mend_mirrors peers
  refine ⟨bytes, wrote, ?_⟩
  rw [← List.append_nil bytes]
  exact took.bind takes

theorem recvDenied_agrees (listonly : Bool) {name : CString} {sent : Node} (fd : Option OpenFile)
    (t : Node) {β : Type} (xferfile : Option (CString × Node) → Recv β) (b : β)
    (fits : (Item.string (some name)).Fits) (denied : sent.mode = 0)
    (takes : Consumes Input.pending (xferfile (some (name, { t with mode := sent.mode }))) [] b) :
    Mirrors Output.Closed Output.Closed
      (msgrecvServer w listonly (some (sent.tree name, fd))) (msgrecvWith r xferfile t) b := by
  refine (msg_mirrors peers MSGRECV).bind ((string_mirrors peers fits).bind ?_)
  refine (int_mirrors peers sent.mode).bind ?_
  rw [if_pos denied, if_pos (show (sent.tree name).mode = 0 from denied)]
  obtain ⟨bytes, wrote, took⟩ := mend_mirrors peers
  refine ⟨bytes, wrote, ?_⟩
  rw [← List.append_nil bytes]
  exact took.bind takes

/-- A file arrives with its links and commands inserted once more. -/
theorem recv_mirrors (listonly : Bool) {name : CString} {sent : Node} (fd : Option OpenFile)
    (t : Node) (fits : (Item.string (some name)).Fits) (user : (Item.string sent.user).Fits)
    (group : (Item.string sent.group).Fits)
    (links : ∀ p ∈ names sent.link, (Item.string (some p)).Fits)
    (execs : ∀ p ∈ names sent.exec, (Item.string (some p)).Fits) (granted : sent.mode ≠ 0)
    (whole : fd.isSome ↔ SendsFile listonly (sent.tree name)) {β : Type}
    {xferfile : Option (CString × Node) → Recv β} {b : β}
    (takes : Consumes Input.pending
      (xferfile (some (name, { t with
        mode := sent.mode, flags := sent.flags, user := sent.user, group := sent.group
        mtime := sent.mtime, link := (names sent.link).foldl Tinsert .empty
        exec := (names sent.exec).foldl Tinsert .empty }))) (blockBytes w fd) b) :
    Mirrors Output.Closed Output.Closed
      (msgrecvServer w listonly (some (sent.tree name, fd))) (msgrecvWith r xferfile t) b := by
  refine (msg_mirrors peers MSGRECV).bind ((string_mirrors peers fits).bind ?_)
  refine (int_mirrors peers sent.mode).bind ?_
  rw [if_neg granted, if_neg (show (sent.tree name).mode ≠ 0 from granted)]
  refine (int_mirrors peers sent.flags).bind ?_
  refine (string_mirrors peers user).bind ?_
  refine (string_mirrors peers group).bind ?_
  refine (int_mirrors peers sent.mtime).bind ?_
  rw [show (sent.tree name).link = names sent.link from rfl, writeones_names,
    show (sent.tree name).exec = names sent.exec from rfl, writeones_names]
  refine inserts_mirrors peers links (inserts_mirrors peers execs ?_)
  have block : Mirrors Output.Open Output.Open (sendfile w listonly (sent.tree name) fd) _ b :=
    ⟨blockBytes w fd, sendfile_produces w listonly whole, takes⟩
  exact block.bind (mend_pure peers b)

theorem recv_agrees (listonly : Bool) {name : CString} {sent : Node} (fd : Option OpenFile)
    (t : Node) (fits : (Item.string (some name)).Fits) (user : (Item.string sent.user).Fits)
    (group : (Item.string sent.group).Fits) (links : Sendable sent.link)
    (execs : Sendable sent.exec) (granted : sent.mode ≠ 0)
    (whole : fd.isSome ↔ SendsFile listonly (sent.tree name)) :
    ∃ link exec, (∀ p, link.search p = sent.link.search p) ∧
      (∀ p, exec.search p = sent.exec.search p) ∧
      ∀ (β : Type) (xferfile : Option (CString × Node) → Recv β) (b : β),
        Consumes Input.pending
          (xferfile (some (name, { t with
            mode := sent.mode, flags := sent.flags, user := sent.user, group := sent.group
            mtime := sent.mtime, link, exec }))) (blockBytes w fd) b →
        Mirrors Output.Closed Output.Closed
          (msgrecvServer w listonly (some (sent.tree name, fd))) (msgrecvWith r xferfile t) b := by
  have units : ∀ o : Option Unit, o.map (fun _ => default) = o := by
    intro o
    cases o <;> rfl
  exact ⟨_, _, fun p => (search_inserts links p).trans (units _),
    fun p => (search_inserts execs p).trans (units _), fun β xferfile b takes =>
      recv_mirrors peers listonly fd t fits user group (fun p member => (links p member).1)
        (fun p member => (execs p member).1) granted whole takes⟩

theorem done_agrees (v u : Variables) (same : u.protver = v.protver) (version : 6 ≤ v.protver.toInt)
    (reason : (Item.string v.donereason).Fits) :
    Mirrors Output.Closed Output.Closed (msgdoneClient w v) (msgdoneServer r u)
      { u with doneack := v.doneack, donereason := v.donereason } := by
  rw [msgdoneClient, msgdoneServer, same, if_neg (Int.not_lt.mpr version),
    if_neg (Int.not_lt.mpr version)]
  refine (msg_mirrors peers MSGDONE).bind ((int_mirrors peers v.doneack).bind ?_)
  exact (string_mirrors peers reason).bind (mend_pure peers _)

theorem xpatch_agrees (v u : Variables) (fits : ∀ p ∈ v.xargv, (Item.string p).Fits)
    (few : v.xargv.length + 2 < 2 ^ 31) :
    Mirrors Output.Closed Output.Closed (msgxpatchClient w v) (msgxpatchServer r u)
      { u with xargv := none :: none :: v.xargv } := by
  have count : ((BitVec.ofNat 32 v.xargv.length + 2).toInt - 2).toNat = v.xargv.length := by
    have sum : (BitVec.ofNat 32 v.xargv.length + 2 : CInt) = BitVec.ofNat 32 (v.xargv.length + 2) :=
      (BitVec.ofNat_add _ _).symm
    rw [sum, toInt_ofNat_count few]
    omega
  refine (msg_mirrors peers MSGXPATCH).bind ((int_mirrors peers _).bind ?_)
  rw [count]
  exact (args_mirrors peers fits).bind (mend_pure peers _)

end Messages

/-- Over every connection, either way round, the two branches of every message agree. -/
theorem codecs_agree (crypt : List Byte → List Byte) (pword : Option (List Byte)) (w r : Endpoint)
    (connected : Connected crypt pword w r) : CodecsAgree w r := by
  have peers : Peers w r := connected.peers
  constructor
  case signon => exact fun v u version => signon_agrees peers v u version
  case signonack => exact fun v u version => signonack_agrees peers v u version
  case crosspatch => exact fun v u same cross version user =>
    crosspatch_agrees peers v u same cross version user
  case setup => exact fun v u same plain collname basedir release =>
    setup_agrees peers v u same plain collname basedir release
  case login =>
    intro v u crypted user password
    refine (msg_mirrors peers MSGLOGIN).bind ((string_mirrors peers crypted).bind ?_)
    refine (string_mirrors peers user).bind ((string_mirrors peers password).bind ?_)
    exact mend_pure peers _
  case logack =>
    intro v u error
    refine (msg_mirrors peers MSGLOGACK).bind ((int_mirrors peers v.logack).bind ?_)
    exact (string_mirrors peers error).bind (mend_pure peers _)
  case refuse =>
    intro v u empty sendable
    obtain ⟨refuseT, same, mirrors⟩ := names_mirrors (γ := Node) peers sendable
    refine ⟨refuseT, (msg_mirrors peers MSGREFUSE).bind ?_, same⟩
    rw [empty]
    exact mirrors (mend_pure peers _)
  case list =>
    intro v u empty sendable
    obtain ⟨listT, same, mirrors⟩ := list_mirrors peers sendable
    refine ⟨listT, (msg_mirrors peers MSGLIST).bind ?_, same⟩
    rw [empty]
    exact mirrors ((int_mirrors peers v.scantime).bind (mend_pure peers _))
  case need =>
    intro v u empty sendable
    obtain ⟨needT, same, mirrors⟩ := need_mirrors peers sendable
    refine ⟨needT, (msg_mirrors peers MSGNEED).bind ?_, same⟩
    rw [empty]
    exact mirrors (mend_pure peers _)
  case deny =>
    intro v u empty sendable
    obtain ⟨denyT, same, mirrors⟩ := names_mirrors (γ := Node) peers sendable
    refine ⟨denyT, (msg_mirrors peers MSGDENY).bind ?_, same⟩
    rw [empty]
    exact mirrors (mend_pure peers _)
  case recvEnd => exact fun listonly t β xferfile b takes =>
    recvEnd_agrees peers listonly t xferfile b takes
  case recvDenied => exact fun listonly name sent fd t β xferfile b fits denied takes =>
    recvDenied_agrees peers listonly fd t xferfile b fits denied takes
  case recv => exact fun listonly name sent fd t fits user group links execs granted whole =>
    recv_agrees peers listonly fd t fits user group links execs granted whole
  case done => exact fun v u same version reason => done_agrees peers v u same version reason
  case xpatch => exact fun v u fits few => xpatch_agrees peers v u fits few

/-- A little-endian client that writes to a big-endian server. -/
theorem codecs_agree_swapped : CodecsAgree ⟨.little, false, none⟩ ⟨.big, true, none⟩ :=
  codecs_agree id none _ _ (.toServer .little .big true rfl)

/-- A side that talks to a partner of version 5, with a release. -/
def version5 : Variables where
  protver := 5
  pgmver := 0
  pgmversion := 0
  scmver := none
  scmversion := none
  fspid := 0
  xpatch := 0
  xuser := none
  collname := none
  basedir := none
  basedev := 0
  baseino := 0
  lasttime := 0
  listonly := 0
  newonly := 0
  release := some ⟨[97], noNul_a⟩
  logcrypt := none
  loguser := none
  logpswd := none
  logack := 0
  logerror := none
  refuseT := .empty
  listT := .empty
  needT := .empty
  denyT := .empty
  scantime := 0
  doneack := 0
  donereason := none
  xargv := []

/-- With version 5 neither branch of `msgdone` runs, and the release is lost. -/
theorem version5_disagrees :
    (∀ out, msgdoneClient ⟨.little, false, none⟩ version5 out =
      .error (.scmerr "Error, msgdone should not have been called.")) ∧
    (∀ input, msgdoneServer ⟨.little, false, none⟩ version5 input =
      .error (.scmerr "Error, msgdone should not have been called.")) ∧
    ∃ out u input, msgsetupClient ⟨.little, false, none⟩ version5 Output.start = .ok ((), out) ∧
      msgsetupServer ⟨.little, false, none⟩ version5 (Input.start ⟨out.sent, fun _ => 0⟩) =
        .ok (u, input) ∧ u.release ≠ version5.release := by
  refine ⟨fun _ => rfl, fun _ => rfl, ?_⟩
  have peers : Peers ⟨.little, false, none⟩ ⟨.little, false, none⟩ := ⟨rfl, Or.inl ⟨rfl, rfl⟩⟩
  have short : (Item.string version5.release).Fits := (by decide : [(97 : Byte)].length ≤ FILEXFER)
  obtain ⟨bytes, wrote, took⟩ :=
    setup_agrees peers version5 version5 rfl rfl trivial trivial short
  obtain ⟨out, ran, closed, sent⟩ := wrote Output.start rfl
  have all : out.sent = bytes := by
    simpa only [Output.emitted, show out.bufptr = none from closed, Output.start,
      List.nil_append] using sent
  obtain ⟨input, read, _⟩ := took (Input.start ⟨out.sent, fun _ => 0⟩) []
    (by simp [Input.pending, Input.start, all])
  refine ⟨out, _, input, ran, read, fun same => ?_⟩
  cases same

end MachFormal.Sup
