import Mathlib.Data.Nat.Init
import Mathlib.Logic.Function.Basic
import Mathlib.Order.Lattice
import Mathlib.Algebra.Group.Nat.Defs
import Mathlib.Order.Basic

/-!
# Reading and writing the blocks of an inode

`inode_read` and `inode_write` move a page between memory and a file.  They cut
the page into blocks of the file system, find the disk block with `BMAP` and go
through the buffer cache.  `BMAP`, `blksize` and the buffer cache are parameters
of the model; `Faithful` says what the routines rely on.  Offsets and file sizes
are words of 32 bits that wrap.
-/

/-!
## Intervals cut into blocks

A sequence of positions is stored in blocks of `b` positions each.  A loop that
works on `c` positions from `o` on takes one piece at a time: what is left of
the block of `o`, and no more than `c`.
-/

namespace MachFormal.Library.Blocks

variable {b o c i : Nat}

/-- The first piece of the interval of `c` positions from `o` on. -/
def piece (b o c : Nat) : Nat :=
  min (b - o % b) c

theorem piece_le (b o c : Nat) : piece b o c ≤ c :=
  Nat.min_le_right _ _

theorem piece_pos (hb : 0 < b) (hc : 0 < c) : 0 < piece b o c := by
  have hmod := Nat.mod_lt o hb
  unfold piece
  omega

theorem mod_add_piece_le (hb : 0 < b) : o % b + piece b o c ≤ b := by
  have hmod := Nat.mod_lt o hb
  unfold piece
  omega

/-- The piece is inside the block of its first position. -/
theorem div_of_lt_piece (hb : 0 < b) (hi : i < piece b o c) : (o + i) / b = o / b := by
  have hinside := mod_add_piece_le (o := o) (c := c) hb
  have hsplit : o + i = o % b + i + b * (o / b) := by
    have hdiv := Nat.mod_add_div o b
    omega
  rw [hsplit, Nat.add_mul_div_left _ _ hb, Nat.div_eq_of_lt (by omega), Nat.zero_add]

theorem mod_of_lt_piece (hb : 0 < b) (hi : i < piece b o c) : (o + i) % b = o % b + i := by
  have hinside := mod_add_piece_le (o := o) (c := c) hb
  have hsplit : o + i = o % b + i + b * (o / b) := by
    have hdiv := Nat.mod_add_div o b
    omega
  rw [hsplit, Nat.add_mul_mod_self_left, Nat.mod_eq_of_lt (by omega)]

/-- Work on an interval piece by piece. -/
theorem piece_induction (hb : 0 < b) {P : Nat → Nat → Prop} (empty : ∀ o, P o 0)
    (cut : ∀ o c, 0 < c → P (o + piece b o c) (c - piece b o c) → P o c) (o c : Nat) : P o c := by
  induction c using Nat.strongRecOn generalizing o with
  | ind c ih =>
      rcases Nat.eq_zero_or_pos c with rfl | hc
      · exact empty o
      · have hpos := piece_pos (o := o) hb hc
        exact cut o c hc (ih _ (by omega) _)

end MachFormal.Library.Blocks

namespace MachFormal.InodePager.InodeIO

open MachFormal.Library

abbrev Word := BitVec 32

/-- The disk blocks of one file: their numbers, and what the buffer cache shows of them.  A
missing block is a negative block number. -/
structure Volume where
  bmap : List (Option Nat)
  block : Nat → Nat → UInt8

/-- The disk block of a logical block. -/
def Volume.find (v : Volume) (lbn : Nat) : Option Nat :=
  v.bmap[lbn]?.join

structure Inode where
  iSize : Word
  volume : Volume

/-- The file system and the buffer cache. -/
structure FileSystem where
  bshift : Nat
  bshift_le : bshift ≤ 30
  /-- `BMAP` for writing: the disk block and the volume with it; `none` is an error. -/
  bmapWrite : Volume → Nat → Nat → Option (Nat × Volume)
  /-- `BMAP` for reading sets `u.u_error`. -/
  bmapError : Volume → Nat → Nat → Bool
  blksize : Word → Nat → Nat
  /-- What a buffer holds that was not read from the disk. -/
  getblk : Nat → Nat → UInt8
  /-- `b_resid` of the buffer of a block, and its flag `B_ERROR`. -/
  bResid : Nat → Nat
  bError : Nat → Bool

inductive Errno where
  | einval
  | eio
  deriving DecidableEq, Repr

def FileSystem.bsize (fs : FileSystem) : Nat := 2 ^ fs.bshift

def FileSystem.lblkno (fs : FileSystem) (loc : Word) : Nat := loc.toNat / fs.bsize

def FileSystem.blkoff (fs : FileSystem) (loc : Word) : Nat := loc.toNat % fs.bsize

/-- `bcopy` of `n` bytes to position `on` of a buffer. -/
def blit (buffer : Nat → UInt8) (on n : Nat) (bytes : Nat → UInt8) : Nat → UInt8 :=
  fun i => if on ≤ i ∧ i < on + n then bytes (i - on) else buffer i

def Volume.store (v : Volume) (bn : Nat) (bytes : Nat → UInt8) : Volume :=
  { v with block := Function.update v.block bn bytes }

@[simp] theorem Volume.find_store (v : Volume) (bn : Nat) (bytes : Nat → UInt8) (lbn : Nat) :
    (v.store bn bytes).find lbn = v.find lbn := rfl

@[simp] theorem Volume.block_store (v : Volume) (bn : Nat) (bytes : Nat → UInt8) :
    (v.store bn bytes).block = Function.update v.block bn bytes := rfl

/-! ## `inode_write` -/

/-- One turn of the loop of `inode_write`: the number of bytes copied to the buffer of the
block, or `none` for an error. -/
def writeBlock (fs : FileSystem) (addr : Nat → UInt8) (ip : Inode) (csize pOffset : Nat)
    (fOffset : Word) : Option Nat × Inode :=
  let lbn := fs.lblkno fOffset
  let on := fs.blkoff fOffset
  let n := min (fs.bsize - on) csize
  match fs.bmapWrite ip.volume lbn (on + n) with
  | none => (none, ip)
  | some (bn, volume) =>
      let reached := fOffset + BitVec.ofNat 32 n
      let iSize := if reached > ip.iSize then reached else ip.iSize
      let buffer := if n = fs.bsize then fs.getblk bn else volume.block bn
      let copied := min n (fs.blksize iSize lbn - fs.bResid bn)
      if fs.bError bn then (none, ⟨iSize, volume⟩)
      else
        (some copied, ⟨iSize, volume.store bn
          (blit buffer on copied (fun i => addr (pOffset + i)))⟩)

/-- What `inode_write` returns and leaves behind; `pOffset` counts the bytes it took from
memory. -/
structure Written where
  error : Option Errno
  inode : Inode
  pOffset : Nat

/-- The loop of `inode_write`. -/
def writeLoop (fs : FileSystem) (addr : Nat → UInt8) (ip : Inode) (csize pOffset : Nat)
    (fOffset : Word) : Written :=
  match writeBlock fs addr ip csize pOffset fOffset with
  | (none, ip') => ⟨some .eio, ip', pOffset⟩
  | (some n, ip') =>
      if csize - n ≠ 0 ∧ n ≠ 0 then
        writeLoop fs addr ip' (csize - n) (pOffset + n) (fOffset + BitVec.ofNat 32 n)
      else ⟨none, ip', pOffset + n⟩
termination_by csize
decreasing_by omega

/-- `inode_write`: `csize` bytes of the memory at `addr` go to the file. -/
def inodeWrite (fs : FileSystem) (ip : Inode) (addr : Nat → UInt8) (csize fOffset : Word) :
    Written :=
  writeLoop fs addr ip csize.toNat 0 fOffset

/-! ## `inode_read` -/

/-- One turn of the loop of `inode_read`. -/
inductive ReadTurn where
  | failed (error : Errno)
  | endOfFile
  | copied (n : Nat) (buffer : Nat → UInt8)

def readBlock (fs : FileSystem) (ip : Inode) (buffer : Nat → UInt8) (csize pOffset : Nat)
    (fOffset : Word) : ReadTurn :=
  let lbn := fs.lblkno fOffset
  let on := fs.blkoff fOffset
  let diff := ip.iSize - fOffset
  if ip.iSize ≤ fOffset then if pOffset = 0 then .failed .einval else .endOfFile
  else
    let n := min (min (fs.bsize - on) csize) diff.toNat
    if fs.bmapError ip.volume lbn (on + n) then .failed .eio
    else
      match ip.volume.find lbn with
      | none => .failed .einval
      | some bn =>
          if fs.bError bn then .failed .eio
          else
            let copied := min n (fs.blksize ip.iSize lbn - fs.bResid bn)
            .copied copied (blit buffer pOffset copied (fun i => ip.volume.block bn (on + i)))

/-- The loop of `inode_read`: the error it returns, and the buffer. -/
def readLoop (fs : FileSystem) (ip : Inode) (buffer : Nat → UInt8) (csize pOffset : Nat)
    (fOffset : Word) : Option Errno × (Nat → UInt8) :=
  match readBlock fs ip buffer csize pOffset fOffset with
  | .failed error => (some error, buffer)
  | .endOfFile => (none, buffer)
  | .copied n buffer' =>
      if 0 < csize - n ∧ n ≠ 0 then
        readLoop fs ip buffer' (csize - n) (pOffset + n) (fOffset + BitVec.ofNat 32 n)
      else (none, buffer')
termination_by csize
decreasing_by omega

/-- `inode_read` of one page; a page that reaches beyond the end of the file is cleared
first. -/
def inodeRead (fs : FileSystem) (pageSize : Nat) (ip : Inode) (buffer : Nat → UInt8)
    (fOffset : Word) : Option Errno × (Nat → UInt8) :=
  readLoop fs ip
    (if ip.iSize < fOffset + BitVec.ofNat 32 pageSize then blit buffer 0 pageSize (fun _ => 0)
      else buffer) pageSize 0 fOffset

/-- The decision of `inode_has_page`: only the first block of the page is looked for. -/
def hasPage (fs : FileSystem) (pageSize : Nat) (ip : Inode) (fOffset : Word) : Bool :=
  let lbn := fs.lblkno fOffset
  let on := fs.blkoff fOffset
  let diff := ip.iSize - fOffset
  if ip.iSize ≤ fOffset then false
  else
    let n := min (min (fs.bsize - on) pageSize) diff.toNat
    if fs.bmapError ip.volume lbn (on + n) then true else (ip.volume.find lbn).isSome

/-! ## What the file holds -/

/-- Different logical blocks are on different disk blocks. -/
def Volume.Distinct (v : Volume) : Prop :=
  ∀ l l' bn, v.find l = some bn → v.find l' = some bn → l = l'

/-- The byte of the file at a position; `none` where there is no block. -/
def Inode.byteAt (fs : FileSystem) (ip : Inode) (pos : Nat) : Option UInt8 :=
  (ip.volume.find (pos / fs.bsize)).map (fun bn => ip.volume.block bn (pos % fs.bsize))

/-- What `BMAP` assigns to a logical block: it keeps the other blocks and what the file
holds. -/
structure Assigned (v : Volume) (lbn bn : Nat) (v' : Volume) : Prop where
  distinct : v'.Distinct
  there : v'.find lbn = some bn
  others : ∀ l, l ≠ lbn → v'.find l = v.find l
  kept : ∀ l b, v.find l = some b → ∃ b', v'.find l = some b' ∧ v'.block b' = v.block b

/-- There is room on the disk, no error occurs, buffers are read and written whole, and
`blksize` covers the bytes of the block below the end of the file. -/
structure Faithful (fs : FileSystem) : Prop where
  assigns : ∀ v lbn size, v.Distinct →
    ∃ bn v', fs.bmapWrite v lbn size = some (bn, v') ∧ Assigned v lbn bn v'
  found : ∀ v lbn size, fs.bmapError v lbn size = false
  covers : ∀ iSize lbn, min fs.bsize (iSize.toNat - lbn * fs.bsize) ≤ fs.blksize iSize lbn
  whole : ∀ bn, fs.bResid bn = 0
  good : ∀ bn, fs.bError bn = false

/-- The file after `c` bytes were stored at position `o`. -/
structure Stored (fs : FileSystem) (ip : Inode) (o c : Nat) (data : Nat → UInt8) (ip' : Inode) :
    Prop where
  distinct : ip'.volume.Distinct
  size : ip'.iSize.toNat = max ip.iSize.toNat (o + c)
  inside : ∀ i < c, ip'.byteAt fs (o + i) = some (data i)
  outside : ∀ pos byte, pos < o ∨ o + c ≤ pos → ip.byteAt fs pos = some byte →
    ip'.byteAt fs pos = some byte
  blocks : ∀ l, l ≠ o / fs.bsize → (∀ i < c, (o + i) / fs.bsize ≠ l) →
    ip'.volume.find l = ip.volume.find l

section Writing

variable {fs : FileSystem} {ip ip' ip'' : Inode} {o c n : Nat} {data : Nat → UInt8}

theorem FileSystem.bsize_pos (fs : FileSystem) : 0 < fs.bsize :=
  Nat.two_pow_pos fs.bshift

theorem Stored.trans (first : Stored fs ip o n data ip')
    (second : Stored fs ip' (o + n) (c - n) (fun i => data (n + i)) ip'') (hn : n < c) :
    Stored fs ip o c data ip'' := by
  refine ⟨second.distinct, ?_, fun i hi => ?_, fun pos byte hpos held => ?_, fun l hl hfar => ?_⟩
  · rw [second.size, first.size]
    omega
  · by_cases hin : i < n
    · exact second.outside _ _ (Or.inl (by omega)) (first.inside i hin)
    · have there := second.inside (i - n) (by omega)
      rwa [show o + n + (i - n) = o + i by omega, show n + (i - n) = i by omega] at there
  · refine second.outside pos byte ?_ (first.outside pos byte ?_ held)
    · omega
    · omega
  · have hsecond : ∀ i < c - n, (o + n + i) / fs.bsize ≠ l := by
      intro i hi
      rw [Nat.add_assoc]
      exact hfar (n + i) (by omega)
    rw [second.blocks l (Ne.symm (hfar n hn)) hsecond,
      first.blocks l hl (fun i hi => hfar i (by omega))]

/-- Bytes copied into the buffer of a block that `BMAP` assigned are stored in the file. -/
theorem Assigned.stored {v' : Volume} {bn : Nat} {iSize : Word} {buffer : Nat → UInt8}
    (assigned : Assigned ip.volume (o / fs.bsize) bn v') (hn : n ≤ Blocks.piece fs.bsize o c)
    (hsize : iSize.toNat = max ip.iSize.toNat (o + n))
    (hbuffer : n ≠ fs.bsize → buffer = v'.block bn) :
    Stored fs ip o n data ⟨iSize, v'.store bn (blit buffer (o % fs.bsize) n data)⟩ := by
  have hb := fs.bsize_pos
  have hend := Blocks.mod_add_piece_le (o := o) (c := c) hb
  refine ⟨assigned.distinct, hsize, fun i hi => ?_, fun pos byte hpos held => ?_,
    fun l hl _ => assigned.others l hl⟩
  · have hdiv := Blocks.div_of_lt_piece (c := c) hb (lt_of_lt_of_le hi hn)
    have hmod := Blocks.mod_of_lt_piece (c := c) hb (lt_of_lt_of_le hi hn)
    simp only [Inode.byteAt, Volume.find_store, Volume.block_store, hdiv, hmod, assigned.there,
      Option.map_some, Function.update_self, blit]
    rw [if_pos (by omega), Nat.add_sub_cancel_left]
  · obtain ⟨b, hb', rfl⟩ := Option.map_eq_some_iff.mp held
    obtain ⟨b', there, same⟩ := assigned.kept _ b hb'
    simp only [Inode.byteAt, Volume.find_store, Volume.block_store, there, Option.map_some,
      Option.some.injEq]
    by_cases hbn : b' = bn
    · -- the position is in the block, but not in the piece
      subst hbn
      have hblock := assigned.distinct _ _ b' there assigned.there
      have hsplit := Nat.div_add_mod pos fs.bsize
      have hsplit' := Nat.div_add_mod o fs.bsize
      have hlt := Nat.mod_lt pos hb
      rw [hblock] at hsplit
      have hout : ¬(o % fs.bsize ≤ pos % fs.bsize ∧ pos % fs.bsize < o % fs.bsize + n) := by
        omega
      have hpart : n ≠ fs.bsize := by
        intro hwhole
        omega
      rw [Function.update_self, blit, if_neg hout, hbuffer hpart, same]
    · rw [Function.update_of_ne hbn, same]

theorem toNat_add_ofNat {w : Word} {n : Nat} (h : w.toNat + n < 2 ^ 32) :
    (w + BitVec.ofNat 32 n).toNat = w.toNat + n := by
  rw [BitVec.toNat_add, BitVec.toNat_ofNat]
  omega

theorem writeBlock_stored (faithful : Faithful fs) (hdistinct : ip.volume.Distinct)
    (addr : Nat → UInt8) (pOffset : Nat) {fOffset : Word}
    (hroom : fOffset.toNat + c < 2 ^ 32) :
    ∃ ip', writeBlock fs addr ip c pOffset fOffset =
        (some (Blocks.piece fs.bsize fOffset.toNat c), ip') ∧
      Stored fs ip fOffset.toNat (Blocks.piece fs.bsize fOffset.toNat c)
        (fun i => addr (pOffset + i)) ip' := by
  have hle := Blocks.piece_le fs.bsize fOffset.toNat c
  have hend := Blocks.mod_add_piece_le (o := fOffset.toNat) (c := c) fs.bsize_pos
  obtain ⟨bn, v', hbmap, assigned⟩ := faithful.assigns ip.volume (fs.lblkno fOffset)
    (fs.blkoff fOffset + min (fs.bsize - fs.blkoff fOffset) c) hdistinct
  have hreached := toNat_add_ofNat
    (show fOffset.toNat + Blocks.piece fs.bsize fOffset.toNat c < 2 ^ 32 by omega)
  have hn : min (fs.bsize - fs.blkoff fOffset) c = Blocks.piece fs.bsize fOffset.toNat c := rfl
  rw [hn] at hbmap
  simp only [writeBlock, hn, hbmap, faithful.good, Bool.false_eq_true, if_false, faithful.whole,
    Nat.sub_zero]
  generalize hiSize : (if fOffset + BitVec.ofNat 32 (Blocks.piece fs.bsize fOffset.toNat c) >
    ip.iSize then fOffset + BitVec.ofNat 32 (Blocks.piece fs.bsize fOffset.toNat c)
    else ip.iSize) = iSize
  have hsize : iSize.toNat =
      max ip.iSize.toNat (fOffset.toNat + Blocks.piece fs.bsize fOffset.toNat c) := by
    rw [← hiSize]
    split
    · next hgt =>
        have hgt' := BitVec.lt_def.mp hgt
        omega
    · next hle' =>
        have hle'' : ¬ip.iSize.toNat <
          (fOffset + BitVec.ofNat 32 (Blocks.piece fs.bsize fOffset.toNat c)).toNat :=
          fun hlt => hle' (BitVec.lt_def.mpr hlt)
        omega
  have hcovers := faithful.covers iSize (fs.lblkno fOffset)
  have hsplit := Nat.div_add_mod fOffset.toNat fs.bsize
  have hcopied : min (Blocks.piece fs.bsize fOffset.toNat c) (fs.blksize iSize (fs.lblkno fOffset)) =
      Blocks.piece fs.bsize fOffset.toNat c := by
    refine Nat.min_eq_left (le_trans (le_min ?_ ?_) hcovers)
    · omega
    · rw [FileSystem.lblkno, Nat.mul_comm, hsize]
      omega
  rw [hcopied]
  refine ⟨_, rfl, assigned.stored (Nat.le_refl _) hsize (fun hpart => ?_)⟩
  rw [if_neg hpart]

theorem writeLoop_stored (faithful : Faithful fs) (addr : Nat → UInt8) {o c : Nat} :
    ∀ (ip : Inode) (pOffset : Nat) (fOffset : Word), fOffset.toNat = o →
      ip.volume.Distinct → o + c < 2 ^ 32 →
      ∃ ip', writeLoop fs addr ip c pOffset fOffset = ⟨none, ip', pOffset + c⟩ ∧
        Stored fs ip o c (fun i => addr (pOffset + i)) ip' := by
  induction o, c using Blocks.piece_induction fs.bsize_pos with
  | empty o =>
    rintro ip pOffset fOffset rfl hdistinct hroom
    obtain ⟨ip', hturn, hstored⟩ := writeBlock_stored faithful hdistinct addr pOffset hroom
    have hzero : Blocks.piece fs.bsize fOffset.toNat 0 = 0 := Nat.min_zero _
    rw [hzero] at hturn hstored
    refine ⟨ip', ?_, hstored⟩
    rw [writeLoop, hturn]
    simp
  | cut o c hc ih =>
    rintro ip pOffset fOffset rfl hdistinct hroom
    obtain ⟨ip', hturn, hstored⟩ := writeBlock_stored faithful hdistinct addr pOffset hroom
    have hpos := Blocks.piece_pos (o := fOffset.toNat) fs.bsize_pos hc
    have hle := Blocks.piece_le fs.bsize fOffset.toNat c
    rw [writeLoop, hturn]
    dsimp only
    by_cases hdone : c - Blocks.piece fs.bsize fOffset.toNat c = 0
    · have hall : Blocks.piece fs.bsize fOffset.toNat c = c := by omega
      rw [if_neg (by omega)]
      rw [hall] at hstored ⊢
      exact ⟨ip', rfl, hstored⟩
    · rw [if_pos (by omega)]
      obtain ⟨ip'', hrest, hstored'⟩ := ih ip' (pOffset + Blocks.piece fs.bsize fOffset.toNat c)
        (fOffset + BitVec.ofNat 32 (Blocks.piece fs.bsize fOffset.toNat c))
        (toNat_add_ofNat (by omega)) hstored.distinct (by omega)
      refine ⟨ip'', ?_, hstored.trans ?_ (by omega)⟩
      · rw [hrest]
        congr 1
        omega
      · simpa only [Nat.add_assoc] using hstored'

end Writing

/-! ## What `inode_read` returns -/

section Reading

variable {fs : FileSystem} {ip : Inode}

theorem readBlock_copied (faithful : Faithful fs) (buffer : Nat → UInt8) (csize pOffset : Nat)
    {fOffset : Word} (hfile : fOffset.toNat < ip.iSize.toNat)
    (held : (ip.byteAt fs fOffset.toNat).isSome) (hcsize : 0 < csize) :
    ∃ bn, ip.volume.find (fs.lblkno fOffset) = some bn ∧
      readBlock fs ip buffer csize pOffset fOffset =
        .copied (Blocks.piece fs.bsize fOffset.toNat
            (min csize (ip.iSize.toNat - fOffset.toNat)))
          (blit buffer pOffset (Blocks.piece fs.bsize fOffset.toNat
              (min csize (ip.iSize.toNat - fOffset.toNat)))
            (fun i => ip.volume.block bn (fs.blkoff fOffset + i))) := by
  obtain ⟨bn, hbn⟩ : ∃ bn, ip.volume.find (fs.lblkno fOffset) = some bn := by
    rw [Inode.byteAt, Option.isSome_map] at held
    exact Option.isSome_iff_exists.mp held
  refine ⟨bn, hbn, ?_⟩
  have hdiff : (ip.iSize - fOffset).toNat = ip.iSize.toNat - fOffset.toNat :=
    BitVec.toNat_sub_of_le (BitVec.le_def.mpr hfile.le)
  have hn : min (min (fs.bsize - fs.blkoff fOffset) csize) (ip.iSize - fOffset).toNat =
      Blocks.piece fs.bsize fOffset.toNat (min csize (ip.iSize.toNat - fOffset.toNat)) := by
    rw [hdiff, Nat.min_assoc]
    rfl
  have hle := Blocks.piece_le fs.bsize fOffset.toNat
    (min csize (ip.iSize.toNat - fOffset.toNat))
  have hend := Blocks.mod_add_piece_le (o := fOffset.toNat)
    (c := min csize (ip.iSize.toNat - fOffset.toNat)) fs.bsize_pos
  have hcovers := faithful.covers ip.iSize (fs.lblkno fOffset)
  have hsplit := Nat.div_add_mod fOffset.toNat fs.bsize
  have hcopied : min (Blocks.piece fs.bsize fOffset.toNat
      (min csize (ip.iSize.toNat - fOffset.toNat))) (fs.blksize ip.iSize (fs.lblkno fOffset)) =
      Blocks.piece fs.bsize fOffset.toNat (min csize (ip.iSize.toNat - fOffset.toNat)) := by
    refine Nat.min_eq_left (le_trans (le_min ?_ ?_) hcovers)
    · omega
    · rw [FileSystem.lblkno, Nat.mul_comm]
      omega
  have hinside : ¬ip.iSize ≤ fOffset := fun hle' => by
    have := BitVec.le_def.mp hle'
    omega
  simp only [readBlock, hn, hinside, if_false, faithful.found, Bool.false_eq_true, hbn,
    faithful.good, faithful.whole, Nat.sub_zero, hcopied]

/-- The loop of `inode_read` copies what the file has of the rest of the page. -/
theorem readLoop_copies (faithful : Faithful fs) (ip : Inode) {o c : Nat} :
    ∀ (buffer : Nat → UInt8) (csize pOffset : Nat) (fOffset : Word), fOffset.toNat = o →
      c = min csize (ip.iSize.toNat - o) → 0 < csize → 0 < c ∨ pOffset ≠ 0 →
      (∀ i < c, (ip.byteAt fs (o + i)).isSome) →
      ∃ buffer', readLoop fs ip buffer csize pOffset fOffset = (none, buffer') ∧
        (∀ i < c, ip.byteAt fs (o + i) = some (buffer' (pOffset + i))) ∧
        ∀ j, j < pOffset ∨ pOffset + c ≤ j → buffer' j = buffer j := by
  induction o, c using Blocks.piece_induction fs.bsize_pos with
  | empty o =>
    rintro buffer csize pOffset fOffset rfl hc hcsize hstart -
    have hbeyond : ip.iSize ≤ fOffset := BitVec.le_def.mpr (by omega)
    have hturn : readBlock fs ip buffer csize pOffset fOffset = .endOfFile := by
      simp only [readBlock, hbeyond, if_true]
      rw [if_neg (by omega)]
    refine ⟨buffer, by rw [readLoop, hturn], fun i hi => by omega, fun _ _ => rfl⟩
  | cut o c hc ih =>
    rintro buffer csize pOffset fOffset rfl hcut hcsize - held
    have hpos := Blocks.piece_pos (o := fOffset.toNat) fs.bsize_pos hc
    have hle := Blocks.piece_le fs.bsize fOffset.toNat c
    have hfile : fOffset.toNat < ip.iSize.toNat := by omega
    obtain ⟨bn, hbn, hturn⟩ := readBlock_copied faithful buffer csize pOffset hfile
      (by simpa using held 0 hc) hcsize
    rw [← hcut] at hturn
    generalize hbuffer : blit buffer pOffset (Blocks.piece fs.bsize fOffset.toNat c)
      (fun i => ip.volume.block bn (fs.blkoff fOffset + i)) = filled at hturn
    have hhere : ∀ i < Blocks.piece fs.bsize fOffset.toNat c,
        ip.byteAt fs (fOffset.toNat + i) = some (filled (pOffset + i)) := by
      intro i hi
      rw [Inode.byteAt, Blocks.div_of_lt_piece fs.bsize_pos hi,
        Blocks.mod_of_lt_piece fs.bsize_pos hi]
      rw [FileSystem.lblkno] at hbn
      rw [hbn, ← hbuffer, blit, if_pos (by omega), Nat.add_sub_cancel_left]
      rfl
    have hthere : ∀ j, j < pOffset ∨ pOffset + Blocks.piece fs.bsize fOffset.toNat c ≤ j →
        filled j = buffer j := by
      intro j hj
      rw [← hbuffer, blit, if_neg (by omega)]
    rw [readLoop, hturn]
    dsimp only
    by_cases hdone : csize - Blocks.piece fs.bsize fOffset.toNat c = 0
    · rw [if_neg (by omega)]
      have hall : Blocks.piece fs.bsize fOffset.toNat c = c := by omega
      rw [hall] at hhere hthere
      exact ⟨filled, rfl, hhere, hthere⟩
    · rw [if_pos (by omega)]
      obtain ⟨buffer', hrest, hcopied, hsame⟩ := ih filled
        (csize - Blocks.piece fs.bsize fOffset.toNat c)
        (pOffset + Blocks.piece fs.bsize fOffset.toNat c)
        (fOffset + BitVec.ofNat 32 (Blocks.piece fs.bsize fOffset.toNat c))
        (toNat_add_ofNat (by have := ip.iSize.isLt; omega)) (by omega) (by omega)
        (Or.inr (by omega)) (fun i hi => by
          have := held (Blocks.piece fs.bsize fOffset.toNat c + i) (by omega)
          rwa [← Nat.add_assoc] at this)
      refine ⟨buffer', hrest, fun i hi => ?_, fun j hj => ?_⟩
      · by_cases hin : i < Blocks.piece fs.bsize fOffset.toNat c
        · rw [hsame _ (Or.inl (by omega))]
          exact hhere i hin
        · have := hcopied (i - Blocks.piece fs.bsize fOffset.toNat c) (by omega)
          rwa [show fOffset.toNat + Blocks.piece fs.bsize fOffset.toNat c +
              (i - Blocks.piece fs.bsize fOffset.toNat c) = fOffset.toNat + i by omega,
            show pOffset + Blocks.piece fs.bsize fOffset.toNat c +
              (i - Blocks.piece fs.bsize fOffset.toNat c) = pOffset + i by omega] at this
      · rw [hsame j (by omega)]
        exact hthere j (by omega)

end Reading

/-! ## A file system without surprises -/

/-- A disk block above all those in use. -/
def Volume.unused (v : Volume) : Nat :=
  v.bmap.foldr (fun entry above => max above (entry.getD 0 + 1)) 0

/-- Take the block that is there, or an unused one. -/
def Volume.assign (v : Volume) (lbn : Nat) : Nat × Volume :=
  match v.find lbn with
  | some bn => (bn, v)
  | none =>
      (v.unused, { v with
        bmap := (v.bmap ++ List.replicate (lbn + 1 - v.bmap.length) none).set lbn
          (some v.unused) })

/-- Blocks are never moved, and every buffer has the size of a block. -/
def plainFs (bshift : Nat) (hle : bshift ≤ 30) : FileSystem where
  bshift := bshift
  bshift_le := hle
  bmapWrite v lbn _ := some (v.assign lbn)
  bmapError _ _ _ := false
  blksize _ _ := 2 ^ bshift
  getblk _ _ := 0
  bResid _ := 0
  bError _ := false

section Plain

variable {v : Volume}

theorem Volume.lt_unused {l bn : Nat} (hfind : v.find l = some bn) : bn < v.unused := by
  have general : ∀ entries : List (Option Nat), some bn ∈ entries →
      bn < entries.foldr (fun entry above => max above (entry.getD 0 + 1)) 0 := by
    intro entries
    induction entries with
    | nil => intro hin; cases hin
    | cons entry rest ih =>
        intro hin
        rw [List.foldr_cons]
        rcases List.mem_cons.mp hin with rfl | hrest
        · exact lt_of_lt_of_le (Nat.lt_succ_self _) (le_max_right _ _)
        · exact lt_of_lt_of_le (ih hrest) (le_max_left _ _)
  exact general v.bmap (List.mem_of_getElem? (Option.join_eq_some_iff.mp hfind))

theorem Volume.assign_assigned (hdistinct : v.Distinct) (lbn : Nat) :
    Assigned v lbn (v.assign lbn).1 (v.assign lbn).2 := by
  unfold Volume.assign
  cases hfind : v.find lbn with
  | some bn =>
      exact ⟨hdistinct, hfind, fun _ _ => rfl, fun l b hb => ⟨b, hb, rfl⟩⟩
  | none =>
      dsimp only
      have hself : ∀ block, Volume.find ⟨(v.bmap ++ List.replicate (lbn + 1 - v.bmap.length)
          none).set lbn (some v.unused), block⟩ lbn = some v.unused := by
        intro block
        rw [Volume.find, List.getElem?_set_self (by simp; omega)]
        rfl
      have hother : ∀ block l, l ≠ lbn → Volume.find ⟨(v.bmap ++ List.replicate
          (lbn + 1 - v.bmap.length) none).set lbn (some v.unused), block⟩ l = v.find l := by
        intro block l hne
        rw [Volume.find, Volume.find, List.getElem?_set_ne (Ne.symm hne), List.getElem?_append]
        split
        · rfl
        · next hle =>
            rw [List.getElem?_replicate, List.getElem?_eq_none (Nat.le_of_not_lt hle)]
            split <;> rfl
      refine ⟨fun l l' bn hl hl' => ?_, hself _, hother _, fun l b hb => ⟨b, ?_, rfl⟩⟩
      · by_cases heq : l = lbn <;> by_cases heq' : l' = lbn
        · exact heq.trans heq'.symm
        · rw [heq, hself, Option.some.injEq] at hl
          rw [hother _ _ heq', ← hl] at hl'
          exact absurd (Volume.lt_unused hl') (Nat.lt_irrefl _)
        · rw [heq', hself, Option.some.injEq] at hl'
          rw [hother _ _ heq, ← hl'] at hl
          exact absurd (Volume.lt_unused hl) (Nat.lt_irrefl _)
        · rw [hother _ _ heq] at hl
          rw [hother _ _ heq'] at hl'
          exact hdistinct l l' bn hl hl'
      · have hne : l ≠ lbn := by
          rintro rfl
          rw [hfind] at hb
          cases hb
        rw [hother _ _ hne]
        exact hb

theorem plainFs_faithful (bshift : Nat) (hle : bshift ≤ 30) : Faithful (plainFs bshift hle) where
  assigns _ lbn _ hdistinct := ⟨_, _, rfl, Volume.assign_assigned hdistinct lbn⟩
  found _ _ _ := rfl
  covers _ _ := Nat.min_le_left _ _
  whole _ := rfl
  good _ := rfl

end Plain

end MachFormal.InodePager.InodeIO
