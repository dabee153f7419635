import MachFormal.InodePager.InodeIO

/-!
# A page written is the page read

What `inode_write` stores is compared with what `inode_read` returns, for every
relation of block size, page size, offset and file size.  The last page of the 32 bit
offset space is treated differently, since the sum of its offset and the page size wraps
to 0, and so is a page with a hole: `inode_read` reports that there is no such data.
-/

namespace MachFormal.InodePager.InodeIO

open MachFormal.Library

/-- The bytes that the page has below the end of the file are in blocks. -/
def Inode.FilledIn (fs : FileSystem) (ip : Inode) (o pageSize : Nat) : Prop :=
  ∀ i < pageSize, o + i < ip.iSize.toNat → (ip.byteAt fs (o + i)).isSome

/-- The page has no hole behind the blocks that `c` bytes at its start go to. -/
def Inode.NoHoleBehind (fs : FileSystem) (ip : Inode) (o c pageSize : Nat) : Prop :=
  ∀ i < pageSize, o + i < ip.iSize.toNat → (o + (c - 1)) / fs.bsize < (o + i) / fs.bsize →
    (ip.byteAt fs (o + i)).isSome

/-- `inode_read` returns the bytes of the file and zeros behind them, and `EINVAL` exactly
for a page behind the end of the file. -/
def ReadsPage (fs : FileSystem) (pageSize : Nat) (ip : Inode) (fOffset : Word) : Prop :=
  ∀ buffer,
    ((inodeRead fs pageSize ip buffer fOffset).1 = some .einval ↔
      ip.iSize.toNat ≤ fOffset.toNat) ∧
    (fOffset.toNat < ip.iSize.toNat → (inodeRead fs pageSize ip buffer fOffset).1 = none ∧
      ∀ i < pageSize,
        (fOffset.toNat + i < ip.iSize.toNat →
          ip.byteAt fs (fOffset.toNat + i) =
            some ((inodeRead fs pageSize ip buffer fOffset).2 i)) ∧
        (ip.iSize.toNat ≤ fOffset.toNat + i →
          (inodeRead fs pageSize ip buffer fOffset).2 i = 0))

/-- `inode_write` stores the bytes, all of them and nothing else, and `inode_read` returns
them, right away and from every later state of the file. -/
structure RoundTrip (fs : FileSystem) (pageSize : Nat) (ip : Inode) (addr : Nat → UInt8)
    (csize fOffset : Word) : Prop where
  succeeds : (inodeWrite fs ip addr csize fOffset).error = none
  inside : ∀ i < csize.toNat,
    (inodeWrite fs ip addr csize fOffset).inode.byteAt fs (fOffset.toNat + i) = some (addr i)
  outside : ∀ pos byte, pos < fOffset.toNat ∨ fOffset.toNat + csize.toNat ≤ pos →
    ip.byteAt fs pos = some byte →
    (inodeWrite fs ip addr csize fOffset).inode.byteAt fs pos = some byte
  size : (inodeWrite fs ip addr csize fOffset).inode.iSize.toNat =
    max ip.iSize.toNat (fOffset.toNat + csize.toNat)
  reads : ReadsPage fs pageSize (inodeWrite fs ip addr csize fOffset).inode fOffset
  readsLater : ∀ later : Inode, later.FilledIn fs fOffset.toNat pageSize →
    ReadsPage fs pageSize later fOffset

section Pages

variable {fs : FileSystem} {ip : Inode} {pageSize : Nat} {fOffset : Word}

theorem inodeRead_behind (hbehind : ip.iSize.toNat ≤ fOffset.toNat) (buffer : Nat → UInt8) :
    (inodeRead fs pageSize ip buffer fOffset).1 = some .einval := by
  have hle : ip.iSize ≤ fOffset := BitVec.le_def.mpr hbehind
  have hturn : ∀ buffer, readBlock fs ip buffer pageSize 0 fOffset = .failed .einval := by
    intro buffer
    simp only [readBlock, hle, if_true]
  rw [inodeRead, readLoop, hturn]

/-- The bytes of the file are copied, and behind them the page is as it was prepared. -/
theorem inodeRead_copies (faithful : Faithful fs) (hpage : 0 < pageSize)
    (hfile : fOffset.toNat < ip.iSize.toNat) (held : ip.FilledIn fs fOffset.toNat pageSize)
    (buffer : Nat → UInt8) :
    (inodeRead fs pageSize ip buffer fOffset).1 = none ∧
      ∀ i < pageSize,
        (fOffset.toNat + i < ip.iSize.toNat →
          ip.byteAt fs (fOffset.toNat + i) =
            some ((inodeRead fs pageSize ip buffer fOffset).2 i)) ∧
        (ip.iSize.toNat ≤ fOffset.toNat + i →
          (inodeRead fs pageSize ip buffer fOffset).2 i =
            if ip.iSize < fOffset + BitVec.ofNat 32 pageSize then 0 else buffer i) := by
  unfold inodeRead
  generalize hprepared : (if ip.iSize < fOffset + BitVec.ofNat 32 pageSize
    then blit buffer 0 pageSize (fun _ => 0) else buffer) = prepared
  obtain ⟨buffer', hloop, hcopied, hsame⟩ := readLoop_copies faithful ip prepared pageSize 0
    fOffset rfl rfl hpage (Or.inl (by omega))
    (fun i hi => held i (by omega) (by omega))
  rw [hloop]
  refine ⟨rfl, fun i hi => ⟨fun hin => ?_, fun hout => ?_⟩⟩
  · simpa using hcopied i (by omega)
  · dsimp only
    rw [hsame i (by omega), ← hprepared]
    split
    · rw [blit, if_pos (by omega)]
    · rfl

/-- A page that does not end at the end of the offset space is read as it should be. -/
theorem readsPage_of_filledIn (faithful : Faithful fs) (hpage : 0 < pageSize)
    (hroom : fOffset.toNat + pageSize < 2 ^ 32) (held : ip.FilledIn fs fOffset.toNat pageSize) :
    ReadsPage fs pageSize ip fOffset := by
  intro buffer
  by_cases hfile : fOffset.toNat < ip.iSize.toNat
  · obtain ⟨hok, hbytes⟩ := inodeRead_copies faithful hpage hfile held buffer
    refine ⟨⟨fun herror => ?_, fun hbehind => by omega⟩, fun _ => ⟨hok, fun i hi => ?_⟩⟩
    · rw [hok] at herror
      cases herror
    · refine ⟨(hbytes i hi).1, fun hout => ?_⟩
      have hwrap : ip.iSize < fOffset + BitVec.ofNat 32 pageSize := by
        rw [BitVec.lt_def, toNat_add_ofNat hroom]
        omega
      rw [(hbytes i hi).2 hout, if_pos hwrap]
  · exact ⟨⟨fun _ => by omega, fun hbehind => inodeRead_behind hbehind buffer⟩,
      fun hfile' => absurd hfile' hfile⟩

theorem not_readsPage_of_last (faithful : Faithful fs) (hpage : 0 < pageSize)
    (hlast : fOffset.toNat + pageSize = 2 ^ 32) (hfile : fOffset.toNat < ip.iSize.toNat)
    (held : ip.FilledIn fs fOffset.toNat pageSize) : ¬ReadsPage fs pageSize ip fOffset := by
  intro hreads
  have hwrap : fOffset + BitVec.ofNat 32 pageSize = 0#32 := by
    apply BitVec.eq_of_toNat_eq
    rw [BitVec.toNat_add, BitVec.toNat_ofNat, Nat.add_mod_mod, hlast]
    rfl
  have hend := ip.iSize.isLt
  have hbytes := (inodeRead_copies faithful hpage hfile held (fun _ => 1)).2 (pageSize - 1)
    (by omega)
  have hzero := (((hreads (fun _ => 1)).2 hfile).2 (pageSize - 1) (by omega)).2 (by omega)
  rw [hbytes.2 (by omega), hwrap, if_neg (by simp)] at hzero
  cases hzero

theorem ReadsPage.filledIn (reads : ReadsPage fs pageSize ip fOffset)
    (hfile : fOffset.toNat < ip.iSize.toNat) : ip.FilledIn fs fOffset.toNat pageSize := by
  intro i hi hin
  rw [(((reads fun _ => 0).2 hfile).2 i hi).1 hin]
  rfl

theorem byteAt_isSome {pos : Nat} :
    (ip.byteAt fs pos).isSome = (ip.volume.find (pos / fs.bsize)).isSome := by
  rw [Inode.byteAt, Option.isSome_map]

/-- After the bytes were stored the page has its blocks if it had no hole behind them. -/
theorem Stored.filledIn_iff {ip' : Inode} {o c : Nat} {data : Nat → UInt8}
    (stored : Stored fs ip o c data ip') (hc : 0 < c) :
    ip'.FilledIn fs o pageSize ↔ ip.NoHoleBehind fs o c pageSize := by
  constructor
  · intro held i hi hin hbehind
    have hthere := held i hi (by rw [stored.size]; omega)
    have hfirst : o / fs.bsize ≤ (o + (c - 1)) / fs.bsize :=
      Nat.div_le_div_right (Nat.le_add_right _ _)
    rw [byteAt_isSome, stored.blocks _ (by omega)] at hthere
    · rwa [byteAt_isSome]
    · intro j hj
      have hlast : (o + j) / fs.bsize ≤ (o + (c - 1)) / fs.bsize :=
        Nat.div_le_div_right (by omega)
      omega
  · intro hole i hi hin
    by_cases hinside : i < c
    · rw [stored.inside i hinside]
      rfl
    · by_cases hbehind : (o + (c - 1)) / fs.bsize < (o + i) / fs.bsize
      · rw [stored.size] at hin
        obtain ⟨byte, hbyte⟩ := Option.isSome_iff_exists.mp (hole i hi (by omega) hbehind)
        rw [stored.outside _ byte (Or.inr (by omega)) hbyte]
        rfl
      · -- the position is in the block that was stored to last
        have hle : (o + (c - 1)) / fs.bsize ≤ (o + i) / fs.bsize :=
          Nat.div_le_div_right (by omega)
        rw [byteAt_isSome, ← Nat.le_antisymm hle (Nat.le_of_not_lt hbehind), ← byteAt_isSome,
          stored.inside (c - 1) (by omega)]
        rfl

theorem page_end_le {pageShift : Nat} (hshift : pageShift ≤ 30) {fOffset : Word}
    (haligned : 2 ^ pageShift ∣ fOffset.toNat) : fOffset.toNat + 2 ^ pageShift ≤ 2 ^ 32 := by
  obtain ⟨k, hk⟩ := haligned
  obtain ⟨m, hm⟩ : 2 ^ pageShift ∣ 2 ^ 32 := Nat.pow_dvd_pow 2 (by omega)
  have hlt := fOffset.isLt
  have hkm : k < m := by
    rw [hk, hm] at hlt
    exact Nat.lt_of_mul_lt_mul_left hlt
  have hle : 2 ^ pageShift * (k + 1) ≤ 2 ^ pageShift * m := Nat.mul_le_mul_left _ hkm
  rwa [Nat.mul_succ, ← hk, ← hm] at hle

end Pages

/-- A page makes the round trip exactly when it is not the last page of the offset space and
has no hole behind what is written. -/
theorem roundTrip_iff {fs : FileSystem} (faithful : Faithful fs) {pageShift : Nat}
    (hshift : pageShift ≤ 30) {ip : Inode} (hdistinct : ip.volume.Distinct)
    (addr : Nat → UInt8) {csize fOffset : Word} (hpositive : 0 < csize.toNat)
    (hpage : csize.toNat ≤ 2 ^ pageShift) (haligned : 2 ^ pageShift ∣ fOffset.toNat) :
    RoundTrip fs (2 ^ pageShift) ip addr csize fOffset ↔
      fOffset.toNat + 2 ^ pageShift < 2 ^ 32 ∧
        ip.NoHoleBehind fs fOffset.toNat csize.toNat (2 ^ pageShift) := by
  have hpos : 0 < 2 ^ pageShift := Nat.two_pow_pos pageShift
  -- what is written, unless the sum of offset and size wraps
  have hwritten (hfits : fOffset.toNat + csize.toNat < 2 ^ 32) :
      ∃ ip', inodeWrite fs ip addr csize fOffset = ⟨none, ip', 0 + csize.toNat⟩ ∧
        Stored fs ip fOffset.toNat csize.toNat addr ip' := by
    obtain ⟨ip', hwrite, stored⟩ := writeLoop_stored faithful addr ip 0 fOffset rfl hdistinct hfits
    simp only [Nat.zero_add] at stored
    exact ⟨ip', hwrite, stored⟩
  constructor
  · intro trip
    have hheld (hfits : fOffset.toNat + csize.toNat < 2 ^ 32) :
        ∃ ip', Stored fs ip fOffset.toNat csize.toNat addr ip' ∧
          fOffset.toNat < ip'.iSize.toNat ∧ ReadsPage fs (2 ^ pageShift) ip' fOffset := by
      obtain ⟨ip', hwrite, stored⟩ := hwritten hfits
      have hreads := trip.reads
      rw [hwrite] at hreads
      exact ⟨ip', stored, by rw [stored.size]; omega, hreads⟩
    have hroom : fOffset.toNat + 2 ^ pageShift < 2 ^ 32 := by
      by_contra hnot
      have hend := page_end_le hshift haligned
      have hlast : fOffset.toNat + 2 ^ pageShift = 2 ^ 32 := by omega
      by_cases hwhole : csize.toNat = 2 ^ pageShift
      · have hsize := trip.size
        have hlt := (inodeWrite fs ip addr csize fOffset).inode.iSize.isLt
        omega
      · obtain ⟨ip', stored, hfile, hreads⟩ := hheld (by omega)
        exact not_readsPage_of_last faithful hpos hlast hfile (hreads.filledIn hfile) hreads
    obtain ⟨ip', stored, hfile, hreads⟩ := hheld (by omega)
    exact ⟨hroom, (stored.filledIn_iff hpositive).mp (hreads.filledIn hfile)⟩
  · rintro ⟨hroom, hhole⟩
    obtain ⟨ip', hwrite, stored⟩ := hwritten (by omega)
    refine ⟨?_, ?_, ?_, ?_, ?_, ?_⟩
    · rw [hwrite]
    · rw [hwrite]
      exact stored.inside
    · rw [hwrite]
      exact stored.outside
    · rw [hwrite]
      exact stored.size
    · rw [hwrite]
      exact readsPage_of_filledIn faithful hpos hroom ((stored.filledIn_iff hpositive).mpr hhole)
    · exact fun later held => readsPage_of_filledIn faithful hpos hroom held

/-- An empty file on a disk of arbitrary contents. -/
def emptyInode (block : Nat → Nat → UInt8) : Inode := ⟨0, ⟨[], block⟩⟩

theorem emptyInode_distinct (block : Nat → Nat → UInt8) : (emptyInode block).volume.Distinct := by
  intro l l' bn hl
  simp [emptyInode, Volume.find] at hl

/-- 3000 bytes of a page of 4096 go to the second page of a file with blocks of 1024. -/
theorem roundTrip_secondPage :
    RoundTrip (plainFs 10 (by decide)) (2 ^ 12) (emptyInode (fun _ _ => 7)) (fun i => i.toUInt8)
      3000 4096 :=
  (roundTrip_iff (plainFs_faithful 10 (by decide)) (by decide) (emptyInode_distinct _)
    _ (by decide) (by decide) (by decide)).mpr
    ⟨by decide, fun i _ hin => absurd hin (Nat.not_lt_zero _)⟩

/-- The last page of the offset space, written whole, does not make the file grow to its
end. -/
theorem last_page_lost :
    ¬RoundTrip (plainFs 12 (by decide)) (2 ^ 12) (emptyInode (fun _ _ => 7)) (fun i => i.toUInt8)
      4096 0xfffff000 := by
  intro trip
  have hsize := trip.size
  have hlt := (inodeWrite (plainFs 12 (by decide)) (emptyInode (fun _ _ => 7))
    (fun i => i.toUInt8) 4096 0xfffff000).inode.iSize.isLt
  rw [hsize] at hlt
  exact absurd hlt (by decide)

end MachFormal.InodePager.InodeIO
