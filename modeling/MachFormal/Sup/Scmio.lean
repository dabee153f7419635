import Mathlib.Data.List.TakeWhile
import MachFormal.Library.Wire
import MachFormal.Sup.Crypt

/-!
# The network routines of the software upgrade protocol

A message on the wire is a message number, any number of counted blocks and an end
marker. Output goes through two buffers of `FILEXFER` bytes, one filled while the
other is written out; input comes through one buffer that is refilled by `read` calls
of whatever size the connection delivers. `-1` and `-2` share the space of the block
counts as the end marker and the null string.

A blocking connection takes a `write` whole, so the only way for output to fail here
is a copy past the end of a buffer, which the source does not guard against.
-/

namespace MachFormal.Sup

open Library.Wire

/-- The 32-bit `int` of either machine. -/
abbrev CInt := BitVec 32

/-- Block transfer size, also the size of every buffer. -/
def FILEXFER : Nat := 2048

/-- End of message marker. -/
def ENDCOUNT : CInt := -1

/-- Used for sending a null pointer. -/
def NULLCOUNT : CInt := -2

/-- The number that ends a conversation. -/
def MSGGOAWAY : CInt := -1

def XFERSIZE (count : Nat) : Nat := if FILEXFER < count then FILEXFER else count

/-- How a call that does not return `SCMOK` ends. -/
inductive Failure where
  /-- `scmerr` printed the text and `SCMERR` is returned. -/
  | scmerr (text : String)
  /-- The peer said goodbye: `SCMEOF`. -/
  | scmeof
  /-- A `bcopy` ran past the end of a buffer. -/
  | overrun
  /-- The program gives up on the conversation and tells the peer why. -/
  | goaway (reason : String)
  deriving DecidableEq, Repr

/-! ## Integers in memory -/

/-- The order in which a machine stores the bytes of an `int`. -/
inductive ByteOrder where
  | little
  | big
  deriving DecidableEq, Repr

/-- Byte `i` of a number, counted from the low end. -/
def lowByte (value : CInt) (i : Nat) : Byte := BitVec.ofNat 8 (value.toNat / 256 ^ i)

/-- The four bytes of an `int`, low end first. -/
def lowFirst (value : CInt) : List Byte := (List.range 4).map (lowByte value)

def fromLowFirst (bytes : List Byte) : CInt :=
  BitVec.ofNat 32 (bytes.foldr (fun b rest => b.toNat + 256 * rest) 0)

namespace ByteOrder

/-- `(char *)&x`, for `sizeof(int)` bytes. -/
def store (order : ByteOrder) (value : CInt) : List Byte :=
  match order with
  | .little => lowFirst value
  | .big => (lowFirst value).reverse

/-- The `int` at an address holding the given bytes. -/
def load (order : ByteOrder) (bytes : List Byte) : CInt :=
  match order with
  | .little => fromLowFirst bytes
  | .big => fromLowFirst bytes.reverse

/-- The union of `byteswap`: the same bytes the other way round. -/
def reversed (order : ByteOrder) (value : CInt) : CInt := order.load (order.store value).reverse

end ByteOrder

/-- What the routines of one side depend on: the machine's byte order, `swapmode`, and
the rotors while `cryptflag` is set. -/
structure Endpoint where
  order : ByteOrder
  swapmode : Bool
  rotors : Option Rotors

namespace Endpoint

def byteswap (e : Endpoint) (value : CInt) : CInt :=
  if e.swapmode then e.order.reversed value else value

/-- The bytes of an `int` as the output routines hand them to `writedata`. -/
def intBytes (e : Endpoint) (value : CInt) : List Byte := e.order.store (e.byteswap value)

/-- The `int` the input routines make of four bytes. -/
def bytesInt (e : Endpoint) (bytes : List Byte) : CInt := e.byteswap (e.order.load bytes)

/-- `encode` and `decode` under `cryptflag`; without it the data goes as it is. -/
def cipher (e : Endpoint) (block : List Byte) : List Byte :=
  match e.rotors with
  | none => block
  | some t => t.decode block

end Endpoint

/-- What `request` sends first, for the server to recognise the order of. -/
def probe : CInt := 0x01020304

/-- `service`: the server's `swapmode`, from the first `int` of the connection. -/
def service (order : ByteOrder) (bytes : List Byte) : Except Failure Bool :=
  if order.load bytes = 0x01020304 then .ok false
  else if order.load bytes = 0x04030201 then .ok true
  else .error (.scmerr "Unexpected byteswap mode")

/-! ## Output to the network -/

/-- The output side: `bufptr`, the first `b_cnt` bytes of either buffer, and the bytes
handed to the connection so far. -/
structure Output where
  bufptr : Option Bool
  buffers : Bool → List Byte
  sent : List Byte

abbrev Send := StateT Output (Except Failure)

/-- `write (netfile, data, count)` with its retries: a `write` of nothing returns nothing. -/
def netWrite (data : List Byte) : Send Unit := fun out =>
  if data = [] then .error (.scmerr "Write retries failed")
  else .ok ((), { out with sent := out.sent ++ data })

def writedata (data : List Byte) : Send Unit := fun out =>
  match out.bufptr with
  | none => netWrite data out
  | some b =>
      if (out.buffers b).length + data.length ≤ FILEXFER then
        .ok ((), { out with buffers := Function.update out.buffers b (out.buffers b ++ data) })
      else if FILEXFER < data.length then
        .error .overrun
      else
        -- the other buffer takes the new data, and this one is written out
        netWrite (out.buffers b)
          { out with
            bufptr := some !b
            buffers := Function.update (Function.update out.buffers (!b) data) b [] }

section Writing

variable (e : Endpoint)

def writeblock (data : List Byte) : Send Unit := do
  writedata (e.intBytes (BitVec.ofNat 32 data.length))
  writedata data

def writemsg (msg : CInt) : Send Unit := fun out =>
  match out.bufptr with
  | some _ => .error (.scmerr "Buffering already enabled")
  | none =>
      writedata (e.intBytes msg)
        { out with bufptr := some false, buffers := Function.update out.buffers false [] }

def writemend : Send Unit := do
  writedata (e.intBytes ENDCOUNT)
  let out ← get
  match out.bufptr with
  | none => throw (.scmerr "Buffering already disabled")
  | some b =>
      set { out with bufptr := none }
      if out.buffers b = [] then
        pure ()
      else
        writedata (out.buffers b)

def writeint (i : CInt) : Send Unit := writeblock e (e.intBytes i)

/-- A NUL-terminated string, without its terminator. -/
structure CString where
  data : List Byte
  noNul : (0 : Byte) ∉ data

theorem noNul_a : (0 : Byte) ∉ [97] := by decide

theorem noNul_d : (0 : Byte) ∉ [100] := by decide

/-- The string that starts at an address: it ends at the first NUL. -/
def CString.ofMemory (bytes : List Byte) : CString where
  data := bytes.takeWhile (· ≠ 0)
  noNul := fun member => absurd (List.mem_takeWhile_imp member) (by decide)

def writestring : Option CString → Send Unit
  | none => writedata (e.intBytes NULLCOUNT)
  | some p => writeblock e (e.cipher p.data)

/-- An open file: its `st_size` is a 32-bit `off_t`, so no file is longer. -/
structure OpenFile where
  content : List Byte
  size_lt : content.length < 2 ^ 31

/-- The loop of `writefile` from what is still to be read: every `read` returns
`FILEXFER` bytes until the last, and the loop ends when one returns nothing. -/
def writefileLoop : Nat → List Byte → Nat → Send Nat
  | 0, _, sum => pure sum
  | fuel + 1, rest, sum =>
      let buf := rest.take FILEXFER
      if buf = [] then
        pure sum
      else do
        writedata (e.cipher buf)
        writefileLoop fuel (rest.drop FILEXFER) (sum + buf.length)

def writefile (f : OpenFile) : Send Unit := do
  let filesize := f.content.length
  writedata (e.intBytes (BitVec.ofNat 32 filesize))
  let sum ← writefileLoop e (filesize + 1) f.content 0
  if sum ≠ filesize then
    throw (.scmerr "File size error on output message")

def writemnull (msg : CInt) : Send Unit := do
  writemsg e msg
  writemend e

end Writing

/-! ## Input from the network -/

/-- The input side: `bufptr` as an offset into the buffer, the `bufcnt` bytes from there
on, and the connection. -/
structure Input where
  bufptr : Nat
  data : List Byte
  net : Stream Byte

abbrev Recv := StateT Input (Except Failure)

/-- The bytes not yet handed to a caller, buffered or still on the connection. -/
def Input.pending (r : Input) : List Byte := r.data ++ r.net.bytes

/-- The loop of `readdata`: `m` bytes are still missing and the buffer has room for `n`. -/
def readdataLoop : Nat → Nat → Nat → List Byte → Stream Byte →
    Except Failure (List Byte × Stream Byte)
  | 0, _, _, buffer, net => .ok (buffer, net)
  | fuel + 1, n, m, buffer, net =>
      if m = 0 then
        .ok (buffer, net)
      else
        match (net.read n).1 with
        | [] => .error (.scmerr "Premature EOF on network input")
        | x => readdataLoop fuel (n - x.length) (m - x.length) (buffer ++ x) (net.read n).2

/-- `readdata` with a count that is not negative. -/
def readdata (count : Nat) : Recv (List Byte) := fun r =>
  if count ≤ r.data.length then
    .ok (r.data.take count,
      { r with bufptr := r.bufptr + count, data := r.data.drop count })
  else
    let m := count - r.data.length
    match readdataLoop m FILEXFER m [] r.net with
    | .error failure => .error failure
    | .ok (buffer, net) => .ok (r.data ++ buffer.take m, ⟨m, buffer.drop m, net⟩)

/-- `readdata` with a negative count: push data back into the buffer. -/
def pushdata (data : List Byte) : Recv Unit := fun r =>
  if r.bufptr < data.length then
    .error (.scmerr "No space in buffer")
  else
    .ok ((), { r with bufptr := r.bufptr - data.length, data := data ++ r.data })

section Reading

variable (e : Endpoint)

def readcount : Recv CInt := do
  let y ← readdata 4
  pure (e.bytesInt y)

def prereadcount : Recv CInt := do
  let y ← readdata 4
  pushdata y
  pure (e.bytesInt y)

def readmend : Recv Unit := do
  let y ← readdata 4
  if e.bytesInt y ≠ ENDCOUNT then
    throw (.scmerr "Error reading end of message")

def readskipLoop : Nat → Nat → Recv Unit
  | 0, _ => pure ()
  | fuel + 1, n =>
      if n = 0 then
        pure ()
      else do
        let _ ← readdata (XFERSIZE n)
        readskipLoop fuel (n - XFERSIZE n)

/-- A count that must not be negative, as a length. -/
def checkCount (count : CInt) : Recv Nat :=
  if count.toInt < 0 then
    throw (.scmerr s!"Invalid message count {count.toInt}")
  else
    pure count.toNat

/-- `readskip`: skip over one input block. -/
def readskip : Recv Unit := do
  let count ← readcount e
  let n ← checkCount count
  readskipLoop n n

def readint : Recv CInt := do
  let count ← readcount e
  let n ← checkCount count
  if n ≠ 4 then
    throw (.scmerr s!"Size error for int message is {n}")
  let y ← readdata 4
  pure (e.bytesInt y)

def readstring : Recv (Option CString) := do
  let count ← readcount e
  if count = NULLCOUNT then
    pure none
  else do
    let n ← checkCount count
    let p ← readdata n
    pure (some (CString.ofMemory (e.cipher p)))

/-- The loop of `readfile`: `count` bytes are missing and `out` is what has been stored. -/
def readfileLoop : Nat → Nat → List Byte → Recv (List Byte)
  | 0, _, out => pure out
  | fuel + 1, count, out =>
      if count = 0 then
        pure out
      else do
        let buf ← readdata (XFERSIZE count)
        readfileLoop fuel (count - XFERSIZE count) (out ++ e.cipher buf)

/-- `readfile`: the content it stores. -/
def readfile : Recv (List Byte) := do
  let count ← readcount e
  let n ← checkCount count
  readfileLoop e n n []

/-- `readmsg`: whatever comes of reading the reason of a goodbye, the answer is `SCMEOF`. -/
def readmsg (msg : CInt) : Recv Unit := do
  let y ← readdata 4
  let m := e.bytesInt y
  if m = msg then
    pure ()
  else if m ≠ MSGGOAWAY then
    throw (.scmerr s!"Received unexpected message {m.toInt}")
  else
    throw .scmeof

def readmnull (msg : CInt) : Recv Unit := do
  readmsg e msg
  readmend e

end Reading

/-! ## Integers cross the wire -/

/-- The number with its four bytes the other way round. -/
def flipped (value : CInt) : CInt := fromLowFirst (lowFirst value).reverse

theorem fromLowFirst_lowFirst (value : CInt) : fromLowFirst (lowFirst value) = value := by
  apply BitVec.eq_of_toNat_eq
  have bound := value.isLt
  simp only [fromLowFirst, lowFirst, lowByte, List.range, List.range.loop, List.map_cons,
    List.map_nil, List.foldr_cons, List.foldr_nil, BitVec.toNat_ofNat]
  omega

theorem lowFirst_fromLowFirst (a b c d : Byte) :
    lowFirst (fromLowFirst [a, b, c, d]) = [a, b, c, d] := by
  have ha := a.isLt
  have hb := b.isLt
  have hc := c.isLt
  have hd := d.isLt
  simp only [fromLowFirst, lowFirst, lowByte, List.range, List.range.loop, List.map_cons,
    List.map_nil, List.foldr_cons, List.foldr_nil, BitVec.toNat_ofNat, List.cons.injEq,
    and_true]
  refine ⟨?_, ?_, ?_, ?_⟩ <;>
    (apply BitVec.eq_of_toNat_eq; simp only [BitVec.toNat_ofNat]; omega)

theorem lowFirst_flipped (value : CInt) : lowFirst (flipped value) = (lowFirst value).reverse :=
  lowFirst_fromLowFirst _ _ _ _

theorem flipped_flipped (value : CInt) : flipped (flipped value) = value := by
  rw [flipped, lowFirst_flipped, List.reverse_reverse, fromLowFirst_lowFirst]

namespace ByteOrder

theorem length_store (order : ByteOrder) (value : CInt) : (order.store value).length = 4 := by
  cases order <;> rfl

theorem load_store (order : ByteOrder) (value : CInt) : order.load (order.store value) = value := by
  cases order with
  | little => exact fromLowFirst_lowFirst value
  | big =>
      rw [store, load, List.reverse_reverse]
      exact fromLowFirst_lowFirst value

theorem load_store_of_ne {order other : ByteOrder} (differ : order ≠ other) (value : CInt) :
    other.load (order.store value) = flipped value := by
  cases order <;> cases other
  · exact absurd rfl differ
  · rfl
  · rfl
  · exact absurd rfl differ

theorem reversed_eq (order : ByteOrder) (value : CInt) : order.reversed value = flipped value := by
  cases order with
  | little => rfl
  | big =>
      rw [reversed, load, store, List.reverse_reverse]
      rfl

end ByteOrder

/-- Two sides of a connection: the client does not swap, the server swaps exactly when
the machines' byte orders differ, and both hold the same key. -/
structure Peers (w r : Endpoint) : Prop where
  key : w.rotors = r.rotors
  swap : (w.swapmode = false ∧ r.swapmode = decide (w.order ≠ r.order)) ∨
    (r.swapmode = false ∧ w.swapmode = decide (w.order ≠ r.order))

/-- The server finds out about the byte orders from the first `int` of the connection. -/
theorem service_probe (client server : ByteOrder) :
    service server (client.store probe) = .ok (decide (client ≠ server)) := by
  cases client <;> cases server <;> rfl

theorem length_intBytes (e : Endpoint) (value : CInt) : (e.intBytes value).length = 4 :=
  e.order.length_store _

/-- An `int` written by one side is the same `int` on the other. -/
theorem Peers.bytesInt_intBytes {w r : Endpoint} (peers : Peers w r) (value : CInt) :
    r.bytesInt (w.intBytes value) = value := by
  simp only [Endpoint.bytesInt, Endpoint.intBytes, Endpoint.byteswap, ByteOrder.reversed_eq]
  by_cases differ : w.order = r.order
  · have same := ByteOrder.load_store r.order value
    rcases peers.swap with ⟨plain, other⟩ | ⟨plain, other⟩
    · simp [plain, other, differ, same]
    · simp [plain, other, differ, same]
  · rcases peers.swap with ⟨plain, other⟩ | ⟨plain, other⟩
    · simp [plain, other, differ, ByteOrder.load_store_of_ne, flipped_flipped]
    · simp [plain, other, differ, ByteOrder.load_store_of_ne, flipped_flipped]

/-- A block ciphered by one side is recovered on the other. -/
theorem Peers.cipher_cipher {w r : Endpoint} (peers : Peers w r) (block : List Byte) :
    r.cipher (w.cipher block) = block := by
  simp only [Endpoint.cipher, peers.key]
  cases r.rotors with
  | none => rfl
  | some t => exact t.decode_decode block

@[simp]
theorem length_cipher (e : Endpoint) (block : List Byte) : (e.cipher block).length = block.length := by
  cases h : e.rotors with
  | none => simp [Endpoint.cipher, h]
  | some t => simp [Endpoint.cipher, h]

/-! ## Every fragmentation of the input -/

/-- The refill loop gets what is missing, however the connection cuts it. -/
theorem readdataLoop_spec (fuel n m : Nat) (buffer : List Byte) (net : Stream Byte)
    (enough : m ≤ fuel) (room : m ≤ n) (more : m ≤ net.bytes.length) :
    ∃ got net', readdataLoop fuel n m buffer net = .ok (buffer ++ got, net') ∧
      got ++ net'.bytes = net.bytes ∧ m ≤ got.length := by
  induction fuel generalizing n m buffer net with
  | zero => exact ⟨[], net, by simp [readdataLoop], rfl, enough⟩
  | succ fuel ih =>
      by_cases done : m = 0
      · exact ⟨[], net, by simp [readdataLoop, done], rfl, by omega⟩
      · have whole := net.read_append n
        have size := net.read_length_le n
        have some_read := Stream.read_length_pos (show 0 < n by omega)
          (show 0 < net.bytes.length by omega)
        cases piece : (net.read n).1 with
        | nil =>
            rw [piece] at some_read
            exact absurd some_read (Nat.lt_irrefl 0)
        | cons b rest =>
            have total := congrArg List.length whole
            rw [List.length_append, piece] at total
            rw [piece] at size whole
            obtain ⟨got, net', ran, left, count⟩ := ih (n - (b :: rest).length)
              (m - (b :: rest).length) (buffer ++ b :: rest) (net.read n).2
              (by simp only [List.length_cons]; omega) (by omega) (by omega)
            refine ⟨b :: rest ++ got, net', ?_, ?_, ?_⟩
            · rw [readdataLoop, if_neg done, piece]
              simpa using ran
            · rw [List.append_assoc, left, whole]
            · rw [List.length_append]
              omega

/-- `readdata` hands out the next bytes, in order. -/
theorem readdata_consumes (bytes : List Byte) (fits : bytes.length ≤ FILEXFER) :
    Consumes Input.pending (readdata bytes.length) bytes bytes := by
  intro r rest next
  simp only [Input.pending] at next
  by_cases buffered : bytes.length ≤ r.data.length
  · have taken : r.data.take bytes.length = bytes := by
      have := congrArg (List.take bytes.length) next
      rwa [List.take_append_of_le_length buffered, List.take_left'] at this
      rfl
    have dropped : r.data.drop bytes.length ++ r.net.bytes = rest := by
      have := congrArg (List.drop bytes.length) next
      rwa [List.drop_append_of_le_length buffered, List.drop_left'] at this
      rfl
    exact ⟨⟨r.bufptr + bytes.length, r.data.drop bytes.length, r.net⟩,
      by rw [readdata, if_pos buffered, taken], dropped⟩
  · have total := congrArg List.length next
    simp only [List.length_append] at total
    obtain ⟨got, net', ran, left, count⟩ := readdataLoop_spec (bytes.length - r.data.length)
      FILEXFER (bytes.length - r.data.length) [] r.net (Nat.le_refl _) (by omega) (by omega)
    rw [List.nil_append] at ran
    have ahead : r.data ++ (got ++ net'.bytes) = bytes ++ rest := by rw [left, next]
    have taken : r.data ++ got.take (bytes.length - r.data.length) = bytes := by
      have := congrArg (List.take bytes.length) ahead
      rwa [List.take_append, List.take_of_length_le (by omega), List.take_append_of_le_length count,
        List.take_left'] at this
      rfl
    have dropped : got.drop (bytes.length - r.data.length) ++ net'.bytes = rest := by
      have := congrArg (List.drop bytes.length) ahead
      rwa [List.drop_append, List.drop_eq_nil_of_le (by omega), List.nil_append,
        List.drop_append_of_le_length count, List.drop_left'] at this
      rfl
    refine ⟨⟨bytes.length - r.data.length, got.drop (bytes.length - r.data.length), net'⟩, ?_,
      dropped⟩
    rw [readdata, if_neg buffered]
    simp only [ran, taken]

/-! ## What every input routine takes -/

section Taking

variable {w r : Endpoint}

theorem readdata_intBytes (w : Endpoint) (value : CInt) :
    Consumes Input.pending (readdata 4) (w.intBytes value) (w.intBytes value) := by
  have whole := readdata_consumes (w.intBytes value) (by rw [length_intBytes]; decide)
  rwa [length_intBytes] at whole

theorem readcount_consumes (peers : Peers w r) (value : CInt) :
    Consumes Input.pending (readcount r) (w.intBytes value) value := by
  have head := (readdata_intBytes w value).map r.bytesInt
  rwa [peers.bytesInt_intBytes] at head

theorem readmend_consumes (peers : Peers w r) :
    Consumes Input.pending (readmend r) (w.intBytes ENDCOUNT) () := by
  rw [← List.append_nil (w.intBytes ENDCOUNT)]
  refine (readdata_intBytes w ENDCOUNT).bind ?_
  rw [peers.bytesInt_intBytes, if_neg (not_not.mpr rfl)]
  exact .pure _

theorem readmsg_consumes (peers : Peers w r) (msg : CInt) :
    Consumes Input.pending (readmsg r msg) (w.intBytes msg) () := by
  rw [← List.append_nil (w.intBytes msg)]
  refine (readdata_intBytes w msg).bind ?_
  simp only [peers.bytesInt_intBytes, if_true]
  exact .pure _

theorem readmnull_consumes (peers : Peers w r) (msg : CInt) :
    Consumes Input.pending (readmnull r msg) (w.intBytes msg ++ w.intBytes ENDCOUNT) () :=
  (readmsg_consumes peers msg).bind (readmend_consumes peers)

theorem toNat_ofNat_count {n : Nat} (small : n < 2 ^ 31) : (BitVec.ofNat 32 n).toNat = n := by
  rw [BitVec.toNat_ofNat]
  exact Nat.mod_eq_of_lt (by omega)

theorem toInt_ofNat_count {n : Nat} (small : n < 2 ^ 31) : (BitVec.ofNat 32 n).toInt = n := by
  rw [BitVec.toInt_eq_toNat_of_lt (by rw [toNat_ofNat_count small]; omega),
    toNat_ofNat_count small]

theorem checkCount_consumes {n : Nat} (small : n < 2 ^ 31) :
    Consumes Input.pending (checkCount (BitVec.ofNat 32 n)) [] n := by
  rw [checkCount, toInt_ofNat_count small, if_neg (by omega), toNat_ofNat_count small]
  exact .pure n

/-- The count of a block, checked: what every routine for a block starts with. -/
theorem counted_consumes {α : Type} {n : Nat} {next : Nat → Recv α} {bytes : List Byte}
    {value : α} (peers : Peers w r) (small : n < 2 ^ 31)
    (tail : Consumes Input.pending (next n) bytes value) :
    Consumes Input.pending (readcount r >>= fun count => checkCount count >>= next)
      (w.intBytes (BitVec.ofNat 32 n) ++ bytes) value :=
  (readcount_consumes peers _).bind ((checkCount_consumes small).bind tail)

theorem readint_consumes (peers : Peers w r) (i : CInt) :
    Consumes Input.pending (readint r) (w.intBytes (BitVec.ofNat 32 4) ++ w.intBytes i) i := by
  refine counted_consumes peers (by decide) ?_
  have head := (readdata_intBytes w i).map r.bytesInt
  rw [peers.bytesInt_intBytes] at head
  exact head

theorem readstring_null (peers : Peers w r) :
    Consumes Input.pending (readstring r) (w.intBytes NULLCOUNT) none := by
  rw [← List.append_nil (w.intBytes NULLCOUNT)]
  refine (readcount_consumes peers NULLCOUNT).bind ?_
  rw [if_pos rfl]
  exact .pure _

theorem CString.ofMemory_data (p : CString) : CString.ofMemory p.data = p := by
  have all : p.data.takeWhile (· ≠ 0) = p.data := by
    refine List.takeWhile_eq_self_iff.mpr (fun b member => ?_)
    exact decide_eq_true (fun zero => p.noNul (zero ▸ member))
  cases p with
  | mk data noNul => simpa only [CString.ofMemory, CString.mk.injEq] using all

theorem readstring_consumes (peers : Peers w r) (p : CString) (fits : p.data.length ≤ FILEXFER) :
    Consumes Input.pending (readstring r)
      (w.intBytes (BitVec.ofNat 32 p.data.length) ++ w.cipher p.data) (some p) := by
  have small : p.data.length < 2 ^ 31 := Nat.lt_of_le_of_lt fits (by decide)
  have counted : BitVec.ofNat 32 p.data.length ≠ NULLCOUNT := by
    intro null
    have := toNat_ofNat_count small
    rw [null] at this
    exact absurd (this ▸ small) (by decide)
  refine (readcount_consumes peers _).bind ?_
  rw [if_neg counted]
  refine (checkCount_consumes small).bind ?_
  have head := (readdata_consumes (w.cipher p.data) (by rwa [length_cipher])).map
    (fun p => some (CString.ofMemory (r.cipher p)))
  rwa [length_cipher, peers.cipher_cipher, CString.ofMemory_data] at head

theorem XFERSIZE_eq (count : Nat) : XFERSIZE count = min FILEXFER count := by
  rw [XFERSIZE]
  split <;> omega

/-- The data of a file block: every `FILEXFER` bytes are ciphered on their own. -/
def fileBytes (w : Endpoint) : Nat → List Byte → List Byte
  | 0, _ => []
  | fuel + 1, content =>
      if content.take FILEXFER = [] then []
      else w.cipher (content.take FILEXFER) ++ fileBytes w fuel (content.drop FILEXFER)

theorem take_filexfer_eq_nil {content : List Byte} :
    content.take FILEXFER = [] ↔ content = [] := by
  simp [List.take_eq_nil_iff, FILEXFER]

/-- One round of the loop takes one block off the content. -/
theorem readdata_block (content : List Byte) :
    Consumes Input.pending (readdata (XFERSIZE content.length)) (w.cipher (content.take FILEXFER))
      (w.cipher (content.take FILEXFER)) := by
  have size : (w.cipher (content.take FILEXFER)).length = XFERSIZE content.length := by
    rw [length_cipher, List.length_take, XFERSIZE_eq]
  have head := readdata_consumes (w.cipher (content.take FILEXFER)) (by
    rw [length_cipher, List.length_take]
    exact Nat.min_le_left _ _)
  rwa [size] at head

theorem length_drop_block (content : List Byte) :
    content.length - XFERSIZE content.length = (content.drop FILEXFER).length := by
  rw [List.length_drop, XFERSIZE_eq]
  omega

theorem readfileLoop_consumes (peers : Peers w r) (fuel fuel' : Nat) (content out : List Byte)
    (enough : content.length ≤ fuel) (enough' : content.length < fuel') :
    Consumes Input.pending (readfileLoop r fuel content.length out) (fileBytes w fuel' content)
      (out ++ content) := by
  induction fuel generalizing fuel' content out with
  | zero =>
      obtain rfl := List.eq_nil_of_length_eq_zero (Nat.le_zero.mp enough)
      obtain ⟨fuel', rfl⟩ := Nat.exists_eq_succ_of_ne_zero (Nat.ne_of_gt enough')
      rw [fileBytes, if_pos (List.take_nil ..), List.append_nil]
      exact .pure _
  | succ fuel ih =>
      obtain ⟨fuel', rfl⟩ := Nat.exists_eq_succ_of_ne_zero (Nat.ne_of_gt (Nat.zero_lt_of_lt enough'))
      by_cases done : content = []
      · subst done
        rw [fileBytes, if_pos (List.take_nil ..), List.append_nil, readfileLoop, List.length_nil, if_pos rfl]
        exact .pure _
      · have positive := List.length_pos_of_ne_nil done
        rw [fileBytes, if_neg (mt take_filexfer_eq_nil.mp done), readfileLoop,
          if_neg (Nat.ne_of_gt positive)]
        refine (readdata_block content).bind ?_
        rw [length_drop_block, peers.cipher_cipher]
        have shorter : (content.drop FILEXFER).length < content.length := by
          rw [List.length_drop]
          exact Nat.sub_lt positive (by decide)
        have tail := ih fuel' (content.drop FILEXFER) (out ++ content.take FILEXFER)
          (by omega) (by omega)
        rwa [List.append_assoc, List.take_append_drop] at tail

/-- The bytes of a file block. -/
def fileBlock (w : Endpoint) (f : OpenFile) : List Byte :=
  w.intBytes (BitVec.ofNat 32 f.content.length) ++ fileBytes w (f.content.length + 1) f.content

theorem readfile_consumes (peers : Peers w r) (f : OpenFile) :
    Consumes Input.pending (readfile r) (fileBlock w f) f.content :=
  counted_consumes peers f.size_lt
    (readfileLoop_consumes peers _ _ f.content [] (Nat.le_refl _) (Nat.lt_succ_self _))

/-- The two loops read alike; only one keeps the data. -/
theorem readskipLoop_eq (fuel n : Nat) (out : List Byte) :
    readskipLoop fuel n = (readfileLoop r fuel n out >>= fun _ => pure ()) := by
  induction fuel generalizing n out with
  | zero => rfl
  | succ fuel ih =>
      rw [readskipLoop, readfileLoop]
      by_cases done : n = 0
      · rw [if_pos done, if_pos done]
        rfl
      · rw [if_neg done, if_neg done, bind_assoc]
        exact congrArg _ (funext fun buf => ih _ _)

/-- `readskip` passes over a file block as `readfile` does. -/
theorem readskip_consumes (peers : Peers w r) (f : OpenFile) :
    Consumes Input.pending (readskip r) (fileBlock w f) () := by
  refine counted_consumes peers f.size_lt ?_
  rw [@readskipLoop_eq r _ _ []]
  exact (readfileLoop_consumes peers _ _ f.content [] (Nat.le_refl _) (Nat.lt_succ_self _)).map
    (fun _ => ())

/-- The end marker is no block: whoever asks for one there is out of step. -/
theorem readskip_rejects_end (peers : Peers w r) :
    Rejects Input.pending (readskip r) (w.intBytes ENDCOUNT) := by
  rw [← List.append_nil (w.intBytes ENDCOUNT)]
  refine (readcount_consumes peers ENDCOUNT).bind_rejects (Rejects.bind ?_ _)
  intro state rest _
  exact ⟨_, rfl⟩

end Taking

/-! ## What every output routine adds -/

/-- Between messages: buffering is off. -/
def Output.Closed (out : Output) : Prop := out.bufptr = none

/-- Inside a message: one of the buffers is being filled. -/
def Output.Open (out : Output) : Prop := out.bufptr ≠ none

/-- What has been written, sent or still buffered. -/
def Output.emitted (out : Output) : List Byte :=
  match out.bufptr with
  | none => out.sent
  | some b => out.sent ++ out.buffers b

section Adding

variable (e : Endpoint)

/-- A piece of data that fits a buffer is added, whichever buffer takes it. -/
theorem writedata_produces {data : List Byte} (fits : data.length ≤ FILEXFER) :
    Produces Output.Open Output.Open Output.emitted (writedata data) data () := by
  intro out isOpen
  obtain ⟨b, current⟩ := Option.ne_none_iff_exists'.mp isOpen
  by_cases room : (out.buffers b).length + data.length ≤ FILEXFER
  · refine ⟨{ out with buffers := Function.update out.buffers b (out.buffers b ++ data) }, ?_,
      isOpen, ?_⟩
    · simp only [writedata, current, if_pos room]
    · simp only [Output.emitted, current, Function.update_self, List.append_assoc]
  · -- a full buffer is not empty, so the write that drains it sends something
    have full : out.buffers b ≠ [] := by
      intro empty
      rw [empty] at room
      exact room (by simpa using fits)
    refine ⟨⟨some !b, Function.update (Function.update out.buffers (!b) data) b [],
      out.sent ++ out.buffers b⟩, ?_, by simp [Output.Open], ?_⟩
    · simp only [writedata, current, if_neg room, if_neg (Nat.not_lt.mpr fits), netWrite,
        if_neg full]
    · have other : (!b) ≠ b := by simp
      simp only [Output.emitted, current, Function.update_of_ne other, Function.update_self]

theorem writedata_intBytes (value : CInt) :
    Produces Output.Open Output.Open Output.emitted (writedata (e.intBytes value))
      (e.intBytes value) () :=
  writedata_produces (by rw [length_intBytes]; decide)

theorem writeblock_produces {data : List Byte} (fits : data.length ≤ FILEXFER) :
    Produces Output.Open Output.Open Output.emitted (writeblock e data)
      (e.intBytes (BitVec.ofNat 32 data.length) ++ data) () :=
  (writedata_intBytes e _).bind (writedata_produces fits)

theorem writemsg_produces (msg : CInt) :
    Produces Output.Closed Output.Open Output.emitted (writemsg e msg) (e.intBytes msg) () := by
  intro out closed
  obtain ⟨out', ran, isOpen, added⟩ := writedata_intBytes e msg
    { out with bufptr := some false, buffers := Function.update out.buffers false [] } nofun
  refine ⟨out', ?_, isOpen, ?_⟩
  · simp only [writemsg, show out.bufptr = none from closed]
    exact ran
  · rw [added]
    simp only [Output.emitted, show out.bufptr = none from closed, Function.update_self,
      List.append_nil]

theorem writemend_produces :
    Produces Output.Open Output.Closed Output.emitted (writemend e) (e.intBytes ENDCOUNT) () := by
  intro out isOpen
  obtain ⟨out', ran, stillOpen, added⟩ := writedata_intBytes e ENDCOUNT out isOpen
  obtain ⟨b, current⟩ := Option.ne_none_iff_exists'.mp stillOpen
  have whole : out'.sent ++ out'.buffers b = out.emitted ++ e.intBytes ENDCOUNT := by
    rw [← added, Output.emitted, current]
  have unfolded : writemend e out =
      if out'.buffers b = [] then .ok ((), { out' with bufptr := none })
      else writedata (out'.buffers b) { out' with bufptr := none } := by
    simp only [writemend, bind, StateT.bind, Except.bind, ran, get, getThe, MonadStateOf.get,
      StateT.get, pure, Except.pure, current]
    show (if out'.buffers b = [] then StateT.pure () else writedata (out'.buffers b))
      { out' with bufptr := none } = _
    split <;> rfl
  by_cases empty : out'.buffers b = []
  · rw [empty, List.append_nil] at whole
    exact ⟨_, unfolded.trans (if_pos empty), rfl, whole⟩
  · refine ⟨⟨none, out'.buffers, out'.sent ++ out'.buffers b⟩, ?_, rfl, whole⟩
    rw [unfolded, if_neg empty]
    simp only [writedata, netWrite, if_neg empty]

theorem writemnull_produces (msg : CInt) :
    Produces Output.Closed Output.Closed Output.emitted (writemnull e msg)
      (e.intBytes msg ++ e.intBytes ENDCOUNT) () :=
  (writemsg_produces e msg).bind (writemend_produces e)

theorem writestring_produces {p : CString} (fits : p.data.length ≤ FILEXFER) :
    Produces Output.Open Output.Open Output.emitted (writestring e (some p))
      (e.intBytes (BitVec.ofNat 32 p.data.length) ++ e.cipher p.data) () := by
  have block := @writeblock_produces e (e.cipher p.data) (by rwa [length_cipher])
  rwa [length_cipher] at block

/-- Data that fits a buffer is added in this mode of the output side. -/
def Output.Takes (mode : Output → Prop) : Prop :=
  ∀ data : List Byte, data ≠ [] → data.length ≤ FILEXFER →
    Produces mode mode Output.emitted (writedata data) data ()

theorem open_takes : Output.Takes Output.Open := fun _ _ => writedata_produces

section Modes

variable {mode : Output → Prop} (takes : Output.Takes mode)
include takes

theorem Output.Takes.intBytes (value : CInt) :
    Produces mode mode Output.emitted (writedata (e.intBytes value)) (e.intBytes value) () := by
  have four := length_intBytes e value
  refine takes _ ?_ (by rw [four]; decide)
  intro empty
  rw [empty] at four
  exact absurd four (by decide)

theorem Output.Takes.writeint (i : CInt) :
    Produces mode mode Output.emitted (writeint e i)
      (e.intBytes (BitVec.ofNat 32 4) ++ e.intBytes i) () := by
  rw [Sup.writeint, writeblock, length_intBytes]
  exact (takes.intBytes e _).bind (takes.intBytes e i)

theorem Output.Takes.writefileLoop (fuel : Nat) (content : List Byte) (sum : Nat)
    (enough : content.length < fuel) :
    Produces mode mode Output.emitted (writefileLoop e fuel content sum)
      (fileBytes e fuel content) (sum + content.length) := by
  induction fuel generalizing content sum with
  | zero => exact absurd enough (Nat.not_lt_zero _)
  | succ fuel ih =>
      by_cases done : content = []
      · subst done
        exact .pure _
      · have positive := List.length_pos_of_ne_nil done
        have block := mt take_filexfer_eq_nil.mp done
        have size := List.length_take_le FILEXFER content
        have left : (content.drop FILEXFER).length < fuel := by
          rw [List.length_drop]
          have : 0 < FILEXFER := by decide
          omega
        have sent : e.cipher (content.take FILEXFER) ≠ [] := by
          rw [← List.length_pos_iff_ne_nil, length_cipher]
          exact List.length_pos_of_ne_nil block
        rw [Sup.writefileLoop, fileBytes, if_neg block, if_neg block]
        refine (takes _ sent (by rwa [length_cipher])).bind ?_
        have tail := ih (content.drop FILEXFER) (sum + (content.take FILEXFER).length) left
        rwa [Nat.add_assoc, ← List.length_append, List.take_append_drop] at tail

theorem Output.Takes.writefile (f : OpenFile) :
    Produces mode mode Output.emitted (writefile e f) (fileBlock e f) () := by
  refine (takes.intBytes e _).bind ?_
  rw [← List.append_nil (fileBytes e _ _)]
  refine (takes.writefileLoop e _ f.content 0 (Nat.lt_succ_self _)).bind ?_
  rw [Nat.zero_add, if_neg (not_not.mpr rfl)]
  exact .pure _

end Modes

theorem writeint_produces (i : CInt) :
    Produces Output.Open Output.Open Output.emitted (writeint e i)
      (e.intBytes (BitVec.ofNat 32 4) ++ e.intBytes i) () :=
  open_takes.writeint e i

theorem writefile_produces (f : OpenFile) :
    Produces Output.Open Output.Open Output.emitted (writefile e f) (fileBlock e f) () :=
  open_takes.writefile e f

end Adding

/-! ## Whole messages -/

/-- One thing a message can carry. -/
inductive Item where
  | int (i : CInt)
  | string (p : Option CString)
  | file (f : OpenFile)

/-- What the reader asks for. -/
inductive Kind where
  | int
  | string
  | file

/-- What the reader obtains. -/
inductive Value where
  | int (i : CInt)
  | string (p : Option CString)
  | file (content : List Byte)

namespace Item

def kind : Item → Kind
  | .int _ => .int
  | .string _ => .string
  | .file _ => .file

def value : Item → Value
  | .int i => .int i
  | .string p => .string p
  | .file f => .file f.content

/-- A string must fit a buffer. -/
def Fits : Item → Prop
  | .string (some p) => p.data.length ≤ FILEXFER
  | _ => True

/-- The bytes of an item on the wire. -/
def bytes (e : Endpoint) : Item → List Byte
  | .int i => e.intBytes (BitVec.ofNat 32 4) ++ e.intBytes i
  | .string none => e.intBytes NULLCOUNT
  | .string (some p) => e.intBytes (BitVec.ofNat 32 p.data.length) ++ e.cipher p.data
  | .file f => fileBlock e f

end Item

/-- A message number and what follows it. -/
structure Message where
  number : CInt
  items : List Item

namespace Message

def kinds (m : Message) : List Kind := m.items.map Item.kind

def values (m : Message) : List Value := m.items.map Item.value

def bytes (e : Endpoint) (m : Message) : List Byte :=
  e.intBytes m.number ++ (m.items.flatMap (Item.bytes e) ++ e.intBytes ENDCOUNT)

end Message

def writeitem (e : Endpoint) : Item → Send Unit
  | .int i => writeint e i
  | .string p => writestring e p
  | .file f => writefile e f

def writeitems (e : Endpoint) : List Item → Send Unit
  | [] => pure ()
  | item :: rest => do
      writeitem e item
      writeitems e rest

def writemessage (e : Endpoint) (m : Message) : Send Unit := do
  writemsg e m.number
  writeitems e m.items
  writemend e

def writemessages (e : Endpoint) : List Message → Send Unit
  | [] => pure ()
  | m :: rest => do
      writemessage e m
      writemessages e rest

def readitem (e : Endpoint) : Kind → Recv Value
  | .int => do
      let i ← readint e
      pure (.int i)
  | .string => do
      let p ← readstring e
      pure (.string p)
  | .file => do
      let content ← readfile e
      pure (.file content)

def readitems (e : Endpoint) : List Kind → Recv (List Value)
  | [] => pure []
  | kind :: rest => do
      let value ← readitem e kind
      let values ← readitems e rest
      pure (value :: values)

def readmessage (e : Endpoint) (number : CInt) (kinds : List Kind) : Recv (List Value) := do
  readmsg e number
  let values ← readitems e kinds
  readmend e
  pure values

def readmessages (e : Endpoint) : List (CInt × List Kind) → Recv (List (List Value))
  | [] => pure []
  | (number, kinds) :: rest => do
      let values ← readmessage e number kinds
      let others ← readmessages e rest
      pure (values :: others)

theorem writeitem_produces (e : Endpoint) {item : Item} (fits : item.Fits) :
    Produces Output.Open Output.Open Output.emitted (writeitem e item) (item.bytes e) () := by
  cases item with
  | int i => exact writeint_produces e i
  | string p =>
      cases p with
      | none => exact writedata_intBytes e NULLCOUNT
      | some p => exact writestring_produces e fits
  | file f => exact writefile_produces e f

theorem writeitems_produces (e : Endpoint) {items : List Item} (fits : ∀ i ∈ items, i.Fits) :
    Produces Output.Open Output.Open Output.emitted (writeitems e items)
      (items.flatMap (Item.bytes e)) () := by
  induction items with
  | nil => exact .pure _
  | cons item rest ih =>
      rw [List.flatMap_cons]
      exact (writeitem_produces e (fits item List.mem_cons_self)).bind
        (ih fun i member => fits i (List.mem_cons_of_mem _ member))

theorem writemessage_produces (e : Endpoint) {m : Message} (fits : ∀ i ∈ m.items, i.Fits) :
    Produces Output.Closed Output.Closed Output.emitted (writemessage e m) (m.bytes e) () :=
  (writemsg_produces e m.number).bind ((writeitems_produces e fits).bind (writemend_produces e))

theorem writemessages_produces (e : Endpoint) {msgs : List Message}
    (fits : ∀ m ∈ msgs, ∀ i ∈ m.items, i.Fits) :
    Produces Output.Closed Output.Closed Output.emitted (writemessages e msgs)
      (msgs.flatMap (Message.bytes e)) () := by
  induction msgs with
  | nil => exact .pure _
  | cons m rest ih =>
      rw [List.flatMap_cons]
      exact (writemessage_produces e (fits m List.mem_cons_self)).bind
        (ih fun i member => fits i (List.mem_cons_of_mem _ member))

section Peers

variable {w r : Endpoint} (peers : Peers w r)
include peers

theorem readitem_consumes {item : Item} (fits : item.Fits) :
    Consumes Input.pending (readitem r item.kind) (item.bytes w) item.value := by
  cases item with
  | int i => exact (readint_consumes peers i).map Value.int
  | string p =>
      cases p with
      | none => exact (readstring_null peers).map Value.string
      | some p => exact (readstring_consumes peers p fits).map Value.string
  | file f => exact (readfile_consumes peers f).map Value.file

theorem readitems_consumes {items : List Item} (fits : ∀ i ∈ items, i.Fits) :
    Consumes Input.pending (readitems r (items.map Item.kind)) (items.flatMap (Item.bytes w))
      (items.map Item.value) := by
  induction items with
  | nil => exact .pure _
  | cons item rest ih =>
      rw [List.flatMap_cons]
      refine (readitem_consumes peers (fits item List.mem_cons_self)).bind ?_
      exact (ih fun i member => fits i (List.mem_cons_of_mem _ member)).map (item.value :: ·)

theorem readmessage_consumes {m : Message} (fits : ∀ i ∈ m.items, i.Fits) :
    Consumes Input.pending (readmessage r m.number m.kinds) (m.bytes w) m.values := by
  refine (readmsg_consumes peers m.number).bind ?_
  refine (readitems_consumes peers fits).bind ?_
  exact (readmend_consumes peers).map (fun _ => m.values)

theorem readmessages_consumes {msgs : List Message} (fits : ∀ m ∈ msgs, ∀ i ∈ m.items, i.Fits) :
    Consumes Input.pending (readmessages r (msgs.map fun m => (m.number, m.kinds)))
      (msgs.flatMap (Message.bytes w)) (msgs.map Message.values) := by
  induction msgs with
  | nil => exact .pure _
  | cons m rest ih =>
      rw [List.flatMap_cons]
      refine (readmessage_consumes peers (fits m List.mem_cons_self)).bind ?_
      exact (ih fun i member => fits i (List.mem_cons_of_mem _ member)).map (m.values :: ·)

end Peers

/-- The writing and the reading side of one connection, either way round. The client never
swaps, the server does as `service` found out, and both call `netcrypt` alike. -/
inductive Connected (crypt : List Byte → List Byte) (pword : Option (List Byte)) :
    Endpoint → Endpoint → Prop where
  | toServer (client server : ByteOrder) (swapmode : Bool)
      (accepted : service server (client.store probe) = .ok swapmode) :
      Connected crypt pword ⟨client, false, netcrypt crypt pword⟩
        ⟨server, swapmode, netcrypt crypt pword⟩
  | toClient (client server : ByteOrder) (swapmode : Bool)
      (accepted : service server (client.store probe) = .ok swapmode) :
      Connected crypt pword ⟨server, swapmode, netcrypt crypt pword⟩
        ⟨client, false, netcrypt crypt pword⟩

theorem Connected.peers {crypt : List Byte → List Byte} {pword : Option (List Byte)}
    {w r : Endpoint} (connected : Connected crypt pword w r) : Peers w r := by
  cases connected with
  | toServer client server swapmode accepted =>
      rw [service_probe, Except.ok.injEq] at accepted
      exact ⟨rfl, .inl ⟨rfl, accepted.symm⟩⟩
  | toClient client server swapmode accepted =>
      rw [service_probe, Except.ok.injEq] at accepted
      refine ⟨rfl, .inr ⟨rfl, ?_⟩⟩
      simp only [← accepted, ne_comm]

/-- The output side before the first message. -/
def Output.start : Output := ⟨none, fun _ => [], []⟩

/-- The input side before the first read. -/
def Input.start (net : Stream Byte) : Input := ⟨0, [], net⟩

/-- Whatever sequence of messages one side writes, the other side reads back the same
values, however the connection cuts the bytes, and takes exactly what was written. -/
theorem messages_round_trip (crypt : List Byte → List Byte) (pword : Option (List Byte))
    (w r : Endpoint) (connected : Connected crypt pword w r) (msgs : List Message)
    (fits : ∀ m ∈ msgs, ∀ i ∈ m.items, i.Fits) (frag : Nat → Nat) :
    ∃ out input, writemessages w msgs Output.start = .ok ((), out) ∧ out.Closed ∧
      readmessages r (msgs.map fun m => (m.number, m.kinds)) (Input.start ⟨out.sent, frag⟩) =
        .ok (msgs.map Message.values, input) ∧
      input.pending = [] := by
  obtain ⟨out, wrote, closed, sent⟩ := writemessages_produces w fits Output.start rfl
  have all : out.sent = msgs.flatMap (Message.bytes w) := by
    simpa only [Output.emitted, show out.bufptr = none from closed, Output.start,
      List.nil_append] using sent
  obtain ⟨input, took, left⟩ := readmessages_consumes connected.peers fits
    (Input.start ⟨out.sent, frag⟩) [] (by simp [Input.pending, Input.start, all])
  exact ⟨out, input, wrote, closed, took, left⟩

/-- A null string, a string and a file from a little-endian client to a big-endian server,
one byte at a time. -/
theorem messages_round_trip_bytewise :
    ∃ out input,
      writemessages ⟨.little, false, none⟩
          [⟨7, [.int 5, .string none, .string (some ⟨[97, 98], by decide⟩),
            .file ⟨[1, 0, 2], by decide⟩]⟩] Output.start = .ok ((), out) ∧ out.Closed ∧
      readmessages ⟨.big, true, none⟩ [(7, [.int, .string, .string, .file])]
          (Input.start ⟨out.sent, fun _ => 0⟩) =
        .ok ([[.int 5, .string none, .string (some ⟨[97, 98], by decide⟩), .file [1, 0, 2]]],
          input) ∧
      input.pending = [] :=
  messages_round_trip id none _ _ (.toServer .little .big true (by rfl))
    [⟨7, [.int 5, .string none, .string (some ⟨[97, 98], by decide⟩),
      .file ⟨[1, 0, 2], by decide⟩]⟩]
    (by
      intro m member i inside
      simp only [List.mem_singleton] at member
      subst member
      simp only [List.mem_cons, List.not_mem_nil, or_false] at inside
      rcases inside with rfl | rfl | rfl | rfl
      · trivial
      · trivial
      · exact (by decide : 2 ≤ FILEXFER)
      · trivial)
    (fun _ => 0)

end MachFormal.Sup
