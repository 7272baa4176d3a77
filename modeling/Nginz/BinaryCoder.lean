import Nginz.AroopTxt
import Nginz.Lib.BigEndian
import Nginz.Lib.Framing

/-! The extended binary coder: packing typed fields behind 16-bit lengths, and the
unpack loop with its 8-bit cursor. -/
namespace Nginz

def binaryContentString : UInt8 := 1
def binaryContentInteger : UInt8 := 2

/-- `BINARY_CODER_HEADER_LEN`. -/
def binaryCoderHeaderLen : ℕ := 3

/-- `NGINZ_MAX_BINARY_MSG_LEN`. -/
def nginzMaxBinaryMsgLen : ℕ := 1024

/-! ### Packing -/

/-- The capacity of at least 256 bytes that `binary_coder_reset` asserts is a
hypothesis of the results below. -/
def binaryCoderReset (L : TxtLib) (buffer : AroopTxt) : AroopTxt :=
  ((buffer.setLength 0).concatChar L 0).concatChar L 2

def binarySetHeader (contentType : UInt8) (len : ℕ) : UInt8 × UInt8 × UInt8 :=
  (contentType, UInt8.ofNat ((len &&& 0xFF00) >>> 8), UInt8.ofNat (len &&& 0x00FF))

/-- The return code and the buffer afterwards. -/
def binaryPackStringHelper (L : TxtLib) (buffer : AroopTxt) (x : Bytes) (contentType : UInt8) :
    ℤ × AroopTxt :=
  let blen := buffer.len % 65536
  if x.length + blen + binaryCoderHeaderLen > buffer.capacity then
    (-1, buffer)
  else
    let len := x.length % 65536
    let str := binarySetHeader contentType len
    let headed := ((buffer.concatChar L str.1).concatChar L str.2.1).concatChar L str.2.2
    let packed := headed.concat L x
    let blen := packed.len % 65536
    -- update the base header
    (0, (packed.setCharAt 0 (UInt8.ofNat ((blen &&& 0xFF00) >>> 8))).setCharAt 1
      (UInt8.ofNat (blen &&& 0x00FF)))

/-- The bytes left in `intbuf`; an `int` is read through its 32 bits. -/
def intbuf (intval : ℤ) : Bytes :=
  let bits := (intval % 2 ^ 32).toNat
  (if intval ≥ 0xFFFF then
    [UInt8.ofNat ((bits &&& 0xFF000000) >>> 24), UInt8.ofNat ((bits &&& 0x00FF0000) >>> 16)]
  else []) ++
  [UInt8.ofNat ((bits &&& 0xFF00) >>> 8), UInt8.ofNat (bits &&& 0x00FF)]

def binaryPackInt (L : TxtLib) (buffer : AroopTxt) (intval : ℤ) : ℤ × AroopTxt :=
  binaryPackStringHelper L buffer (intbuf intval) binaryContentInteger

def binaryPackString (L : TxtLib) (buffer : AroopTxt) (x : Bytes) : ℤ × AroopTxt :=
  binaryPackStringHelper L buffer x binaryContentString

/-- The return code of the pack is dropped, as in the source. -/
def binaryCoderResetForPid (L : TxtLib) (buffer : AroopTxt) (srcpid : ℤ) : AroopTxt :=
  (binaryPackInt L (binaryCoderReset L buffer) srcpid).2

/-! ### Unpacking -/

/-- Return code `0`, return code `-1`, or a failed assertion. -/
inductive UnpackStatus where
  | ok | failed | aborted
  deriving DecidableEq, Repr

/-- A part of the buffer a text value points to. -/
structure Window where
  start : ℕ
  len : ℕ
  deriving DecidableEq, Repr

def Window.none : Window := ⟨0, 0⟩

def Window.text (w : Window) (buffer : AroopTxt) : AroopTxt := ⟨buffer.mem.drop w.start, w.len⟩

/-- What an unpack call does: its status, the text it leaves in `x`, and the indices
of the buffer it reads on the way. -/
structure Unpacked where
  status : UnpackStatus
  window : Window
  touched : List ℕ
  deriving DecidableEq, Repr

def binaryGetHeader (header : AroopTxt) (offset : ℕ) : UInt8 × ℕ :=
  (header.rawAt offset,
    (header.rawAt (offset + 1)).toNat <<< 8 ||| ((header.rawAt (offset + 2)).toNat &&& 0xFF))

/-- The indices `binary_get_header` reads. -/
def headerIndices (offset : ℕ) : List ℕ := [offset, offset + 1, offset + 2]

/-- The `do ... while(pos < blen)` loop; `pos` is a `uint8_t`, so every assignment to
it is taken modulo 256, while the sums in the comparisons are `int`s. -/
def binaryUnpackLoop (buffer : AroopTxt) (blen : ℕ) (expectedContentType : UInt8) :
    ℕ → ℕ → Unpacked
  | 0, pos =>
    let h := binaryGetHeader buffer pos
    if pos + h.2 > blen then
      ⟨.failed, .none, headerIndices pos⟩
    else if h.1 ≠ expectedContentType then
      ⟨.aborted, .none, headerIndices pos⟩
    else
      ⟨.ok, ⟨(pos + binaryCoderHeaderLen) % 256, h.2⟩, headerIndices pos⟩
  | skip + 1, pos =>
    let h := binaryGetHeader buffer pos
    if pos + h.2 > blen then
      ⟨.failed, .none, headerIndices pos⟩
    else
      let pos' := (pos + h.2 + binaryCoderHeaderLen) % 256
      if pos' < blen then
        let rest := binaryUnpackLoop buffer blen expectedContentType skip pos'
        { rest with touched := headerIndices pos ++ rest.touched }
      else
        ⟨.ok, .none, headerIndices pos⟩

/-- The length in the message header. -/
def headerLength (buffer : AroopTxt) : ℕ :=
  (buffer.rawAt 0).toNat <<< 8 ||| (buffer.rawAt 1).toNat

def binaryUnpackStringHelper (buffer : AroopTxt) (skip : ℕ) (expectedContentType : UInt8) :
    Unpacked :=
  let blen := buffer.len % 65536
  if blen < binaryCoderHeaderLen - 1 then
    ⟨.aborted, .none, []⟩
  else if blen = binaryCoderHeaderLen - 1 then
    ⟨.ok, .none, []⟩
  else
    -- do not trust the length of the text, use the header
    let blen := headerLength buffer
    if blen > buffer.len then
      ⟨.aborted, .none, [0, 1]⟩
    else
      let rest := binaryUnpackLoop buffer blen expectedContentType skip 2
      { rest with touched := [0, 1] ++ rest.touched }

def binaryUnpackString (buffer : AroopTxt) (skip : ℕ) : Unpacked :=
  binaryUnpackStringHelper buffer skip binaryContentString

/-- The text a successful or failed call leaves in `x`. -/
def Unpacked.text (u : Unpacked) (buffer : AroopTxt) : AroopTxt := u.window.text buffer

/-- An `int` from its 32 bits. -/
def intOfBits (n : ℕ) : ℤ := Int.bmod n (2 ^ 32)

/-- The branches on `x.len` of `binary_unpack_int`. -/
def intOfText (x : AroopTxt) : ℤ :=
  let output := if 1 ≤ x.len then (x.rawAt 0).toNat else 0
  let output := if 2 ≤ x.len then output <<< 8 ||| ((x.rawAt 1).toNat &&& 0xFF) else output
  let output := if 3 ≤ x.len then output <<< 8 ||| ((x.rawAt 2).toNat &&& 0xFF) else output
  let output := if x.len = 4 then output <<< 8 ||| ((x.rawAt 3).toNat &&& 0xFF) else output
  intOfBits output

/-- The status and the value of `*intval` afterwards, which was `old` before. -/
def binaryUnpackInt (buffer : AroopTxt) (skip : ℕ) (old : ℤ) : UnpackStatus × ℤ :=
  let u := binaryUnpackStringHelper buffer skip binaryContentInteger
  match u.status with
  | .ok => (.ok, intOfText (u.text buffer))
  | s => (s, old)

/-- The bytes an unpack call leaves in a fresh text when its return code is dropped;
`none` when an assertion fails. -/
def unpackedString (buffer : AroopTxt) (skip : ℕ) : Option Bytes :=
  let u := binaryUnpackString buffer skip
  if u.status = .aborted then none else some (u.text buffer).content

/-- The same for an `int` initialised with zero. -/
def unpackedInt (buffer : AroopTxt) (skip : ℕ) : Option ℤ :=
  let r := binaryUnpackInt buffer skip 0
  if r.1 = .aborted then none else some r.2

def binaryCoderFixup (buffer : AroopTxt) : AroopTxt :=
  if headerLength buffer ≠ buffer.len then buffer.setLength (headerLength buffer) else buffer

/-! ### Messages -/

/-- A field given to one of the pack calls. -/
inductive Field where
  | str (s : Bytes)
  | int (v : ℤ)
  deriving DecidableEq, Repr

namespace Field

def contentType : Field → UInt8
  | str _ => binaryContentString
  | int _ => binaryContentInteger

def body : Field → Bytes
  | str s => s
  | int v => intbuf v

/-- The bytes a field occupies in a message. -/
def frame (f : Field) : Bytes := f.contentType :: BigEndian.digits 2 f.body.length ++ f.body

/-- An `int` field holds a value of the non-negative `int` range. -/
def InRange : Field → Prop
  | str _ => True
  | int v => 0 ≤ v ∧ v < 2 ^ 31

instance : DecidablePred InRange := fun f => by
  cases f <;> simp only [InRange] <;> infer_instance

@[simp] theorem frame_length (f : Field) : f.frame.length = f.body.length + 3 := by
  simp only [frame, List.length_cons, List.length_append, BigEndian.digits_length]
  omega

end Field

/-- The pack call for a field. -/
def packField (L : TxtLib) (buffer : AroopTxt) : Field → ℤ × AroopTxt
  | .str s => binaryPackString L buffer s
  | .int v => binaryPackInt L buffer v

/-- Successive pack calls; `none` as soon as one does not return `0`. -/
def packFields (L : TxtLib) : AroopTxt → List Field → Option AroopTxt
  | buffer, [] => some buffer
  | buffer, f :: fs =>
    let r := packField L buffer f
    if r.1 = 0 then packFields L r.2 fs else none

/-- The length of the message made of the given fields. -/
def packedLength (fs : List Field) : ℕ := 2 + (fs.map fun f => f.body.length + 3).sum

/-- The bytes of the message made of the given fields. -/
def message (fs : List Field) : Bytes :=
  BigEndian.digits 2 (packedLength fs) ++ Framing.encode Field.frame fs

end Nginz
