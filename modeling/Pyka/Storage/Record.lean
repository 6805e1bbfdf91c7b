import Pyka.Base.Crc32
import Pyka.Storage.Types

/-!
# Records

The on-disk layout, Kafka v1 minus magic, attributes and compression:

    offset     int64   logical position in the partition
    size       uint32  number of bytes after this field
    crc        uint32  crc32 over timestamp..value
    timestamp  int64   epoch milliseconds
    klen       int32   -1 = null key, 0 = present but empty
    vlen       int32   -1 = null value
    key        bytes
    value      bytes

`Record.encode` writes it, `Record.decode` reads it at a position of a buffer
and `Record.readOne` takes it off a stream. Everything fallible returns the
exception the code raises.

## What the checksum covers

The checksum is over timestamp, lengths, key and value, and over neither the
offset nor the size. A frame whose offset is changed still decodes, with
another offset; one whose size is changed is cut at another place, and what is
read there is checked or not depending on where the bytes end. The two fields
are what the layers above have to check for themselves, the offset against the
one they expect and the size against the file.

## Two ways to stop

`readOne` answers `none` where the stream ends before the frame does, which is
how a torn tail looks, and raises where the bytes are all there and wrong.
Which of the two it is depends on the size field. A size above `maxSize` is
refused before anything else is read, so that damage to the size field does
not make a reader allocate what the field claims.
-/

namespace Pyka

open Struct (Bytes Field)
open Crc32 (crc32)

/-- A record as the log stores it; a value of `none` is a tombstone. -/
structure Record where
  offset : ℤ
  timestamp : ℤ
  key : Option Bytes
  value : Option Bytes
  deriving DecidableEq, Repr

/-- A binary stream opened for reading: the file's bytes and how far it has
been read. -/
structure Stream where
  content : Bytes
  pos : ℕ
  deriving DecidableEq, Repr

namespace Stream

/-- Read at most `n` bytes: fewer where the file ends, and none behind its
end. -/
def read (f : Stream) (n : ℕ) : Bytes × Stream :=
  let bs := (f.content.drop f.pos).take n
  (bs, { f with pos := f.pos + bs.length })

/-- Move to an absolute position, which may lie behind the end. -/
def seek (f : Stream) (pos : ℕ) : Stream := { f with pos := pos }

/-- What is left to read. -/
def rest (f : Stream) : Bytes := f.content.drop f.pos

end Stream

/-- A number as Python's `#x` format writes it. -/
def hex (n : ℕ) : String := "0x" ++ String.ofList (Nat.toDigits 16 n)

namespace Record

/-- `>qI`: offset and size, what a reader needs to know how much to read. -/
def prefixFmt : List Field := [.q, .I]

/-- `>qIIqii`: offset, size, crc, timestamp, klen, vlen. -/
def headerFmt : List Field := [.q, .I, .I, .q, .i, .i]

/-- `>qii`: timestamp, klen, vlen – the fixed part the crc covers. -/
def crcBodyFmt : List Field := [.q, .i, .i]

/-- The size of `prefixFmt`. -/
def prefixSize : ℕ := 12

/-- The size of `headerFmt`. -/
def headerSize : ℕ := 32

/-- The `klen` and `vlen` of what is absent. -/
def null : ℤ := -1

/-- Any claimed `size` above this is rejected, by the reader and, so that it
need not be, by the writer. -/
def maxSize : ℕ := 1 <<< 20

/-- The declared length of an optional payload. -/
def lengthField : Option Bytes → ℤ
  | some bs => bs.length
  | none => null

/-- The payload a declared length says is there: -1 means absent, not
empty, so the length decides and never the bytes. -/
def payload (len : ℤ) (bs : Bytes) : Option Bytes :=
  if len ≠ null then some bs else none

section Codec

variable [Crc32]

/-- The checksum over timestamp, klen, vlen, key and value, fed in three
pieces. -/
def checksum (crcBody keyBytes valueBytes : Bytes) : BitVec 32 :=
  crc32 valueBytes (crc32 keyBytes (crc32 crcBody 0))

/-- **The bytes of a record**, or the refusal to write it: `struct.error`
for a field out of its range, `ValueError` for a record no reader would
accept. -/
def encode (r : Record) : Except PyError Bytes := do
  let keyBytes := r.key.getD []
  let valueBytes := r.value.getD []
  let klen := lengthField r.key
  let vlen := lengthField r.value
  let crcBody ← structPack crcBodyFmt [r.timestamp, klen, vlen]
  let crcPack ← structPack [.I] [(checksum crcBody keyBytes valueBytes).toNat]
  let size := 4 + Struct.calcsize crcBodyFmt + keyBytes.length + valueBytes.length
  raiseIf (size > maxSize) (.valueError
    (s!"record is {size} bytes, over the {maxSize} limit "
      ++ s!"(key={keyBytes.length}, value={valueBytes.length})"))
  let head ← structPack prefixFmt [r.offset, size]
  return head ++ crcPack ++ crcBody ++ keyBytes ++ valueBytes

/-- The length of the encoding, without encoding. An absent payload and an
empty one take no bytes alike. -/
def size (r : Record) : ℕ :=
  headerSize
    + (match r.key with | some key => key.length | none => 0)
    + (match r.value with | some value => value.length | none => 0)

/-- **The record at a position of a buffer.** A size field below the 20
bytes of crc, timestamp and lengths reaches the unpacking calls with too
few bytes, and what those raise is `struct.error`. -/
def decode (buf : Bytes) (pos : ℕ) : Except PyError Record := do
  let [offset, size] ← structUnpackFrom prefixFmt buf pos | throw .structError
  raiseIf (size > maxSize)
    (.corruptRecord s!"size {size} exceeds MAX_SIZE at pos {pos}")
  let left : ℤ := (buf.length : ℤ) - pos - prefixSize
  raiseIf (pos + prefixSize + size > buf.length)
    (.corruptRecord s!"record at pos {pos} claims {size} bytes, buffer has {left}")
  let [crcExpected] ← structUnpackFrom [.I] buf (pos + prefixSize) | throw .structError
  let bodyStart := pos + prefixSize + 4
  let bodyLen := Struct.calcsize crcBodyFmt
  let crcBody := slice buf bodyStart (bodyStart + bodyLen)
  let [timestamp, klen, vlen] ← structUnpack crcBodyFmt crcBody | throw .structError
  raiseIf (klen < null ∨ vlen < null)
    (.corruptRecord s!"negative length at pos {pos}: klen={klen}, vlen={vlen}")
  let keyLen := (max klen 0).toNat
  let valueLen := (max vlen 0).toNat
  -- the declared size and the field lengths must agree
  let expected := 4 + bodyLen + keyLen + valueLen
  raiseIf ((expected : ℤ) ≠ size) (.corruptRecord
    s!"record at pos {pos}: size field says {size}, fields total {expected}")
  let keyStart := pos + headerSize
  let keyBytes := slice buf keyStart (keyStart + keyLen)
  let valueBytes := slice buf (keyStart + keyLen) (keyStart + keyLen + valueLen)
  let crcActual := (checksum crcBody keyBytes valueBytes).toNat
  raiseIf ((crcActual : ℤ) ≠ crcExpected) (.corruptRecord
    s!"crc mismatch at pos {pos}: {hex crcActual} != {hex crcExpected.toNat}")
  return { offset, timestamp, key := payload klen keyBytes, value := payload vlen valueBytes }

/-- **Take one record off a stream**: `none` is the end of the stream, clean
or torn. The stream is not rewound, so a caller that wants to know where the
last whole record ended has to keep count. -/
def readOne (f : Stream) : Except PyError (Option Record) × Stream :=
  let (head, f) := f.read prefixSize
  if head.length < prefixSize then (.ok none, f)
  else
    match structUnpack prefixFmt head with
    | .ok [_, size] =>
      if size > maxSize then
        (.error (.corruptRecord s!"size {size} exceeds MAX_SIZE"), f)
      else
        let (rest, f) := f.read size.toNat
        if rest.length < size.toNat then (.ok none, f)
        else ((decode (head ++ rest) 0).map some, f)
    | _ => (.error .structError, f)

end Codec

end Record

end Pyka
