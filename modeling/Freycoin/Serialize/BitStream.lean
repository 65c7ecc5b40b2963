import Mathlib.Data.Nat.Notation

/-! `BitStreamWriter` and `BitStreamReader` of `streams.h`: bits written and read a few at a
time, most significant bit first, through a one-byte buffer.

A read past the end throws `std::ios_base::failure`. Each `while` loop takes the number of bits
left to move as fuel. -/

namespace Freycoin.Serialize

/-- What `Read` and `Write` throw for a width above 64. -/
def nbitsOutOfRange : String := "nbits must be between 0 and 64"

/-- What reading past the end of a `SpanReader` throws. -/
def spanEndOfData : String := "SpanReader::read(): end of data"

/-- `BitStreamWriter`: the bytes written to the stream so far, the buffered byte, and
`m_offset`, how many of its high bits are written. -/
structure BitStreamWriter where
  out : List UInt8
  buffer : UInt8
  offset : ℕ

namespace BitStreamWriter

/-- A writer on a stream that has received `out`. -/
def init (out : List UInt8) : BitStreamWriter := ⟨out, 0, 0⟩

/-- `Flush()`: the buffered byte goes out, its unwritten bits zero. -/
def flush (w : BitStreamWriter) : BitStreamWriter :=
  if w.offset = 0 then w else ⟨w.out ++ [w.buffer], 0, 0⟩

/-- The `while (nbits > 0)` loop of `Write`: the next `bits` high bits of the `nbits` low bits
of `data` go below those already in the buffer. -/
def writeLoop (data : UInt64) : ℕ → BitStreamWriter → ℕ → BitStreamWriter
  | 0, w, _ => w
  | fuel + 1, w, nbits =>
    if 0 < nbits then
      let bits := min (8 - w.offset) nbits
      let buffer :=
        (w.buffer.toUInt64 ||| (data <<< (64 - nbits).toUInt64) >>> (64 - 8 + w.offset).toUInt64).toUInt8
      let w : BitStreamWriter := ⟨w.out, buffer, w.offset + bits⟩
      let w := if w.offset = 8 then w.flush else w
      writeLoop data fuel w (nbits - bits)
    else w

/-- `Write(data, nbits)`: the `nbits` low bits of `data`. -/
def write (w : BitStreamWriter) (data : UInt64) (nbits : ℕ) : Except String BitStreamWriter :=
  if 64 < nbits then .error nbitsOutOfRange else .ok (writeLoop data nbits w nbits)

end BitStreamWriter

/-- `BitStreamReader`: the bytes left in the stream, the buffered byte, and `m_offset`, how many
of its high bits are read; 8 when a new byte is due. -/
structure BitStreamReader where
  input : List UInt8
  buffer : UInt8
  offset : ℕ

namespace BitStreamReader

/-- A reader on a stream holding `input`. -/
def init (input : List UInt8) : BitStreamReader := ⟨input, 0, 8⟩

/-- `m_istream >> m_buffer` once the buffered byte is used up. -/
def refill (r : BitStreamReader) : Except String BitStreamReader :=
  if r.offset = 8 then
    match r.input with
    | [] => .error spanEndOfData
    | byte :: rest => .ok ⟨rest, byte, 0⟩
  else .ok r

/-- The `while (nbits > 0)` loop of `Read`: `data` takes the next `bits` bits of the buffer. -/
def readLoop : ℕ → BitStreamReader → UInt64 → ℕ → Except String (UInt64 × BitStreamReader)
  | 0, r, data, _ => .ok (data, r)
  | fuel + 1, r, data, nbits =>
    if 0 < nbits then do
      let r ← r.refill
      let bits := min (8 - r.offset) nbits
      let data := (data <<< bits.toUInt64) |||
        ((r.buffer <<< r.offset.toUInt8) >>> (8 - bits).toUInt8).toUInt64
      readLoop fuel ⟨r.input, r.buffer, r.offset + bits⟩ data (nbits - bits)
    else .ok (data, r)

/-- How many bits are left to read, in the buffer and in the stream. -/
def bitsLeft (r : BitStreamReader) : ℕ := 8 * r.input.length + (8 - r.offset)

/-- `Read(nbits)`: the next `nbits` bits, in the low bits of the result. -/
def read (r : BitStreamReader) (nbits : ℕ) : Except String (UInt64 × BitStreamReader) :=
  if 64 < nbits then .error nbitsOutOfRange else readLoop nbits r 0 nbits

end BitStreamReader

end Freycoin.Serialize
