import Freycoin.Library.LittleEndian
import Freycoin.Library.PrefixCode

/-! CompactSize, the length prefix of `serialize.h`.

A stream is the list of bytes still to be read; a read returns its value and the rest, or the
text of the exception it throws. -/

namespace Freycoin.Serialize

open LittleEndian

/-- What reading past the end of a `DataStream` throws. -/
def endOfData : String := "DataStream::read(): end of data"

/-- `ser_writedataN` for the `width`-byte integer type: the value converted to that type,
least significant byte first. -/
def serWritedata (width n : Nat) : List UInt8 := leBytes width n

/-- `ser_readdataN` for the `width`-byte integer type. -/
def serReaddata (width : Nat) (stream : List UInt8) : Except String (Nat × List UInt8) :=
  if width ≤ stream.length then .ok (leValue (stream.take width), stream.drop width)
  else .error endOfData

def maxSize : Nat := 0x02000000

def getSizeOfCompactSize (nSize : UInt64) : Nat :=
  if nSize < 253 then 1
  else if nSize ≤ 0xFFFF then 1 + 2
  else if nSize ≤ 0xFFFFFFFF then 1 + 4
  else 1 + 8

def writeCompactSize (nSize : UInt64) : List UInt8 :=
  if nSize < 253 then serWritedata 1 nSize.toNat
  else if nSize ≤ 0xFFFF then serWritedata 1 253 ++ serWritedata 2 nSize.toNat
  else if nSize ≤ 0xFFFFFFFF then serWritedata 1 254 ++ serWritedata 4 nSize.toNat
  else serWritedata 1 255 ++ serWritedata 8 nSize.toNat

/-- The payload of one of the three long forms: `width` bytes, refused as non-canonical
below `minimum`, the least value that form is written for. -/
def readCanonical (width minimum : Nat) (stream : List UInt8) :
    Except String (Nat × List UInt8) := do
  let (nSizeRet, stream) ← serReaddata width stream
  if nSizeRet < minimum then throw "non-canonical ReadCompactSize()"
  pure (nSizeRet, stream)

def readCompactSize (rangeCheck : Bool) (stream : List UInt8) :
    Except String (UInt64 × List UInt8) := do
  let (chSize, stream) ← serReaddata 1 stream
  let (nSizeRet, stream) ←
    if chSize < 253 then pure (chSize, stream)
    else if chSize = 253 then readCanonical 2 253 stream
    else if chSize = 254 then readCanonical 4 0x10000 stream
    else readCanonical 8 0x100000000 stream
  if rangeCheck = true ∧ nSizeRet > maxSize then throw "ReadCompactSize(): size too large"
  pure (UInt64.ofNat nSizeRet, stream)

section Fixed

theorem serReaddata_append {width : Nat} {bytes : List UInt8} (rest : List UInt8)
    (length : bytes.length = width) :
    serReaddata width (bytes ++ rest) = .ok (leValue bytes, rest) := by
  subst length
  simp [serReaddata]

@[simp] theorem serReaddata_serWritedata (width n : Nat) (rest : List UInt8) :
    serReaddata width (serWritedata width n ++ rest) = .ok (n % 256 ^ width, rest) := by
  rw [serWritedata, serReaddata_append rest (length_leBytes width n), leValue_leBytes]

@[simp] theorem serReaddata_one_cons (byte : UInt8) (stream : List UInt8) :
    serReaddata 1 (byte :: stream) = .ok (byte.toNat, stream) := by
  simp [serReaddata, leValue_cons]

theorem serReaddata_eq_ok {width : Nat} {stream : List UInt8} {value : Nat}
    {rest : List UInt8} (read : serReaddata width stream = .ok (value, rest)) :
    value < 256 ^ width ∧ stream = serWritedata width value ++ rest := by
  unfold serReaddata at read
  split at read
  · rename_i long
    cases read
    have taken : (stream.take width).length = width := List.length_take_of_le long
    have bound := leValue_lt (stream.take width)
    rw [taken] at bound
    have back := leBytes_leValue (stream.take width)
    rw [taken] at back
    exact ⟨bound, by rw [serWritedata, back, List.take_append_drop]⟩
  · cases read

theorem readCanonical_serWritedata {width minimum n : Nat} (least : minimum ≤ n)
    (fits : n < 256 ^ width) (rest : List UInt8) :
    readCanonical width minimum (serWritedata width n ++ rest) = .ok (n, rest) := by
  simp [readCanonical, Nat.mod_eq_of_lt fits, Nat.not_lt.mpr least]

theorem readCanonical_eq_ok {width minimum : Nat} {stream : List UInt8} {value : Nat}
    {rest : List UInt8} (read : readCanonical width minimum stream = .ok (value, rest)) :
    minimum ≤ value ∧ value < 256 ^ width ∧ stream = serWritedata width value ++ rest := by
  unfold readCanonical at read
  cases payload : serReaddata width stream with
  | error message => simp [payload] at read
  | ok result =>
    obtain ⟨nSizeRet, after⟩ := result
    obtain ⟨fits, written⟩ := serReaddata_eq_ok payload
    by_cases small : nSizeRet < minimum
    · simp [payload, small] at read
    · simp only [payload, small, PrefixCode.ok_bind, if_false, PrefixCode.pure_eq_ok,
        Except.ok.injEq, Prod.mk.injEq] at read
      obtain ⟨rfl, rfl⟩ := read
      exact ⟨Nat.not_lt.mp small, fits, written⟩

end Fixed

section Compact

open PrefixCode

theorem length_writeCompactSize (nSize : UInt64) :
    (writeCompactSize nSize).length = getSizeOfCompactSize nSize := by
  unfold writeCompactSize getSizeOfCompactSize
  split_ifs <;> simp [serWritedata]

theorem readCompactSize_writeCompactSize (rangeCheck : Bool) (nSize : UInt64)
    (rest : List UInt8) :
    readCompactSize rangeCheck (writeCompactSize nSize ++ rest) =
      if rangeCheck = true ∧ nSize.toNat > maxSize then .error "ReadCompactSize(): size too large"
      else .ok (nSize, rest) := by
  have bound := nSize.toNat_lt
  unfold writeCompactSize
  simp only [UInt64.lt_iff_toNat_lt, UInt64.le_iff_toNat_le, UInt64.reduceToNat]
  by_cases small : nSize.toNat < 253
  · rw [if_pos small]
    simp [readCompactSize, serWritedata, leBytes, Nat.mod_eq_of_lt (show nSize.toNat < 256 by omega),
      small]
  by_cases medium : nSize.toNat ≤ 0xFFFF
  · rw [if_neg small, if_pos medium, List.append_assoc]
    simp [readCompactSize, readCanonical_serWritedata (show 253 ≤ nSize.toNat by omega)
      (show nSize.toNat < 256 ^ 2 by omega)]
  by_cases large : nSize.toNat ≤ 0xFFFFFFFF
  · rw [if_neg small, if_neg medium, if_pos large, List.append_assoc]
    simp [readCompactSize, readCanonical_serWritedata (show 0x10000 ≤ nSize.toNat by omega)
      (show nSize.toNat < 256 ^ 4 by omega)]
  · rw [if_neg small, if_neg medium, if_neg large, List.append_assoc]
    simp [readCompactSize, readCanonical_serWritedata (show 0x100000000 ≤ nSize.toNat by omega)
      (show nSize.toNat < 256 ^ 8 by omega)]

theorem rangeChecked_eq_ok {rangeCheck : Bool} {nSizeRet : Nat} {stream rest : List UInt8}
    {value : UInt64}
    (read : (if rangeCheck = true ∧ nSizeRet > maxSize then
        (throw "ReadCompactSize(): size too large" : Except String (UInt64 × List UInt8))
      else pure (UInt64.ofNat nSizeRet, stream)) = .ok (value, rest)) :
    value = UInt64.ofNat nSizeRet ∧ rest = stream := by
  split at read
  · simp at read
  · simp only [pure_eq_ok, Except.ok.injEq, Prod.mk.injEq] at read
    exact ⟨read.1.symm, read.2.symm⟩

theorem serWritedata_one_toNat (byte : UInt8) : serWritedata 1 byte.toNat = [byte] := by
  simp [serWritedata, leBytes]

theorem writeCompactSize_ofNat {nSize : Nat} (fits : nSize < 2 ^ 64) :
    writeCompactSize (UInt64.ofNat nSize) =
      if nSize < 253 then serWritedata 1 nSize
      else if nSize ≤ 0xFFFF then serWritedata 1 253 ++ serWritedata 2 nSize
      else if nSize ≤ 0xFFFFFFFF then serWritedata 1 254 ++ serWritedata 4 nSize
      else serWritedata 1 255 ++ serWritedata 8 nSize := by
  have toNat : (UInt64.ofNat nSize).toNat = nSize := UInt64.toNat_ofNat_of_lt' fits
  simp only [writeCompactSize, UInt64.lt_iff_toNat_lt, UInt64.le_iff_toNat_le, toNat,
    UInt64.reduceToNat]

theorem writeCompactSize_of_readCanonical {rangeCheck : Bool} {marker : UInt8}
    {width minimum : Nat} {stream rest : List UInt8} {value : UInt64}
    (read : (readCanonical width minimum stream >>= fun (nSizeRet, stream) =>
        if rangeCheck = true ∧ nSizeRet > maxSize then
          (throw "ReadCompactSize(): size too large" : Except String (UInt64 × List UInt8))
        else pure (UInt64.ofNat nSizeRet, stream)) = .ok (value, rest))
    (form : ∀ nSize, minimum ≤ nSize → nSize < 256 ^ width →
      writeCompactSize (UInt64.ofNat nSize) = serWritedata 1 marker.toNat ++ serWritedata width nSize) :
    marker :: stream = writeCompactSize value ++ rest := by
  cases payload : readCanonical width minimum stream with
  | error message => simp [payload] at read
  | ok result =>
    obtain ⟨nSizeRet, after⟩ := result
    obtain ⟨least, fits, written⟩ := readCanonical_eq_ok payload
    rw [payload, ok_bind] at read
    obtain ⟨rfl, rfl⟩ := rangeChecked_eq_ok read
    rw [form nSizeRet least fits, serWritedata_one_toNat, written]
    rfl

theorem writeCompactSize_of_readCompactSize {rangeCheck : Bool} {stream rest : List UInt8}
    {value : UInt64} (read : readCompactSize rangeCheck stream = .ok (value, rest)) :
    stream = writeCompactSize value ++ rest := by
  cases stream with
  | nil => simp [readCompactSize, serReaddata] at read
  | cons chSize stream =>
    simp only [readCompactSize, serReaddata_one_cons, ok_bind] at read
    have byte := chSize.toNat_lt
    split_ifs at read with short first second
    · rw [pure_eq_ok, ok_bind] at read
      obtain ⟨rfl, rfl⟩ := rangeChecked_eq_ok read
      rw [writeCompactSize_ofNat (by omega), if_pos short, serWritedata_one_toNat]
      rfl
    · refine writeCompactSize_of_readCanonical read fun nSize least fits => ?_
      rw [writeCompactSize_ofNat (by omega), if_neg (by omega), if_pos (by omega), first]
    · refine writeCompactSize_of_readCanonical read fun nSize least fits => ?_
      rw [writeCompactSize_ofNat (by omega), if_neg (by omega), if_neg (by omega), if_pos (by omega), second]
    · refine writeCompactSize_of_readCanonical read fun nSize least fits => ?_
      have last : chSize.toNat = 255 := by omega
      rw [writeCompactSize_ofNat (by omega), if_neg (by omega), if_neg (by omega), if_neg (by omega),
        last]
theorem readCompactSize_eq_ok_iff {rangeCheck : Bool} {stream rest : List UInt8}
    {value : UInt64} :
    readCompactSize rangeCheck stream = .ok (value, rest) ↔
      stream = writeCompactSize value ++ rest ∧ (rangeCheck = true → value.toNat ≤ maxSize) := by
  constructor
  · intro read
    have written := writeCompactSize_of_readCompactSize read
    rw [written, readCompactSize_writeCompactSize] at read
    refine ⟨written, fun checked => ?_⟩
    by_contra large
    simp [checked, Nat.lt_of_not_le large] at read
  · rintro ⟨rfl, inRange⟩
    rw [readCompactSize_writeCompactSize, if_neg]
    rintro ⟨checked, large⟩
    exact absurd (inRange checked) (Nat.not_le.mpr large)

/-- CompactSize without the range check as a canonical prefix code. -/
def compactSizeCode : Code UInt64 UInt8 String where
  encode := writeCompactSize
  decode := readCompactSize false
  decode_encode value rest := by
    rw [readCompactSize_writeCompactSize]
    simp
  decode_canonical _ _ _ read := writeCompactSize_of_readCompactSize read

end Compact

end Freycoin.Serialize
