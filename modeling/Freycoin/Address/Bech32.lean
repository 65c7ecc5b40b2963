import Mathlib
import Freycoin.Library.AdditiveFold

/-! Bech32 and Bech32m strings, as `bech32.cpp` encodes and decodes them.

A string is a list of characters standing for their bytes; `PolyMod` stays below `2 ^ 30`, so
nothing overflows. A failed `assert` is `none`. -/

namespace Freycoin.Bech32

/-- `bech32::Encoding`. -/
inductive Encoding
  | invalid
  | bech32
  | bech32m
deriving DecidableEq, Repr

/-- `CHECKSUM_SIZE`. -/
def checksumSize : ℕ := 6

/-- `CharLimit::BECH32`. -/
def charLimitBech32 : ℕ := 90

/-- `CHARSET`. -/
def charset : List Char := "qpzry9x8gf2tvdw0s3jn54khce6mua7l".toList

/-- `CHARSET[i]`. -/
def charsetChar (i : ℕ) : Char := charset.getD i (Char.ofNat 0)

/-- `CHARSET_REV`, indexed by the byte of a character. -/
def charsetRev : List ℤ :=
  [-1, -1, -1, -1, -1, -1, -1, -1, -1, -1, -1, -1, -1, -1, -1, -1,
   -1, -1, -1, -1, -1, -1, -1, -1, -1, -1, -1, -1, -1, -1, -1, -1,
   -1, -1, -1, -1, -1, -1, -1, -1, -1, -1, -1, -1, -1, -1, -1, -1,
   15, -1, 10, 17, 21, 20, 26, 30,  7,  5, -1, -1, -1, -1, -1, -1,
   -1, 29, -1, 24, 13, 25,  9,  8, 23, -1, 18, 22, 31, 27, 19, -1,
    1,  0,  3, 16, 11, 28, 12, 14,  6,  4,  2, -1, -1, -1, -1, -1,
   -1, 29, -1, 24, 13, 25,  9,  8, 23, -1, 18, 22, 31, 27, 19, -1,
    1,  0,  3, 16, 11, 28, 12, 14,  6,  4,  2, -1, -1, -1, -1, -1]

/-- `int8_t rev = CHARSET_REV[c]; if (rev == -1) return {};` -/
def charsetValue (c : Char) : Option ℕ :=
  let rev := charsetRev.getD c.toNat (-1)
  if rev = -1 then none else some rev.toNat

/-- One pass of `PolyMod`'s loop: shift in `v_i` and reduce by the generator. -/
def polyModStep (c v : ℕ) : ℕ :=
  let c0 := c >>> 25
  let c := ((c &&& 0x1ffffff) <<< 5) ^^^ v
  let c := if c0 &&& 1 ≠ 0 then c ^^^ 0x3b6a57b2 else c
  let c := if c0 &&& 2 ≠ 0 then c ^^^ 0x26508e6d else c
  let c := if c0 &&& 4 ≠ 0 then c ^^^ 0x1ea119fa else c
  let c := if c0 &&& 8 ≠ 0 then c ^^^ 0x3d4233dd else c
  if c0 &&& 16 ≠ 0 then c ^^^ 0x2a1462b3 else c

/-- `PolyMod(v)`: the residue of the values, read as a polynomial with an implicit leading `1`,
modulo the Bech32 generator. -/
def polyMod (v : List ℕ) : ℕ := v.foldl polyModStep 1

/-- `LowerCase`. -/
def lowerCase (c : Char) : Char :=
  if 'A' ≤ c ∧ c ≤ 'Z' then Char.ofNat (c.toNat - 'A'.toNat + 'a'.toNat) else c

/-- One pass of `CheckCharacters`: the flags `lower` and `upper` and the error positions. -/
def checkCharactersStep (state : Bool × Bool × List ℕ) (entry : Char × ℕ) :
    Bool × Bool × List ℕ :=
  let (lower, upper, errors) := state
  let (ch, i) := entry
  let c := ch.toNat
  if 'a'.toNat ≤ c ∧ c ≤ 'z'.toNat then
    if upper then (lower, upper, errors ++ [i]) else (true, upper, errors)
  else if 'A'.toNat ≤ c ∧ c ≤ 'Z'.toNat then
    if lower then (lower, upper, errors ++ [i]) else (lower, true, errors)
  else if c < 33 ∨ 126 < c then (lower, upper, errors ++ [i])
  else (lower, upper, errors)

/-- `CheckCharacters(str, errors)`: no mixed case and only printable characters. -/
def checkCharacters (str : List Char) : Bool :=
  ((str.zipIdx.foldl checkCharactersStep (false, false, [])).2.2).isEmpty

/-- `PreparePolynomialCoefficients(hrp, values)`: the expanded HRP, then the values. -/
def preparePolynomialCoefficients (hrp : List Char) (values : List ℕ) : List ℕ :=
  hrp.map (fun c => c.toNat >>> 5) ++ [0] ++ hrp.map (fun c => c.toNat &&& 0x1f) ++ values

/-- `EncodingConstant(encoding)`, which asserts a valid encoding. -/
def encodingConstant : Encoding → Option ℕ
  | .invalid => none
  | .bech32 => some 0x2bc830a3
  | .bech32m => some 0x2bc830a3

/-- `VerifyChecksum(hrp, values)`. -/
def verifyChecksum (hrp : List Char) (values : List ℕ) : Encoding :=
  let check := polyMod (preparePolynomialCoefficients hrp values)
  if some check = encodingConstant .bech32m then .bech32m
  else if check = 1 then .bech32
  else .invalid

/-- `CreateChecksum(encoding, hrp, values)`: the six values that bring the residue to the
encoding's constant. -/
def createChecksum (encoding : Encoding) (hrp : List Char) (values : List ℕ) :
    Option (List ℕ) :=
  (encodingConstant encoding).map fun constant =>
    let mod := polyMod (preparePolynomialCoefficients hrp values ++ List.replicate checksumSize 0)
      ^^^ constant
    (List.range checksumSize).map fun i => (mod >>> (5 * (5 - i))) &&& 31

/-- `Encode(encoding, hrp, values)`, which asserts a lowercase HRP. -/
def encode (encoding : Encoding) (hrp : List Char) (values : List ℕ) : Option (List Char) :=
  if hrp.any (fun c => 'A' ≤ c ∧ c ≤ 'Z') then none
  else (createChecksum encoding hrp values).map fun checksum =>
    hrp ++ '1' :: (values ++ checksum).map charsetChar

/-- `bech32::DecodeResult`; `{}` is `DecodeResult.empty`. -/
structure DecodeResult where
  encoding : Encoding
  hrp : List Char
  data : List ℕ
deriving DecidableEq

def DecodeResult.empty : DecodeResult := ⟨.invalid, [], []⟩

/-- `str.rfind(c)`: the last position of `c`. -/
def rfind (c : Char) (str : List Char) : Option ℕ :=
  (str.reverse.findIdx? (· = c)).map fun k => str.length - 1 - k

/-- `Decode(str, limit)`. -/
def decode (str : List Char) (limit : ℕ) : DecodeResult :=
  if !checkCharacters str then .empty
  else match rfind '1' str with
  | none => .empty
  | some pos =>
    if limit < str.length then .empty
    else if pos = 0 ∨ str.length ≤ pos + checksumSize then .empty
    else match (str.drop (pos + 1)).mapM charsetValue with
    | none => .empty
    | some values =>
      let hrp := (str.take pos).map lowerCase
      let result := verifyChecksum hrp values
      if result = .invalid then .empty
      else ⟨result, hrp, values.take (values.length - checksumSize)⟩

section Residues

/-- The generator multiples that `PolyMod` XORs in for the top bits `c0`. -/
def feedback (c0 : ℕ) : ℕ :=
  (if c0 &&& 1 ≠ 0 then 0x3b6a57b2 else 0) ^^^ (if c0 &&& 2 ≠ 0 then 0x26508e6d else 0) ^^^
    (if c0 &&& 4 ≠ 0 then 0x1ea119fa else 0) ^^^ (if c0 &&& 8 ≠ 0 then 0x3d4233dd else 0) ^^^
    (if c0 &&& 16 ≠ 0 then 0x2a1462b3 else 0)

theorem ite_xor (p : Prop) [Decidable p] (c g : ℕ) :
    (if p then c ^^^ g else c) = c ^^^ if p then g else 0 := by
  by_cases holds : p <;> simp [holds]

theorem polyModStep_eq (c v : ℕ) :
    polyModStep c v = (((c &&& 0x1ffffff) <<< 5) ^^^ v) ^^^ feedback (c >>> 25) := by
  simp only [polyModStep, feedback, ite_xor]
  ac_rfl

theorem and_two_pow_ne_zero (x i : ℕ) : x &&& 2 ^ i ≠ 0 ↔ x.testBit i = true := by
  constructor
  · intro nonzero
    by_contra clear
    apply nonzero
    apply Nat.eq_of_testBit_eq
    intro j
    rw [Nat.testBit_and, Nat.testBit_two_pow, Nat.zero_testBit]
    by_cases same : i = j
    · subst same
      simpa using clear
    · simp [same]
  · intro set zero
    have bit := congrArg (Nat.testBit · i) zero
    simp [Nat.testBit_and, set] at bit

theorem ite_and_xor {m : ℕ} (i : ℕ) (pow : m = 2 ^ i) (a b g : ℕ) :
    (if (a ^^^ b) &&& m ≠ 0 then g else 0) =
      (if a &&& m ≠ 0 then g else 0) ^^^ if b &&& m ≠ 0 then g else 0 := by
  subst pow
  simp only [and_two_pow_ne_zero, Nat.testBit_xor]
  cases a.testBit i <;> cases b.testBit i <;> simp

theorem feedback_xor (a b : ℕ) : feedback (a ^^^ b) = feedback a ^^^ feedback b := by
  rw [feedback, feedback, feedback, ite_and_xor (m := 1) 0 rfl, ite_and_xor (m := 2) 1 rfl,
    ite_and_xor (m := 4) 2 rfl, ite_and_xor (m := 8) 3 rfl, ite_and_xor (m := 16) 4 rfl]
  ac_rfl

theorem polyModStep_xor :
    AdditiveFold.Additive polyModStep (· ^^^ ·) (· ^^^ ·) := by
  intro c d u v
  rw [polyModStep_eq, polyModStep_eq, polyModStep_eq, Nat.shiftRight_xor_distrib, feedback_xor,
    Nat.and_xor_distrib_right, Nat.shiftLeft_xor_distrib]
  ac_rfl

end Residues

end Freycoin.Bech32
