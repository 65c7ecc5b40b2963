import Mathlib.Data.Nat.Bitwise

/-! `CScriptNum` of `script.h`: the numbers of script, held as an `int64_t` and written as the
shortest little-endian sign-magnitude byte string.

The text of `scriptnum_error` is the error of `Except`. -/

namespace Freycoin.Script

def nDefaultMaxNumSize : ℕ := 4

/-- The loop `while(absvalue)` of `serialize`: the low byte, then the rest shifted down. A
`uint64_t` has eight bytes, so eight passes empty it. -/
def pushBytes : ℕ → UInt64 → List UInt8
  | 0, _ => []
  | fuel + 1, absvalue =>
    if absvalue = 0 then []
    else (absvalue &&& 0xff).toUInt8 :: pushBytes fuel (absvalue >>> 8)

/-- The loop of `set_vch`: `result |= static_cast<int64_t>(vch[i]) << 8*i`. -/
def setVchLoop : List UInt8 → ℕ → Int64 → Int64
  | [], _, result => result
  | byte :: vch, i, result =>
    setVchLoop vch (i + 1) (result ||| byte.toUInt64.toInt64 <<< Int64.ofNat (8 * i))

structure CScriptNum where
  mValue : Int64
  deriving DecidableEq, Repr

namespace CScriptNum

def serialize (value : Int64) : List UInt8 :=
  if value = 0 then []
  else
    let neg := decide (value < 0)
    let absvalue : UInt64 := if neg then ~~~value.toUInt64 + 1 else value.toUInt64
    let result := pushBytes 8 absvalue
    -- `result.back()`: the loop pushed at least one byte, since `absvalue` is not zero
    if result.getLastD 0 &&& 0x80 ≠ 0 then result ++ [if neg then 0x80 else 0]
    else if neg then result.dropLast ++ [result.getLastD 0 ||| 0x80]
    else result

def setVch (vch : List UInt8) : Int64 :=
  if vch = [] then 0
  else
    let result := setVchLoop vch 0 0
    -- the sign bit of the top byte is cleared in the `uint64_t` the mask promotes `result` to
    if vch.getLastD 0 &&& 0x80 ≠ 0 then
      -(result.toUInt64 &&& ~~~((0x80 : UInt64) <<< UInt64.ofNat (8 * (vch.length - 1)))).toInt64
    else result

/-- The constructor from bytes, with `fRequireMinimal` and `nMaxNumSize`. -/
def ofVch (vch : List UInt8) (fRequireMinimal : Bool) (nMaxNumSize : ℕ) :
    Except String CScriptNum :=
  if vch.length > nMaxNumSize then .error "script number overflow"
  else if fRequireMinimal && vch.length > 0 && vch.getLastD 0 &&& 0x7f = 0 &&
      (vch.length ≤ 1 || vch.getD (vch.length - 2) 0 &&& 0x80 = 0) then
    .error "non-minimally encoded script number"
  else .ok ⟨setVch vch⟩

def getInt64 (num : CScriptNum) : Int64 := num.mValue

def getvch (num : CScriptNum) : List UInt8 := serialize num.mValue

end CScriptNum

end Freycoin.Script
