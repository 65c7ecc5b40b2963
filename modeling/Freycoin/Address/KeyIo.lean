import Freycoin.Address.Bech32

/-! Destinations and their address strings, as `key_io.cpp` writes and reads them.

Non-segwit destinations are written as the hex of their output script. The text of
`bech32::LocateErrors` is a parameter; the error positions are left out. -/

namespace Freycoin.KeyIo

open Bech32

/-- The inner `while (bits >= tobits)` of `ConvertBits`: it runs `bits / tobits` times, each
time emitting the next `tobits` bits of `acc`. -/
def emitGroups (tobits acc : ℕ) : ℕ → ℕ → List ℕ → ℕ × List ℕ
  | 0, bits, out => (bits, out)
  | n + 1, bits, out =>
    emitGroups tobits acc n (bits - tobits) (out ++ [(acc >>> (bits - tobits)) &&& (2 ^ tobits - 1)])

/-- One pass of the outer loop of `ConvertBits`. -/
def convertBitsStep (frombits tobits : ℕ) (state : ℕ × ℕ × List ℕ) (v : ℕ) : ℕ × ℕ × List ℕ :=
  let (acc, bits, out) := state
  let acc := ((acc <<< frombits) ||| v) &&& (2 ^ (frombits + tobits - 1) - 1)
  let (bits, out) := emitGroups tobits acc ((bits + frombits) / tobits) (bits + frombits) out
  (acc, bits, out)

/-- `ConvertBits<frombits, tobits, pad>`: the output, or `none` where it returns false. Its
inputs here are bytes, never negative, so the `v < 0` exit is not taken. -/
def convertBits (frombits tobits : ℕ) (pad : Bool) (input : List ℕ) : Option (List ℕ) :=
  let (acc, bits, out) := input.foldl (convertBitsStep frombits tobits) (0, 0, [])
  if pad then
    some (if bits ≠ 0 then out ++ [(acc <<< (tobits - bits)) &&& (2 ^ tobits - 1)] else out)
  else if frombits ≤ bits ∨ (acc <<< (tobits - bits)) &&& (2 ^ tobits - 1) ≠ 0 then none
  else some out

/-- The digits of `HexStr`. -/
def hexmap : List Char := "0123456789abcdef".toList

/-- `HexStr(s)`: two lowercase hex digits per byte. -/
def hexStr (bytes : List ℕ) : List Char :=
  bytes.flatMap fun v => [hexmap.getD (v >>> 4) '0', hexmap.getD (v &&& 15) '0']

/-- `HexDigit(c)`, the table `p_util_hexdigit`: the value of a hex digit, `-1` otherwise. -/
def hexDigit (c : Char) : ℤ :=
  if '0' ≤ c ∧ c ≤ '9' then (c.toNat - '0'.toNat : ℕ)
  else if 'a' ≤ c ∧ c ≤ 'f' then (c.toNat - 'a'.toNat + 10 : ℕ)
  else if 'A' ≤ c ∧ c ≤ 'F' then (c.toNat - 'A'.toNat + 10 : ℕ)
  else -1

/-- `IsSpace(c)`. -/
def isSpace (c : Char) : Bool :=
  c = ' ' ∨ c = '\x0c' ∨ c = '\n' ∨ c = '\r' ∨ c = '\t' ∨ c = '\x0b'

/-- `TryParseHex(str)`: pairs of hex digits, skipping white space before each pair. -/
def tryParseHex : List Char → Option (List ℕ)
  | [] => some []
  | c :: rest =>
    if isSpace c then tryParseHex rest
    else match rest with
      | [] => none
      | c2 :: rest =>
        if hexDigit c < 0 ∨ hexDigit c2 < 0 then none
        else (tryParseHex rest).map fun tail => ((hexDigit c).toNat <<< 4 ||| (hexDigit c2).toNat) :: tail

/-- `ParseHex(str)`: the bytes, or none at all on invalid input. -/
def parseHex (str : List Char) : List ℕ := (tryParseHex str).getD []

/-- `CTxDestination`. A `PubKeyDestination` writes no address, so its key is left out. -/
inductive Destination
  | noDestination
  | pubKey
  | pkHash (hash : List ℕ)
  | scriptHash (hash : List ℕ)
  | witnessV0ScriptHash (hash : List ℕ)
  | witnessV0KeyHash (hash : List ℕ)
  | witnessV1Taproot (key : List ℕ)
  | payToAnchor
  | witnessUnknown (version : ℕ) (program : List ℕ)
deriving DecidableEq

/-- `ANCHOR_BYTES`. -/
def anchorBytes : List ℕ := [0x4e, 0x73]

/-- `BECH32_WITNESS_PROG_MAX_LEN`. -/
def bech32WitnessProgMaxLen : ℕ := 40

/-- `WITNESS_V1_TAPROOT_SIZE`. -/
def witnessV1TaprootSize : ℕ := 32

/-- `CScript::IsPayToAnchor(version, program)`. -/
def isPayToAnchor (version : ℕ) (program : List ℕ) : Bool :=
  version = 1 ∧ program.length = 2 ∧ program.getD 0 0 = 0x4e ∧ program.getD 1 0 = 0x73

/-- A witness program under `version`, as the `DestinationEncoder` writes it. -/
def encodeWitness (hrp : List Char) (version : ℕ) (program : List ℕ) : Option (List Char) :=
  encode .bech32m hrp (version :: (convertBits 8 5 true program).getD [])

/-- `EncodeDestination(dest)` under the chain's HRP; `none` where `Encode` asserts. -/
def encodeDestination (hrp : List Char) : Destination → Option (List Char)
  | .witnessV0KeyHash id => encodeWitness hrp 0 id
  | .witnessV0ScriptHash id => encodeWitness hrp 0 id
  | .witnessV1Taproot tap => encodeWitness hrp 1 tap
  | .witnessUnknown version program =>
    if version < 1 ∨ 16 < version ∨ program.length < 2 ∨ 40 < program.length then some []
    else encodeWitness hrp version program
  -- `PayToAnchor` is the `WitnessUnknown` of version 1 with `ANCHOR_BYTES`
  | .payToAnchor => encodeWitness hrp 1 anchorBytes
  | .noDestination => some []
  | .pubKey => some []
  | .pkHash id => some ("76a914".toList ++ hexStr id ++ "88ac".toList)
  | .scriptHash id => some ("a914".toList ++ hexStr id ++ "87".toList)

/-- The witness program of a Bech32 string once its checksum and HRP are accepted: the
witness version checks, `ConvertBits`, then the destination by version and size. -/
def decodeWitness (encoding : Encoding) (version : ℕ) (symbols : List ℕ) :
    Destination × String :=
  if version = 0 ∧ encoding ≠ .bech32 ∧ encoding ≠ .bech32m then
    (.noDestination, "Version 0 witness address must use Bech32 or Bech32m checksum")
  else if version ≠ 0 ∧ encoding ≠ .bech32m then
    (.noDestination, "Version 1+ witness address must use Bech32m checksum")
  else match convertBits 5 8 false symbols with
  | none => (.noDestination, "Invalid padding in Bech32 data section")
  | some data =>
    let byteStr := if data.length = 1 then "byte" else "bytes"
    if version = 0 then
      if data.length = 20 then (.witnessV0KeyHash data, "")
      else if data.length = 32 then (.witnessV0ScriptHash data, "")
      else (.noDestination, "Invalid Bech32 v0 address program size (" ++ toString data.length ++
        " " ++ byteStr ++ "), per BIP141")
    else if version = 1 ∧ data.length = witnessV1TaprootSize then (.witnessV1Taproot data, "")
    else if isPayToAnchor version data then (.payToAnchor, "")
    else if 16 < version then (.noDestination, "Invalid Bech32 address witness version")
    else if data.length < 2 ∨ bech32WitnessProgMaxLen < data.length then
      (.noDestination, "Invalid Bech32 address program size (" ++ toString data.length ++ " " ++
        byteStr ++ ")")
    else (.witnessUnknown version data, "")

/-- `DecodeDestination(str, params, error_str, error_locations)`: the destination and
`error_str`. -/
def decodeDestination (locateErrors : List Char → String) (hrp str : List Char) :
    Destination × String :=
  if (str.take hrp.length).map lowerCase ≠ hrp then
    -- not under this network's HRP: the hex of a P2PKH or a P2SH script
    if str.length = 50 then
      if str.take 6 = "76a914".toList ∧ (str.drop 46).take 4 = "88ac".toList ∧
          (parseHex ((str.drop 6).take 40)).length = 20 then
        (.pkHash (parseHex ((str.drop 6).take 40)), "")
      else (.noDestination, "Invalid or unsupported Segwit (Bech32) encoding or Script.")
    else if str.length = 46 then
      if str.take 4 = "a914".toList ∧ (str.drop 44).take 2 = "87".toList ∧
          (parseHex ((str.drop 4).take 40)).length = 20 then
        (.scriptHash (parseHex ((str.drop 4).take 40)), "")
      else (.noDestination, "Invalid or unsupported Segwit (Bech32) encoding or Script.")
    else (.noDestination, "Invalid or unsupported Segwit (Bech32) encoding or Script.")
  else
    let dec := decode str charLimitBech32
    if dec.encoding = .bech32 ∨ dec.encoding = .bech32m then
      match dec.data with
      | [] => (.noDestination, "Empty Bech32 data section")
      | version :: symbols =>
        if dec.hrp ≠ hrp then
          (.noDestination, "Invalid or unsupported prefix for Segwit (Bech32) address (expected " ++
            String.ofList hrp ++ ", got " ++ String.ofList dec.hrp ++ ").")
        else decodeWitness dec.encoding version symbols
    else (.noDestination, locateErrors str)

end Freycoin.KeyIo
