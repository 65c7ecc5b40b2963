import Freycoin.Library.LittleEndian

/-! The block header of `primitives/block.h`, the 84 bytes that `CBlockHeader::GetHash`
hashes, and the header template that `init.cpp` and `rpc/mining.cpp` hand to the mining
engine, with the nonce that `MiningEngine::parallel_worker` writes into it.

SHA-256 is the parameter `sha256`; `Hash` of `hash.h` applies it twice. -/

namespace Freycoin.Pow

open LittleEndian

structure CBlockHeader where
  nVersion : Int32
  hashPrevBlock : Vector UInt8 32
  hashMerkleRoot : Vector UInt8 32
  nTime : UInt32
  nDifficulty : UInt64
  nNonce : UInt32
  nShift : UInt16
  nAdd : Vector UInt8 32
  nReserved : UInt16
  deriving Repr, DecidableEq

/-- Double SHA-256, as `Hash(data)` and the two `CSHA256` passes of the miner compute it. -/
def sha256d (sha256 : List UInt8 → Vector UInt8 32) (data : List UInt8) : Vector UInt8 32 :=
  sha256 (sha256 data).toList

/-- The `data[84]` that `GetHash` fills with `memcpy`: version, previous hash, merkle root,
time, difficulty and nonce, integers little-endian. -/
def consensusBytes (block : CBlockHeader) : List UInt8 :=
  leBytes 4 block.nVersion.toUInt32.toNat ++ block.hashPrevBlock.toList ++
    block.hashMerkleRoot.toList ++ leBytes 4 block.nTime.toNat ++
    leBytes 8 block.nDifficulty.toNat ++ leBytes 4 block.nNonce.toNat

def CBlockHeader.getHash (sha256 : List UInt8 → Vector UInt8 32) (block : CBlockHeader) :
    Vector UInt8 32 :=
  sha256d sha256 (consensusBytes block)

theorem getHash_proof_fields (sha256 : List UInt8 → Vector UInt8 32) (block : CBlockHeader)
    (nShift : UInt16) (nAdd : Vector UInt8 32) (nReserved : UInt16) :
    { block with nShift, nAdd, nReserved }.getHash sha256 = block.getHash sha256 := rfl

/-- The `header_template` of `init.cpp` and of `GenerateBlock` in `rpc/mining.cpp`: the
same fields, with a zero placeholder for the nonce. -/
def headerTemplate (block : CBlockHeader) : List UInt8 :=
  leBytes 4 block.nVersion.toUInt32.toNat ++ block.hashPrevBlock.toList ++
    block.hashMerkleRoot.toList ++ leBytes 4 block.nTime.toNat ++
    leBytes 8 block.nDifficulty.toNat ++ leBytes 4 0

def nonceOffset : Nat := 4 + 32 + 32 + 4 + 8

/-- The four byte stores of `parallel_worker` that put `nonce` into the template. -/
def writeNonce (headerTemplate : List UInt8) (nonceOffset : Nat) (nonce : UInt32) :
    List UInt8 :=
  (((headerTemplate.set (nonceOffset + 0) (nonce >>> 0 &&& 0xFF).toUInt8).set
    (nonceOffset + 1) (nonce >>> 8 &&& 0xFF).toUInt8).set
    (nonceOffset + 2) (nonce >>> 16 &&& 0xFF).toUInt8).set
    (nonceOffset + 3) (nonce >>> 24 &&& 0xFF).toUInt8

/-- The integer `mpz_import` makes of the miner's hash for `nonce`. -/
def minedHash (sha256 : List UInt8 → Vector UInt8 32) (headerTemplate : List UInt8)
    (nonce : UInt32) : Nat :=
  leValue (sha256d sha256 (writeNonce headerTemplate nonceOffset nonce)).toList

theorem byte_of_shift (nonce shift : UInt32) (small : shift.toNat < 32) :
    (nonce >>> shift &&& 0xFF).toUInt8 = UInt8.ofNat (nonce.toNat / 2 ^ shift.toNat) := by
  apply UInt8.toNat.inj
  rw [toNat_byte, UInt32.toNat_toUInt8, UInt32.toNat_and, UInt32.toNat_shiftRight]
  simp only [Nat.shiftRight_eq_div_pow, UInt32.reduceToNat]
  rw [Nat.mod_eq_of_lt small, show (255 : Nat) = 2 ^ 8 - 1 from rfl,
    Nat.and_two_pow_sub_one_eq_mod, Nat.mod_mod]

theorem leBytes_four (n : Nat) :
    leBytes 4 n = [UInt8.ofNat n, UInt8.ofNat (n / 2 ^ 8), UInt8.ofNat (n / 2 ^ 16),
      UInt8.ofNat (n / 2 ^ 24)] := by
  simp only [leBytes, Nat.div_div_eq_div_mul, Nat.reducePow, Nat.reduceMul]

theorem nonce_stores (nonce : UInt32) :
    ((((leBytes 4 0).set 0 (nonce >>> 0 &&& 0xFF).toUInt8).set 1
      (nonce >>> 8 &&& 0xFF).toUInt8).set 2 (nonce >>> 16 &&& 0xFF).toUInt8).set 3
      (nonce >>> 24 &&& 0xFF).toUInt8 = leBytes 4 nonce.toNat := by
  rw [byte_of_shift nonce 0 (by decide), byte_of_shift nonce 8 (by decide),
    byte_of_shift nonce 16 (by decide), byte_of_shift nonce 24 (by decide), leBytes_four,
    leBytes_four]
  simp only [UInt32.reduceToNat, Nat.pow_zero, Nat.div_one, List.set_cons_zero,
    List.set_cons_succ]

theorem writeNonce_headerTemplate (block : CBlockHeader) (nonce : UInt32) :
    writeNonce (headerTemplate block) nonceOffset nonce =
      consensusBytes { block with nNonce := nonce } := by
  have fields : (leBytes 4 block.nVersion.toUInt32.toNat ++ block.hashPrevBlock.toList ++
      block.hashMerkleRoot.toList ++ leBytes 4 block.nTime.toNat ++
      leBytes 8 block.nDifficulty.toNat).length = nonceOffset := by
    simp [nonceOffset]
  unfold writeNonce headerTemplate consensusBytes
  rw [List.set_append_right _ _ (by omega), List.set_append_right _ _ (by omega),
    List.set_append_right _ _ (by omega), List.set_append_right _ _ (by omega), fields]
  simp only [Nat.add_sub_cancel_left, nonce_stores]

end Freycoin.Pow
