import Mathlib.Data.List.AList

/-! The coins of `coins.h` and `primitives/transaction.h`: outputs, outpoints, the `Coin` a
UTXO set stores, and the entry a `CCoinsViewCache` keeps for it with its DIRTY and FRESH
flags. A `Txid` is its 32 bytes. -/

namespace Freycoin.Coins

structure CTxOut where
  nValue : Int64
  scriptPubKey : List UInt8
  deriving Repr, DecidableEq

def CTxOut.setNull (out : CTxOut) : CTxOut := { out with nValue := -1, scriptPubKey := [] }

def CTxOut.isNull (out : CTxOut) : Bool := out.nValue == -1

def opReturn : UInt8 := 0x6a

def maxScriptSize : Nat := 10000

/-- `CScript::IsUnspendable`: an `OP_RETURN` script, or one too long to execute. -/
def isUnspendable (script : List UInt8) : Bool :=
  (script.length > 0 && script.head? == some opReturn) || script.length > maxScriptSize

structure COutPoint where
  hash : Vector UInt8 32
  n : UInt32
  deriving Repr, DecidableEq

/-- \`COutPoint::NULL_INDEX\`. -/
def COutPoint.nullIndex : UInt32 := 0xFFFFFFFF

def COutPoint.isNull (outpoint : COutPoint) : Bool :=
  outpoint.hash.toList.all (· == 0) && outpoint.n == COutPoint.nullIndex

/-- A UTXO entry. The height is the 31-bit field of the source. -/
structure Coin where
  out : CTxOut
  fCoinBase : Bool
  nHeight : BitVec 31
  deriving Repr, DecidableEq

/-- The constructor `Coin(out, nHeight, fCoinBase)`: the `int` height is truncated to the
31-bit field. -/
def Coin.ofTxOut (out : CTxOut) (nHeight : Int32) (fCoinBase : Bool) : Coin :=
  ⟨out, fCoinBase, BitVec.ofInt 31 nHeight.toInt⟩

@[simp] theorem Coin.ofTxOut_out (out : CTxOut) (nHeight : Int32) (fCoinBase : Bool) :
    (Coin.ofTxOut out nHeight fCoinBase).out = out := rfl

@[simp] theorem Coin.ofTxOut_fCoinBase (out : CTxOut) (nHeight : Int32) (fCoinBase : Bool) :
    (Coin.ofTxOut out nHeight fCoinBase).fCoinBase = fCoinBase := rfl

/-- `Coin()`, also the `coinEmpty` that `AccessCoin` returns for a missing coin. -/
def Coin.empty : Coin := ⟨⟨-1, []⟩, false, 0⟩

def Coin.clear (coin : Coin) : Coin :=
  { coin with out := coin.out.setNull, fCoinBase := false, nHeight := 0 }

def Coin.isSpent (coin : Coin) : Bool := coin.out.isNull

/-- The coin as `GetCoin` reports it: nothing for a spent coin. -/
def unspent (coin : Coin) : Option Coin := if coin.isSpent then none else some coin

@[simp] theorem Coin.clear_eq_empty (coin : Coin) : coin.clear = Coin.empty := rfl

@[simp] theorem Coin.empty_isSpent : Coin.empty.isSpent = true := rfl

@[simp] theorem unspent_empty : unspent Coin.empty = none := rfl

theorem unspent_of_isSpent {coin : Coin} (spent : coin.isSpent = true) : unspent coin = none := by
  rw [unspent, if_pos spent]

theorem unspent_of_not_isSpent {coin : Coin} (live : coin.isSpent = false) :
    unspent coin = some coin := by
  rw [unspent, if_neg (by simp [live])]

theorem isSpent_of_unspent_eq_some {coin found : Coin} (reported : unspent coin = some found) :
    coin.isSpent = false ∧ found = coin := by
  by_cases spent : coin.isSpent = true
  · rw [unspent_of_isSpent spent] at reported
    cases reported
  · have live : coin.isSpent = false := by simpa using spent
    rw [unspent_of_not_isSpent live] at reported
    exact ⟨live, (Option.some.inj reported).symm⟩

/-- A cache entry: the coin and the two flags of `m_flags`. -/
structure CCoinsCacheEntry where
  coin : Coin
  dirty : Bool
  fresh : Bool
  deriving Repr, DecidableEq

/-- The entry `try_emplace` and `emplace` create: the empty coin, no flags. -/
def CCoinsCacheEntry.default : CCoinsCacheEntry := ⟨Coin.empty, false, false⟩

/-- Whether the entry is on the linked list of flagged entries. -/
def CCoinsCacheEntry.flagged (entry : CCoinsCacheEntry) : Bool := entry.dirty || entry.fresh

abbrev CCoinsMap := AList fun _ : COutPoint => CCoinsCacheEntry

/-- An entry of the map as a cursor hands it to `BatchWrite`. -/
abbrev CoinsCachePair := Σ _ : COutPoint, CCoinsCacheEntry

end Freycoin.Coins
