import Freycoin.Coins.Coin
import Freycoin.Library.KeyedUpdate

/-! `CCoinsViewCache` of `coins.cpp`, and a stack of such caches over a base view.

A cache's parent is any state `P` reached through `GetCoin` and `BatchWrite`. An exception or a
failed `assert` is `none`. The best-block hash and the memory accounting are left out. -/

namespace Freycoin.Coins

open KeyedUpdate

section Cache

variable {P : Type}

/-- `FetchCoin`: the entry for `outpoint`, fetched from the parent on a miss. -/
def fetchCoin (cacheCoins : CCoinsMap) (base : P) (baseGetCoin : COutPoint → Option Coin × P)
    (outpoint : COutPoint) : Option CCoinsCacheEntry × CCoinsMap × P :=
  match cacheCoins.lookup outpoint with
  | some entry => (some entry, cacheCoins, base)
  | none =>
      match baseGetCoin outpoint with
      | (some coin, base) =>
          -- a spent coin from the parent would be kept FRESH and not DIRTY
          let entry : CCoinsCacheEntry := ⟨coin, false, coin.isSpent⟩
          (some entry, cacheCoins.insert outpoint entry, base)
      | (none, base) => (none, cacheCoins, base)

def getCoin (cacheCoins : CCoinsMap) (base : P) (baseGetCoin : COutPoint → Option Coin × P)
    (outpoint : COutPoint) : Option Coin × CCoinsMap × P :=
  let (entry, cacheCoins, base) := fetchCoin cacheCoins base baseGetCoin outpoint
  (entry.bind fun entry => unspent entry.coin, cacheCoins, base)

def haveCoin (cacheCoins : CCoinsMap) (base : P) (baseGetCoin : COutPoint → Option Coin × P)
    (outpoint : COutPoint) : Bool × CCoinsMap × P :=
  let (entry, cacheCoins, base) := fetchCoin cacheCoins base baseGetCoin outpoint
  (entry.any fun entry => !entry.coin.isSpent, cacheCoins, base)

def accessCoin (cacheCoins : CCoinsMap) (base : P) (baseGetCoin : COutPoint → Option Coin × P)
    (outpoint : COutPoint) : Coin × CCoinsMap × P :=
  let (entry, cacheCoins, base) := fetchCoin cacheCoins base baseGetCoin outpoint
  ((entry.map CCoinsCacheEntry.coin).getD Coin.empty, cacheCoins, base)

/-- `AddCoin`. `none` is the failed `assert(!coin.IsSpent())` or the `logic_error` for
overwriting an unspent coin. -/
def addCoin (cacheCoins : CCoinsMap) (outpoint : COutPoint) (coin : Coin)
    (possibleOverwrite : Bool) : Option CCoinsMap :=
  if coin.isSpent then none
  else if isUnspendable coin.out.scriptPubKey then some cacheCoins
  else
    let entry := (cacheCoins.lookup outpoint).getD CCoinsCacheEntry.default
    if !possibleOverwrite && !entry.coin.isSpent then none
    else
      -- a spent entry that is DIRTY must not become FRESH: its spentness is not flushed yet
      let fresh := !possibleOverwrite && !entry.dirty
      some (cacheCoins.insert outpoint ⟨coin, true, entry.fresh || fresh⟩)

/-- `SpendCoin`: the coin moved out, if an entry was found, and the new state. -/
def spendCoin (cacheCoins : CCoinsMap) (base : P) (baseGetCoin : COutPoint → Option Coin × P)
    (outpoint : COutPoint) : Option Coin × CCoinsMap × P :=
  match fetchCoin cacheCoins base baseGetCoin outpoint with
  | (none, cacheCoins, base) => (none, cacheCoins, base)
  | (some entry, cacheCoins, base) =>
      if entry.fresh then (some entry.coin, cacheCoins.erase outpoint, base)
      else
        (some entry.coin,
          cacheCoins.insert outpoint { entry with coin := entry.coin.clear, dirty := true }, base)

def uncache (cacheCoins : CCoinsMap) (outpoint : COutPoint) : CCoinsMap :=
  match cacheCoins.lookup outpoint with
  | some entry => if !entry.dirty && !entry.fresh then cacheCoins.erase outpoint else cacheCoins
  | none => cacheCoins

end Cache

/-- The flagged entries that `CoinsViewCacheCursor` walks. The linked list holds them in the
order they were flagged; their outpoints are distinct, so no batch write below depends on
that order. -/
def flaggedEntries (cacheCoins : CCoinsMap) : List CoinsCachePair :=
  cacheCoins.entries.filter fun pair => pair.2.flagged

/-- One turn of the loop of `CCoinsViewCache::BatchWrite`, receiving the child's `pair`.
`none` is the `logic_error` for a misapplied FRESH flag. -/
def batchWriteEntry (cacheCoins : CCoinsMap) (pair : CoinsCachePair) : Option CCoinsMap :=
  let entry := pair.2
  if !entry.dirty then some cacheCoins
  else
    match cacheCoins.lookup pair.1 with
    | none =>
        if entry.fresh && entry.coin.isSpent then some cacheCoins
        else some (cacheCoins.insert pair.1 ⟨entry.coin, true, entry.fresh⟩)
    | some ours =>
        if entry.fresh && !ours.coin.isSpent then none
        -- the grandparent has no entry: a spent coin just goes
        else if ours.fresh && entry.coin.isSpent then some (cacheCoins.erase pair.1)
        -- FRESH is not passed up: a spent coin here may still have to reach the grandparent
        else some (cacheCoins.insert pair.1 { ours with coin := entry.coin, dirty := true })

def batchWrite (cacheCoins : CCoinsMap) (cursor : List CoinsCachePair) : Option CCoinsMap :=
  cursor.foldlM batchWriteEntry cacheCoins

/-- `NextAndMaybeErase` of a cursor that does not erase the cache: spent entries go, the
others are unflagged. -/
def nextAndMaybeErase (cacheCoins : CCoinsMap) (pair : CoinsCachePair) : CCoinsMap :=
  if pair.2.coin.isSpent then cacheCoins.erase pair.1
  else cacheCoins.insert pair.1 { pair.2 with dirty := false, fresh := false }

/-- `BatchWrite` of the base view. -/
def baseBatchWrite (coins : COutPoint → Option Coin) (cursor : List CoinsCachePair) :
    COutPoint → Option Coin :=
  cursor.foldl (fun coins pair =>
    if pair.2.dirty then Function.update coins pair.1 (unspent pair.2.coin) else coins) coins

section Cache

variable {P : Type}

/-- `Flush`: hand every flagged entry to the parent, then empty the cache. -/
def flush (cacheCoins : CCoinsMap) (baseBatchWrite : List CoinsCachePair → Option P) :
    Option (CCoinsMap × P) :=
  (baseBatchWrite (flaggedEntries cacheCoins)).map fun base => (∅, base)

/-- `Sync`: hand every flagged entry to the parent and keep the cache, with the spent
entries erased and the others unflagged by the cursor. -/
def sync (cacheCoins : CCoinsMap) (baseBatchWrite : List CoinsCachePair → Option P) :
    Option (CCoinsMap × P) := do
  let base ← baseBatchWrite (flaggedEntries cacheCoins)
  let cacheCoins := (flaggedEntries cacheCoins).foldl nextAndMaybeErase cacheCoins
  -- the `logic_error` "Not all unspent flagged entries were cleared"
  if (flaggedEntries cacheCoins).isEmpty then some (cacheCoins, base) else none

end Cache

/-- Caches stacked on a base view, the top cache first. -/
structure CoinsStack where
  caches : List CCoinsMap
  base : COutPoint → Option Coin

/-- `GetCoin` of the view made of `caches` over `base`. -/
def stackGetCoin (base : COutPoint → Option Coin) :
    List CCoinsMap → COutPoint → Option Coin × List CCoinsMap
  | [], outpoint => (base outpoint, [])
  | cacheCoins :: lower, outpoint =>
      let (coin, cacheCoins, lower) :=
        getCoin cacheCoins lower (stackGetCoin base lower) outpoint
      (coin, cacheCoins :: lower)

def CoinsStack.getCoin (stack : CoinsStack) (outpoint : COutPoint) :
    Option Coin × CoinsStack :=
  let (coin, caches) := stackGetCoin stack.base stack.caches outpoint
  (coin, ⟨caches, stack.base⟩)

def CoinsStack.batchWrite (stack : CoinsStack) (cursor : List CoinsCachePair) :
    Option CoinsStack :=
  match stack.caches with
  | [] => some ⟨[], baseBatchWrite stack.base cursor⟩
  | cacheCoins :: lower =>
      (Freycoin.Coins.batchWrite cacheCoins cursor).map fun cacheCoins =>
        ⟨cacheCoins :: lower, stack.base⟩

/-- Run `act` on the cache at `depth` from the top, with the stack below it as its parent. -/
def CoinsStack.modifyAt {α : Type}
    (act : CCoinsMap → CoinsStack → Option (α × CCoinsMap × CoinsStack)) :
    Nat → CoinsStack → Option (α × CoinsStack)
  | _, ⟨[], _⟩ => none
  | 0, ⟨cacheCoins :: lower, base⟩ =>
      (act cacheCoins ⟨lower, base⟩).map fun (result, cacheCoins, below) =>
        (result, ⟨cacheCoins :: below.caches, below.base⟩)
  | depth + 1, ⟨cacheCoins :: lower, base⟩ =>
      (modifyAt act depth ⟨lower, base⟩).map fun (result, below) =>
        (result, ⟨cacheCoins :: below.caches, below.base⟩)

namespace CoinsStack

def getCoinAt (depth : Nat) (outpoint : COutPoint) (stack : CoinsStack) :
    Option (Option Coin × CoinsStack) :=
  stack.modifyAt (fun cacheCoins below =>
    some (Freycoin.Coins.getCoin cacheCoins below below.getCoin outpoint)) depth

def haveCoinAt (depth : Nat) (outpoint : COutPoint) (stack : CoinsStack) :
    Option (Bool × CoinsStack) :=
  stack.modifyAt (fun cacheCoins below =>
    some (haveCoin cacheCoins below below.getCoin outpoint)) depth

def accessCoinAt (depth : Nat) (outpoint : COutPoint) (stack : CoinsStack) :
    Option (Coin × CoinsStack) :=
  stack.modifyAt (fun cacheCoins below =>
    some (accessCoin cacheCoins below below.getCoin outpoint)) depth

def addCoin (outpoint : COutPoint) (coin : Coin) (possibleOverwrite : Bool)
    (stack : CoinsStack) : Option CoinsStack :=
  (stack.modifyAt (fun cacheCoins below =>
    (Freycoin.Coins.addCoin cacheCoins outpoint coin possibleOverwrite).map
      fun cacheCoins => ((), cacheCoins, below)) 0).map Prod.snd

def spendCoin (outpoint : COutPoint) (stack : CoinsStack) :
    Option (Option Coin × CoinsStack) :=
  stack.modifyAt (fun cacheCoins below =>
    some (Freycoin.Coins.spendCoin cacheCoins below below.getCoin outpoint)) 0

def uncacheAt (depth : Nat) (outpoint : COutPoint) (stack : CoinsStack) : Option CoinsStack :=
  (stack.modifyAt (fun cacheCoins below =>
    some ((), uncache cacheCoins outpoint, below)) depth).map Prod.snd

def flushAt (depth : Nat) (stack : CoinsStack) : Option CoinsStack :=
  (stack.modifyAt (fun cacheCoins below =>
    (flush cacheCoins below.batchWrite).map fun (cacheCoins, below) => ((), cacheCoins, below))
    depth).map Prod.snd

def syncAt (depth : Nat) (stack : CoinsStack) : Option CoinsStack :=
  (stack.modifyAt (fun cacheCoins below =>
    (sync cacheCoins below.batchWrite).map fun (cacheCoins, below) => ((), cacheCoins, below))
    depth).map Prod.snd

/-- A new empty cache on top. -/
def push (stack : CoinsStack) : CoinsStack := ⟨∅ :: stack.caches, stack.base⟩

/-- Destroy the top cache; what it holds is lost. -/
def pop (stack : CoinsStack) : Option CoinsStack :=
  match stack.caches with
  | [] => none
  | _ :: lower => some ⟨lower, stack.base⟩

end CoinsStack

/-- The operations a program performs on the stack. -/
inductive CoinsOp where
  | addCoin (outpoint : COutPoint) (coin : Coin) (possibleOverwrite : Bool)
  | spendCoin (outpoint : COutPoint)
  | uncache (depth : Nat) (outpoint : COutPoint)
  | flush (depth : Nat)
  | sync (depth : Nat)
  | push
  | pop
  | getCoin (depth : Nat) (outpoint : COutPoint)
  | haveCoin (depth : Nat) (outpoint : COutPoint)
  | accessCoin (depth : Nat) (outpoint : COutPoint)
  deriving Repr, DecidableEq

/-- One operation; what a read returns is dropped, the cache it fills is kept. -/
def CoinsStack.step (stack : CoinsStack) : CoinsOp → Option CoinsStack
  | .addCoin outpoint coin possibleOverwrite => stack.addCoin outpoint coin possibleOverwrite
  | .spendCoin outpoint => (stack.spendCoin outpoint).map Prod.snd
  | .uncache depth outpoint => stack.uncacheAt depth outpoint
  | .flush depth => stack.flushAt depth
  | .sync depth => stack.syncAt depth
  | .push => some stack.push
  | .pop => stack.pop
  | .getCoin depth outpoint => (stack.getCoinAt depth outpoint).map Prod.snd
  | .haveCoin depth outpoint => (stack.haveCoinAt depth outpoint).map Prod.snd
  | .accessCoin depth outpoint => (stack.accessCoinAt depth outpoint).map Prod.snd

end Freycoin.Coins
