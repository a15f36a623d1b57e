import Lycancoin.Coins.UtxoView
import Lycancoin.Consensus.Params
import Lycancoin.Data.KeyedTotal
import Lycancoin.Data.Sweep

namespace Lycancoin

open Lycancoin.Data

structure CTxMemPoolEntry where
  tx : CTransaction
  nFee : Int
  nTxSize : Nat
  nModSize : Nat
  nTime : Int
  dPriority : Float
  nHeight : UInt32

/-- `ptx` points to the transaction inside an entry of `mapTx`, which it names
by its key. -/
structure CInPoint where
  ptx : Uint256
  n : Nat
deriving DecidableEq, Repr

structure CTxMemPool where
  fSanityCheck : Bool
  nTransactionsUpdated : UInt32
  totalTxSize : UInt64
  mapTx : Std.ExtTreeMap Uint256 CTxMemPoolEntry
  mapNextTx : Std.ExtTreeMap COutPoint CInPoint
  mapDeltas : Std.ExtTreeMap Uint256 (Float × Int)

/-- Why a pool function does not return: it follows a pointer to an entry that
is gone, an assertion fails, or a loop has not ended within its passes. -/
inductive PoolFault where
  | danglingPointer
  | assertion
  | unfinished
deriving DecidableEq, Repr

namespace CTxMemPool

/-- The pool at the start of the program. The constructor does not set `totalTxSize`, which
is 0 because the pool is static. -/
def new : CTxMemPool :=
  { fSanityCheck := false
    nTransactionsUpdated := 0
    totalTxSize := 0
    mapTx := ∅
    mapNextTx := ∅
    mapDeltas := ∅ }

variable (pool : CTxMemPool)

/-- `*inpoint.ptx`. -/
def deref (inpoint : CInPoint) : Except PoolFault CTransaction :=
  match pool.mapTx[inpoint.ptx]? with
  | none => .error .danglingPointer
  | some entry => .ok entry.tx

def addUnchecked (hash : Uint256) (entry : CTxMemPoolEntry) : CTxMemPool :=
  { pool with
    mapTx := pool.mapTx.insert hash entry
    mapNextTx := entry.tx.vin.zipIdx.foldl
      (fun next item => next.insert item.1.prevout { ptx := hash, n := item.2 }) pool.mapNextTx
    nTransactionsUpdated := pool.nTransactionsUpdated + 1
    totalTxSize := pool.totalTxSize + UInt64.ofNat entry.nTxSize }

/-- The loop of `remove` over `vout`: whoever spends an output is queued. -/
def queueSpenders (hash : Uint256) (tx : CTransaction) (txToRemove : List Uint256) :
    Except PoolFault (List Uint256) :=
  (List.range tx.vout.length).foldlM
    (fun queue i =>
      match pool.mapNextTx[({ hash, n := UInt32.ofNat i } : COutPoint)]? with
      | none => .ok queue
      | some inpoint => do
          let spender ← pool.deref inpoint
          pure (queue ++ [spender.hash]))
    txToRemove

/-- The erasures of one pass of `remove`. -/
def eraseEntry (hash : Uint256) (entry : CTxMemPoolEntry) : CTxMemPool :=
  { pool with
    mapNextTx := entry.tx.vin.foldl (fun next txin => next.erase txin.prevout) pool.mapNextTx
    totalTxSize := pool.totalTxSize - UInt64.ofNat entry.nTxSize
    mapTx := pool.mapTx.erase hash
    nTransactionsUpdated := pool.nTransactionsUpdated + 1 }

/-- The `while` loop of `remove`. -/
def removeLoop (fRecursive : Bool) :
    Nat → CTxMemPool → List Uint256 → List CTransaction →
      Except PoolFault (CTxMemPool × List CTransaction)
  | _, pool, [], removed => .ok (pool, removed)
  | 0, _, _ :: _, _ => .error .unfinished
  | passes + 1, pool, hash :: txToRemove, removed =>
      match pool.mapTx[hash]? with
      | none => removeLoop fRecursive passes pool txToRemove removed
      | some entry => do
          let txToRemove ←
            if fRecursive then pool.queueSpenders hash entry.tx txToRemove else pure txToRemove
          removeLoop fRecursive passes (pool.eraseEntry hash entry) txToRemove
            (removed ++ [entry.tx])

/-- No output is queued twice over, so this many passes empty a queue. -/
def passes (txToRemove : List Uint256) : Nat :=
  txToRemove.length +
    (KeyedTotal.total (fun entry : CTxMemPoolEntry => (entry.tx.vout.length : Int))
      pool.mapTx).toNat

def remove (origTx : CTransaction) (removed : List CTransaction) (fRecursive : Bool) :
    Except PoolFault (CTxMemPool × List CTransaction) := do
  let txToRemove ←
    if fRecursive && !pool.mapTx.contains origTx.hash then
      pool.queueSpenders origTx.hash origTx [origTx.hash]
    else pure [origTx.hash]
  removeLoop fRecursive (pool.passes txToRemove) pool txToRemove removed

/-- Whether an input makes `removeCoinbaseSpends` drop its transaction.  The
depth is computed in `unsigned int`. -/
def spendsLostCoinbase (pcoins : UtxoView) (nMemPoolHeight : UInt32) (txin : CTxIn) :
    Except PoolFault Bool :=
  if pool.mapTx.contains txin.prevout.hash then .ok false
  else
    match pcoins.coins txin.prevout.hash with
    | none => if pool.fSanityCheck then .error .assertion else .ok true
    | some coins =>
        .ok (coins.fCoinBase &&
          decide (nMemPoolHeight - UInt32.ofInt coins.nHeight < UInt32.ofInt COINBASE_MATURITY))

/-- The loop of `removeCoinbaseSpends` over `mapTx`. -/
def lostCoinbaseSpends (pcoins : UtxoView) (nMemPoolHeight : UInt32) :
    List (Uint256 × CTxMemPoolEntry) → Except PoolFault (List CTransaction)
  | [] => .ok []
  | item :: rest => do
      let lost ← item.2.tx.vin.anyM (pool.spendsLostCoinbase pcoins nMemPoolHeight)
      let transactionsToRemove ← lostCoinbaseSpends pcoins nMemPoolHeight rest
      pure (if lost then item.2.tx :: transactionsToRemove else transactionsToRemove)

def removeCoinbaseSpends (pcoins : UtxoView) (nMemPoolHeight : UInt32) :
    Except PoolFault CTxMemPool := do
  let transactionsToRemove ← pool.lostCoinbaseSpends pcoins nMemPoolHeight pool.mapTx.toList
  transactionsToRemove.foldlM
    (fun pool tx => do
      let (pool, _) ← pool.remove tx [] true
      pure pool)
    pool

/-- The loop of `removeConflicts` over `tx.vin`.  Transactions are compared by
their hashes. -/
def removeSpendersOf (tx : CTransaction) :
    CTxMemPool → List CTxIn → List CTransaction → Except PoolFault (CTxMemPool × List CTransaction)
  | pool, [], removed => .ok (pool, removed)
  | pool, txin :: rest, removed =>
      match pool.mapNextTx[txin.prevout]? with
      | none => removeSpendersOf tx pool rest removed
      | some inpoint => do
          let txConflict ← pool.deref inpoint
          if txConflict.hash ≠ tx.hash then do
            let (pool, removed) ← pool.remove txConflict removed true
            removeSpendersOf tx pool rest removed
          else removeSpendersOf tx pool rest removed

def removeConflicts (tx : CTransaction) (removed : List CTransaction) :
    Except PoolFault (CTxMemPool × List CTransaction) :=
  removeSpendersOf tx pool tx.vin removed

def clearPrioritisation (hash : Uint256) : CTxMemPool :=
  { pool with mapDeltas := pool.mapDeltas.erase hash }

/-- `removeForBlock`, up to the fee estimator. -/
def removeForBlock (vtx : List CTransaction) (conflicts : List CTransaction) :
    Except PoolFault (CTxMemPool × List CTransaction) :=
  vtx.foldlM
    (fun (pool, conflicts) tx => do
      let (pool, _) ← pool.remove tx [] false
      let (pool, conflicts) ← pool.removeConflicts tx conflicts
      pure (pool.clearPrioritisation tx.hash, conflicts))
    (pool, conflicts)

def clear : CTxMemPool :=
  { pool with
    mapTx := ∅
    mapNextTx := ∅
    totalTxSize := 0
    nTransactionsUpdated := pool.nTransactionsUpdated + 1 }

end CTxMemPool

/-- Spends one of the outputs of `parent`. -/
def CTransaction.SpendsOutputOf (tx parent : CTransaction) : Prop :=
  ∃ txin ∈ tx.vin, txin.prevout.hash = parent.hash ∧ txin.prevout.n.toNat < parent.vout.length

namespace CTxMemPool

/-- Pool transaction `child` spends an output of pool transaction `parent`. -/
def Edge (pool : CTxMemPool) (parent child : Uint256) : Prop :=
  ∃ source target, pool.mapTx[parent]? = some source ∧ pool.mapTx[child]? = some target ∧
    target.tx.SpendsOutputOf source.tx

/-- The pool's copy of a transaction that is in the pool, the transaction
itself otherwise. -/
def copyOf (pool : CTxMemPool) (tx : CTransaction) : CTransaction :=
  (pool.mapTx[tx.hash]?).elim tx CTxMemPoolEntry.tx

/-- A pool transaction that spends an output of `tx`, directly or through a
chain of pool transactions. -/
def DescendsFrom (pool : CTxMemPool) (tx : CTransaction) (hash : Uint256) : Prop :=
  ∃ child entry, pool.mapTx[child]? = some entry ∧ entry.tx.SpendsOutputOf tx ∧
    Relation.ReflTransGen pool.Edge child hash

/-- A pool transaction other than `tx` that spends what one of the inputs
spends, or descends from one that does. -/
def ConflictsAt (pool : CTxMemPool) (tx : CTransaction) (inputs : List CTxIn) (hash : Uint256) :
    Prop :=
  ∃ conflict entry, pool.mapTx[conflict]? = some entry ∧ conflict ≠ tx.hash ∧
    (∃ txin ∈ entry.tx.vin, ∃ own ∈ inputs, txin.prevout = own.prevout) ∧
    Relation.ReflTransGen pool.Edge conflict hash

/-- The entries stand under their hashes, `mapNextTx` is the inverse of their
inputs, and `totalTxSize` adds up their sizes. -/
structure Exact (pool : CTxMemPool) : Prop where
  hash_eq : ∀ (hash : Uint256) (entry : CTxMemPoolEntry), pool.mapTx[hash]? = some entry →
    entry.tx.hash = hash
  next_iff : ∀ (outpoint : COutPoint) (inpoint : CInPoint),
    pool.mapNextTx[outpoint]? = some inpoint ↔
      ∃ entry, pool.mapTx[inpoint.ptx]? = some entry ∧
        (entry.tx.vin[inpoint.n]?).map CTxIn.prevout = some outpoint
  size_eq : (pool.totalTxSize.toNat : Int) =
    KeyedTotal.total (fun entry : CTxMemPoolEntry => (entry.nTxSize : Int)) pool.mapTx % 2 ^ 64

/-- The pool without the doomed entries.  `gone` lists their transactions, each
once. -/
structure Removal (pool : CTxMemPool) (doomed : Uint256 → Prop) (after : CTxMemPool)
    (gone : List CTransaction) : Prop where
  nodup : (gone.map CTransaction.hash).Nodup
  gone_iff : ∀ tx, tx ∈ gone ↔
    doomed tx.hash ∧ ∃ entry, pool.mapTx[tx.hash]? = some entry ∧ entry.tx = tx
  erased : ∀ hash : Uint256, doomed hash → after.mapTx[hash]? = none
  kept : ∀ hash : Uint256, ¬doomed hash → after.mapTx[hash]? = pool.mapTx[hash]?
  fSanityCheck : after.fSanityCheck = pool.fSanityCheck

end CTxMemPool

end Lycancoin
