import Lycancoin.Data.KeyedBatch
import Lycancoin.Primitives.Block

namespace Lycancoin

/-- `CScript::IsUnspendable`: the script starts with `OP_RETURN`. -/
def CScript.isUnspendable (script : CScript) : Bool := script.head? == some 0x6a

/-- The unspent outputs of one transaction.  Spent outputs are null. -/
structure CCoins where
  fCoinBase : Bool
  vout : List CTxOut
  nHeight : Int
  nVersion : Int
deriving DecidableEq, Repr

namespace CCoins

/-- `CCoins()`, which is also what `Clear` leaves. -/
def empty : CCoins := { fCoinBase := false, vout := [], nHeight := 0, nVersion := 0 }

/-- `IsPruned`: every output is spent. -/
def isPruned (coins : CCoins) : Bool := coins.vout.all CTxOut.isNull

/-- `Cleanup`: drop the spent outputs at the end of `vout`. -/
def cleanup (coins : CCoins) : CCoins :=
  { coins with vout := coins.vout.rdropWhile CTxOut.isNull }

def clearUnspendable (coins : CCoins) : CCoins :=
  cleanup { coins with
    vout := coins.vout.map fun txout =>
      if CScript.isUnspendable txout.scriptPubKey then CTxOut.null else txout }

def fromTx (tx : CTransaction) (nHeight : Int) : CCoins :=
  clearUnspendable {
    fCoinBase := tx.isCoinBase
    vout := tx.vout
    nHeight
    nVersion := tx.nVersion }

def isAvailable (coins : CCoins) (nPos : Nat) : Bool :=
  match coins.vout[nPos]? with
  | some txout => !txout.isNull
  | none => false

def spend (coins : CCoins) (nPos : Nat) : Bool × CCoins :=
  if coins.isAvailable nPos then
    (true, cleanup { coins with vout := coins.vout.set nPos CTxOut.null })
  else (false, coins)

/-- `operator==`, for which all pruned coins are equal. -/
def equals (left right : CCoins) : Bool :=
  if left.isPruned && right.isPruned then true
  else
    left.fCoinBase == right.fCoinBase && left.nHeight == right.nHeight &&
      left.nVersion == right.nVersion && left.vout == right.vout

/-- The invariant of the class: no spent output stands at the end of `vout`. -/
def Clean (coins : CCoins) : Prop :=
  ∀ txout, coins.vout.getLast? = some txout → txout.isNull = false

/-- What coins stand for when a pruned entry counts as absent. -/
def live (coins : CCoins) : Option CCoins := if coins.isPruned then none else some coins

variable {coins left right : CCoins}

@[simp] theorem isPruned_empty : empty.isPruned = true := rfl

@[simp] theorem live_empty : empty.live = none := rfl

theorem clean_empty : empty.Clean := by
  intro txout last
  simp [empty] at last

@[simp] theorem live_eq_none : coins.live = none ↔ coins.isPruned = true := by
  simp [live]

theorem live_of_isPruned (pruned : coins.isPruned = true) : coins.live = none :=
  live_eq_none.mpr pruned

theorem live_of_not_isPruned (unspent : coins.isPruned = false) : coins.live = some coins := by
  simp [live, unspent]

theorem clean_cleanup (coins : CCoins) : coins.cleanup.Clean := by
  intro txout last
  have nonempty : coins.cleanup.vout ≠ [] := by
    intro emptied
    simp [emptied] at last
  have kept := List.rdropWhile_last_not CTxOut.isNull coins.vout nonempty
  rw [List.getLast?_eq_some_getLast nonempty, Option.some.injEq] at last
  rw [← last]
  exact Bool.eq_false_iff.mpr kept

theorem cleanup_of_clean (clean : coins.Clean) : coins.cleanup = coins := by
  have kept : coins.vout.rdropWhile CTxOut.isNull = coins.vout := by
    rw [List.rdropWhile_eq_self_iff]
    intro nonempty
    have last := clean _ (List.getLast?_eq_some_getLast nonempty)
    simp [last]
  simp only [cleanup, kept]

theorem isPruned_iff_vout_eq_nil (clean : coins.Clean) :
    coins.isPruned = true ↔ coins.vout = [] := by
  constructor
  · intro pruned
    rw [isPruned, List.all_eq_true] at pruned
    have kept := congrArg vout (cleanup_of_clean clean)
    rw [← kept]
    exact List.rdropWhile_eq_nil_iff.mpr pruned
  · intro spent
    simp [isPruned, spent]

theorem isPruned_congr (same : left.vout = right.vout) : left.isPruned = right.isPruned := by
  rw [isPruned, isPruned, same]

/-- `operator==` compares what coins stand for. -/
theorem equals_iff_live_eq : equals left right = true ↔ left.live = right.live := by
  cases leftPruned : left.isPruned <;> cases rightPruned : right.isPruned
  · rw [live_of_not_isPruned leftPruned, live_of_not_isPruned rightPruned]
    cases left
    cases right
    simp only [equals, leftPruned, rightPruned, Bool.and_self, Bool.false_eq_true, if_false,
      Bool.and_eq_true, beq_iff_eq, Option.some.injEq, mk.injEq]
    tauto
  · have different : left.vout ≠ right.vout := fun same => by
      rw [isPruned_congr same, rightPruned] at leftPruned
      contradiction
    simp [equals, leftPruned, live_of_isPruned rightPruned, live_of_not_isPruned leftPruned,
      different]
  · have different : left.vout ≠ right.vout := fun same => by
      rw [isPruned_congr same, rightPruned] at leftPruned
      contradiction
    simp [equals, rightPruned, live_of_isPruned leftPruned, live_of_not_isPruned rightPruned,
      different]
  · simp [equals, leftPruned, rightPruned, live_of_isPruned]

end CCoins

abbrev TidyCoins := { coins : CCoins // coins.Clean }

namespace TidyCoins

/-- What `CCoinsModifier` stores when its caller is done. -/
def tidy (coins : CCoins) : TidyCoins := ⟨coins.cleanup, coins.clean_cleanup⟩

def empty : TidyCoins := ⟨CCoins.empty, CCoins.clean_empty⟩

def isPruned (coins : TidyCoins) : Bool := coins.val.isPruned

def live (coins : TidyCoins) : Option CCoins := coins.val.live

theorem isEmpty_vout (coins : TidyCoins) : coins.val.vout.isEmpty = coins.live.isNone := by
  rw [Bool.eq_iff_iff, List.isEmpty_iff, ← CCoins.isPruned_iff_vout_eq_nil coins.property,
    Option.isNone_iff_eq_none, live, CCoins.live_eq_none]

end TidyCoins

open Std Lycancoin.Data

structure CCoinsCacheEntry where
  coins : TidyCoins
  dirty : Bool
  fresh : Bool

abbrev CCoinsMap := ExtTreeMap Uint256 CCoinsCacheEntry

/-- A cache without its base pointer: the base is what lies below it in the stack. -/
structure CCoinsViewCache where
  hashBlock : Uint256
  cacheCoins : CCoinsMap

def CCoinsViewCache.empty : CCoinsViewCache := { hashBlock := Uint256.null, cacheCoins := ∅ }

/-- Replace the entry of a transaction in `cacheCoins`. -/
def CCoinsViewCache.put (cache : CCoinsViewCache) (txid : Uint256)
    (entry : Option CCoinsCacheEntry) : CCoinsViewCache :=
  { cache with cacheCoins := KeyedMerge.set cache.cacheCoins txid entry }

/-- The view at the bottom.  It may hold pruned entries. -/
structure CCoinsView where
  hashBestBlock : Uint256
  coins : ExtTreeMap Uint256 TidyCoins

/-- `GetCoins` of the bottom view, which may report a pruned entry or not. -/
def CCoinsView.getCoins (view : CCoinsView) (reportsPruned : Bool) (txid : Uint256) :
    Option TidyCoins :=
  match view.coins[txid]? with
  | some coins => if coins.isPruned && !reportsPruned then none else some coins
  | none => none

/-- What a bottom view may choose when it is written to: whether it stores
entries that are not dirty as well, and which pruned entries it keeps. -/
structure WritePolicy where
  writesUnmodified : Bool
  keepsPruned : Uint256 → Bool

def CCoinsView.batchWriteEntry (policy : WritePolicy) (txid : Uint256) (entry : CCoinsCacheEntry)
    (ours : Option TidyCoins) : Option (Option TidyCoins) :=
  if entry.dirty || policy.writesUnmodified then
    if entry.coins.isPruned && !policy.keepsPruned txid then some none
    else some (some entry.coins)
  else some ours

def CCoinsView.batchWrite (policy : WritePolicy) (view : CCoinsView) (mapCoins : CCoinsMap)
    (hashBlock : Uint256) : Option CCoinsView := do
  let coins ← KeyedMerge.merge? (batchWriteEntry policy) mapCoins view.coins
  pure { hashBestBlock := hashBlock, coins }

/-- One entry of `CCoinsViewCache::BatchWrite`.  There is no result when the
assertion on the `FRESH` flag fails. -/
def CCoinsViewCache.batchWriteEntry (_ : Uint256) (entry : CCoinsCacheEntry)
    (ours : Option CCoinsCacheEntry) : Option (Option CCoinsCacheEntry) :=
  if !entry.dirty then some ours
  else
    match ours with
    | none =>
        if entry.coins.isPruned then some none
        else if entry.fresh then some (some { coins := entry.coins, dirty := true, fresh := true })
        else none
    | some ours =>
        if ours.fresh && entry.coins.isPruned then some none
        else some (some { ours with coins := entry.coins, dirty := true })

def CCoinsViewCache.batchWrite (cache : CCoinsViewCache) (mapCoins : CCoinsMap)
    (hashBlockIn : Uint256) : Option CCoinsViewCache := do
  let cacheCoins ← KeyedMerge.merge? batchWriteEntry mapCoins cache.cacheCoins
  pure { hashBlock := hashBlockIn, cacheCoins }

/-- A bottom view and the caches on it, the top one first. -/
structure CacheStack where
  base : CCoinsView
  caches : List CCoinsViewCache

/-- `FetchCoins`, and `GetCoins` where it reaches the bottom view.  A cache that
does not know the coins stores what its base returns. -/
def fetchCoins (view : CCoinsView) (reportsPruned : Bool) (txid : Uint256) :
    List CCoinsViewCache → Option TidyCoins × List CCoinsViewCache
  | [] => (view.getCoins reportsPruned txid, [])
  | cache :: below =>
      match cache.cacheCoins[txid]? with
      | some entry => (some entry.coins, cache :: below)
      | none =>
          match fetchCoins view reportsPruned txid below with
          | (none, below) => (none, cache :: below)
          | (some coins, below) =>
              let entry := { coins, dirty := false, fresh := coins.isPruned }
              (some coins, cache.put txid (some entry) :: below)

/-- The entry that `ModifyCoins` hands out, before it is marked dirty. -/
def modifiedEntry (view : CCoinsView) (reportsPruned : Bool) (txid : Uint256)
    (cache : CCoinsViewCache) (below : List CCoinsViewCache) :
    CCoinsCacheEntry × List CCoinsViewCache :=
  match cache.cacheCoins[txid]? with
  | some entry => (entry, below)
  | none =>
      match fetchCoins view reportsPruned txid below with
      | (none, below) => ({ coins := TidyCoins.empty, dirty := false, fresh := true }, below)
      | (some coins, below) => ({ coins, dirty := false, fresh := coins.isPruned }, below)

/-- `ModifyCoins`, the edit that the caller makes of the coins, and the end of
the `CCoinsModifier`.  The coins returned are those handed to the caller. -/
def modifyCoins (view : CCoinsView) (reportsPruned : Bool) (txid : Uint256)
    (edit : CCoins → CCoins) (cache : CCoinsViewCache) (below : List CCoinsViewCache) :
    CCoins × List CCoinsViewCache :=
  let (entry, below) := modifiedEntry view reportsPruned txid cache below
  let coins := TidyCoins.tidy (edit entry.coins.val)
  let after : Option CCoinsCacheEntry :=
    if entry.fresh && coins.isPruned then none else some { entry with coins, dirty := true }
  (entry.coins.val, cache.put txid after :: below)

def getBestBlock (view : CCoinsView) : List CCoinsViewCache → Uint256 × List CCoinsViewCache
  | [] => (view.hashBestBlock, [])
  | cache :: below =>
      if cache.hashBlock.isNull then
        let (hashBlock, below) := getBestBlock view below
        (hashBlock, { cache with hashBlock } :: below)
      else (cache.hashBlock, cache :: below)

/-- `Flush` of the top cache, which is then dropped. -/
def flush (policy : WritePolicy) (view : CCoinsView) (cache : CCoinsViewCache) :
    List CCoinsViewCache → Option CacheStack
  | [] => do
      let base ← view.batchWrite policy cache.cacheCoins cache.hashBlock
      pure { base, caches := [] }
  | parent :: below => do
      let parent ← parent.batchWrite cache.cacheCoins cache.hashBlock
      pure { base := view, caches := parent :: below }

/-- What can be done to a stack.  A lookup says whether the bottom view reports
a pruned entry this time, and a flush how it takes the entries. -/
inductive Operation where
  | accessCoins (txid : Uint256) (reportsPruned : Bool)
  | getCoins (txid : Uint256) (reportsPruned : Bool)
  | haveCoins (txid : Uint256) (reportsPruned : Bool)
  | modifyCoins (txid : Uint256) (reportsPruned : Bool) (edit : CCoins → CCoins)
  | getBestBlock
  | setBestBlock (hashBlock : Uint256)
  | push
  | flush (policy : WritePolicy)
  | discard

/-- What the caller of an operation sees. -/
inductive Observation where
  | coins (found : Option CCoins)
  | have (found : Bool)
  | reference (coins : CCoins)
  | bestBlock (hashBlock : Uint256)
  | done

/-- One operation on the top of the stack.  An empty stack can only be pushed to. -/
def CacheStack.perform (stack : CacheStack) (operation : Operation) :
    Option (Observation × CacheStack) :=
  match operation, stack.caches with
  | .push, caches => some (.done, { stack with caches := CCoinsViewCache.empty :: caches })
  | _, [] => some (.done, stack)
  | .accessCoins txid reportsPruned, caches =>
      let (coins, caches) := fetchCoins stack.base reportsPruned txid caches
      some (.coins (coins.map Subtype.val), { stack with caches })
  | .getCoins txid reportsPruned, caches =>
      let (coins, caches) := fetchCoins stack.base reportsPruned txid caches
      some (.coins (coins.map Subtype.val), { stack with caches })
  | .haveCoins txid reportsPruned, caches =>
      let (coins, caches) := fetchCoins stack.base reportsPruned txid caches
      some (.have (coins.any fun coins => !coins.val.vout.isEmpty), { stack with caches })
  | .modifyCoins txid reportsPruned edit, cache :: below =>
      let (coins, caches) := Lycancoin.modifyCoins stack.base reportsPruned txid edit cache below
      some (.reference coins, { stack with caches })
  | .getBestBlock, caches =>
      let (hashBlock, caches) := Lycancoin.getBestBlock stack.base caches
      some (.bestBlock hashBlock, { stack with caches })
  | .setBestBlock hashBlock, cache :: below =>
      some (.done, { stack with caches := { cache with hashBlock } :: below })
  | .flush policy, cache :: below => do
      let stack ← Lycancoin.flush policy stack.base cache below
      pure (.done, stack)
  | .discard, _ :: below => some (.done, { stack with caches := below })

def CacheStack.run (stack : CacheStack) : List Operation → Option (List Observation × CacheStack)
  | [] => some ([], stack)
  | operation :: rest => do
      let (observation, stack) ← stack.perform operation
      let (observations, stack) ← stack.run rest
      pure (observation :: observations, stack)

end Lycancoin
