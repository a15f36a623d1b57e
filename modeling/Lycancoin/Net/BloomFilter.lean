import Lycancoin.Data.Bloom
import Lycancoin.Primitives.Serialize
import Lycancoin.Script.Standard

namespace Lycancoin

open Lycancoin.Data

def rotl32 (x r : UInt32) : UInt32 := (x <<< r) ||| (x >>> (32 - r))

/-- What `MurmurHash3` does to a block before it enters the hash. -/
def murmurMix (k1 : UInt32) : UInt32 := rotl32 (k1 * 0xcc9e2d51) 15 * 0x1b873593

/-- The body of `MurmurHash3`, four bytes at a time, and its tail. -/
def murmurBlocks (h1 : UInt32) : List UInt8 → UInt32
  | b₀ :: b₁ :: b₂ :: b₃ :: rest =>
      let k1 := b₀.toUInt32 ||| b₁.toUInt32 <<< 8 ||| b₂.toUInt32 <<< 16 ||| b₃.toUInt32 <<< 24
      murmurBlocks (rotl32 (h1 ^^^ murmurMix k1) 13 * 5 + 0xe6546b64) rest
  | [b₀, b₁, b₂] => h1 ^^^ murmurMix (b₂.toUInt32 <<< 16 ^^^ b₁.toUInt32 <<< 8 ^^^ b₀.toUInt32)
  | [b₀, b₁] => h1 ^^^ murmurMix (b₁.toUInt32 <<< 8 ^^^ b₀.toUInt32)
  | [b₀] => h1 ^^^ murmurMix b₀.toUInt32
  | [] => h1

def murmurHash3 (nHashSeed : UInt32) (vDataToHash : List UInt8) : UInt32 :=
  let h1 := murmurBlocks nHashSeed vDataToHash ^^^ UInt32.ofNat vDataToHash.length
  let h1 := (h1 ^^^ h1 >>> 16) * 0x85ebca6b
  let h1 := (h1 ^^^ h1 >>> 13) * 0xc2b2ae35
  h1 ^^^ h1 >>> 16

def MAX_BLOOM_FILTER_SIZE : Nat := 36000

def MAX_HASH_FUNCS : UInt32 := 50

def BLOOM_UPDATE_ALL : UInt8 := 1

def BLOOM_UPDATE_P2PUBKEY_ONLY : UInt8 := 2

def BLOOM_UPDATE_MASK : UInt8 := 3

structure CBloomFilter where
  vData : List UInt8
  isFull : Bool
  isEmpty : Bool
  nHashFuncs : UInt32
  nTweak : UInt32
  nFlags : UInt8
deriving DecidableEq, Repr

namespace CBloomFilter

/-- The default filter, which lets everything through. -/
def empty : CBloomFilter :=
  { vData := [], isFull := true, isEmpty := false, nHashFuncs := 0, nTweak := 0, nFlags := 0 }

/-- `Hash`.  There is no result where it divides by zero. -/
def hash (filter : CBloomFilter) (nHashNum : Nat) (vDataToHash : List UInt8) : Option Nat :=
  if filter.vData.length * 8 = 0 then none
  else some ((murmurHash3 (UInt32.ofNat nHashNum * 0xFBA4C795 + filter.nTweak)
    vDataToHash).toNat % (filter.vData.length * 8))

/-- The loop of `insert`, with the indices that are still to come. -/
def insertLoop (vKey : List UInt8) : List Nat → CBloomFilter → Option CBloomFilter
  | [], filter => some filter
  | i :: rest, filter => do
      let nIndex ← filter.hash i vKey
      let byte ← filter.vData[nIndex >>> 3]?
      insertLoop vKey rest { filter with
        vData := filter.vData.set (nIndex >>> 3) (byte ||| UInt8.ofNat (1 <<< (7 &&& nIndex))) }

def insert (vKey : List UInt8) (filter : CBloomFilter) : Option CBloomFilter :=
  if filter.isFull then some filter
  else do
    let filter ← insertLoop vKey (List.range filter.nHashFuncs.toNat) filter
    pure { filter with isEmpty := false }

def containsLoop (filter : CBloomFilter) (vKey : List UInt8) : List Nat → Option Bool
  | [] => some true
  | i :: rest => do
      let nIndex ← filter.hash i vKey
      let byte ← filter.vData[nIndex >>> 3]?
      if byte &&& UInt8.ofNat (1 <<< (7 &&& nIndex)) = 0 then some false
      else containsLoop filter vKey rest

def contains (filter : CBloomFilter) (vKey : List UInt8) : Option Bool :=
  if filter.isFull then some true
  else if filter.isEmpty then some false
  else filter.containsLoop vKey (List.range filter.nHashFuncs.toNat)

def clear (filter : CBloomFilter) : CBloomFilter :=
  { filter with
    vData := List.replicate filter.vData.length 0
    isFull := false
    isEmpty := true }

def isWithinSizeConstraints (filter : CBloomFilter) : Bool :=
  decide (filter.vData.length ≤ MAX_BLOOM_FILTER_SIZE) && decide (filter.nHashFuncs ≤ MAX_HASH_FUNCS)

def updateEmptyFull (filter : CBloomFilter) : CBloomFilter :=
  { filter with
    isFull := filter.vData.all (· == 0xff)
    isEmpty := filter.vData.all (· == 0) }

/-- A push without data matches nothing. -/
def matchData (filter : CBloomFilter) (data : List UInt8) : Option Bool :=
  if data.length ≠ 0 then filter.contains data else some false

/-- The loops of `IsRelevantAndUpdate` over the operations of a script: whether a push matches. -/
def matchPushes (filter : CBloomFilter) : Nat → CScript → Option Bool
  | _, [] => some false
  | 0, _ :: _ => some false
  | passes + 1, script =>
      match script.getOp with
      | none => some false
      | some (_, data, rest) => do
          if ← filter.matchData data then some true else matchPushes filter passes rest

def insertMatched (policy : StandardPolicy) (scriptPubKey : CScript) (outpoint : COutPoint)
    (filter : CBloomFilter) : Option CBloomFilter :=
  if filter.nFlags &&& BLOOM_UPDATE_MASK = BLOOM_UPDATE_ALL then filter.insert outpoint.serialize
  else if filter.nFlags &&& BLOOM_UPDATE_MASK = BLOOM_UPDATE_P2PUBKEY_ONLY then
    match scriptPubKey.solver policy with
    | some (.TX_PUBKEY, _) => filter.insert outpoint.serialize
    | some (.TX_MULTISIG, _) => filter.insert outpoint.serialize
    | _ => some filter
  else some filter

/-- The body of the loop of `IsRelevantAndUpdate` over the outputs. -/
def updateOutput (policy : StandardPolicy) (scriptPubKey : CScript) (outpoint : COutPoint)
    (filter : CBloomFilter) : Option (Bool × CBloomFilter) := do
  if ← filter.matchPushes scriptPubKey.length scriptPubKey then
    let filter ← filter.insertMatched policy scriptPubKey outpoint
    pure (true, filter)
  else pure (false, filter)

/-- The loop of `IsRelevantAndUpdate` over the outputs, from output `i` on. -/
def updateOutputs (policy : StandardPolicy) (hash : Uint256) :
    Nat → List CTxOut → CBloomFilter → Option (Bool × CBloomFilter)
  | _, [], filter => some (false, filter)
  | i, txout :: rest, filter => do
      let (found, filter) ←
        filter.updateOutput policy txout.scriptPubKey { hash, n := UInt32.ofNat i }
      let (later, filter) ← updateOutputs policy hash (i + 1) rest filter
      pure (found || later, filter)

/-- The loop of `IsRelevantAndUpdate` over the inputs. -/
def matchInputs (filter : CBloomFilter) : List CTxIn → Option Bool
  | [] => some false
  | txin :: rest => do
      if ← filter.contains txin.prevout.serialize then some true
      else if ← filter.matchPushes txin.scriptSig.length txin.scriptSig then some true
      else matchInputs filter rest

def isRelevantAndUpdate (policy : StandardPolicy) (tx : CTransaction) (filter : CBloomFilter) :
    Option (Bool × CBloomFilter) :=
  if filter.isFull then some (true, filter)
  else if filter.isEmpty then some (false, filter)
  else do
    let found ← filter.contains tx.hash.serialize
    let (matched, filter) ← filter.updateOutputs policy tx.hash 0 tx.vout
    if found || matched then some (true, filter)
    else
      let spent ← filter.matchInputs tx.vin
      pure (spent, filter)

end CBloomFilter

end Lycancoin
