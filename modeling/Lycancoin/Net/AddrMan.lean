import Lycancoin.Net.NetAddr
import Lycancoin.Primitives.Uint256

namespace Lycancoin

open Std

/-- Total number of buckets for tried addresses. -/
abbrev ADDRMAN_TRIED_BUCKET_COUNT : Nat := 256

/-- Total number of buckets for new addresses. -/
abbrev ADDRMAN_NEW_BUCKET_COUNT : Nat := 1024

/-- Maximum allowed number of entries in a bucket. -/
abbrev ADDRMAN_BUCKET_SIZE : Nat := 64

/-- In how many buckets for new addresses a single address may occur. -/
def ADDRMAN_NEW_BUCKETS_PER_ADDRESS : Int := 8

/-- How old addresses can maximally be. -/
def ADDRMAN_HORIZON_DAYS : Int := 30

/-- After how many failed attempts a new node is given up. -/
def ADDRMAN_RETRIES : Int := 3

/-- How many successive failures are allowed in `ADDRMAN_MIN_FAIL_DAYS`. -/
def ADDRMAN_MAX_FAILURES : Int := 10

def ADDRMAN_MIN_FAIL_DAYS : Int := 7

/-- The maximum percentage of nodes to return in a getaddr call. -/
def ADDRMAN_GETADDR_MAX_PCT : Nat := 23

/-- The maximum number of nodes to return in a getaddr call. -/
def ADDRMAN_GETADDR_MAX : Nat := 2500

/-- `nRandomPos` is set as soon as an entry is made, so the -1 that the
constructor gives it is left out. -/
structure CAddrInfo extends CAddress where
  nLastTry : Int
  source : CNetAddr
  nLastSuccess : Int
  nAttempts : Int
  nRefCount : Int
  fInTried : Bool
  nRandomPos : Nat
deriving DecidableEq, Repr

namespace CAddrInfo

def ofAddress (addrIn : CAddress) (addrSource : CNetAddr) (nRandomPos : Nat) : CAddrInfo :=
  { addrIn with
    nLastTry := 0
    source := addrSource
    nLastSuccess := 0
    nAttempts := 0
    nRefCount := 0
    fInTried := false
    nRandomPos }

def isTerrible (info : CAddrInfo) (nNow : Int) : Bool :=
  if info.nLastTry ≠ 0 ∧ info.nLastTry ≥ nNow - 60 then false
  else if (info.nTime.toNat : Int) > nNow + 10 * 60 then true
  else if info.nTime = 0 ∨ nNow - info.nTime.toNat > ADDRMAN_HORIZON_DAYS * 24 * 60 * 60 then true
  else if info.nLastSuccess = 0 ∧ info.nAttempts ≥ ADDRMAN_RETRIES then true
  else
    decide (nNow - info.nLastSuccess > ADDRMAN_MIN_FAIL_DAYS * 24 * 60 * 60 ∧
      info.nAttempts ≥ ADDRMAN_MAX_FAILURES)

end CAddrInfo

/-- A time behind a penalty, as an `unsigned int`. -/
def penalized (nTime : UInt32) (nTimePenalty : Int) : UInt32 :=
  UInt32.ofNat (max 0 ((nTime.toNat : Int) - nTimePenalty)).toNat

abbrev Slot (buckets : Nat) := Fin buckets × Fin ADDRMAN_BUCKET_SIZE

/-- The bucket functions, which hash the key, the address and its group. -/
structure AddrHashes where
  getTriedBucket : Uint256 → CService → Fin ADDRMAN_TRIED_BUCKET_COUNT
  getNewBucket : Uint256 → CNetAddr → CNetAddr → Fin ADDRMAN_NEW_BUCKET_COUNT
  getBucketPosition : Uint256 → (fNew : Bool) → (nBucket : Nat) → CService → Fin ADDRMAN_BUCKET_SIZE

namespace AddrHashes

def triedSlot (hashes : AddrHashes) (nKey : Uint256) (addr : CService) :
    Slot ADDRMAN_TRIED_BUCKET_COUNT :=
  let nKBucket := hashes.getTriedBucket nKey addr
  (nKBucket, hashes.getBucketPosition nKey false nKBucket addr)

def slotIn (hashes : AddrHashes) (nKey : Uint256) (addr : CService)
    (bucket : Fin ADDRMAN_NEW_BUCKET_COUNT) : Slot ADDRMAN_NEW_BUCKET_COUNT :=
  (bucket, hashes.getBucketPosition nKey true bucket addr)

def newSlot (hashes : AddrHashes) (nKey : Uint256) (addr : CService) (src : CNetAddr) :
    Slot ADDRMAN_NEW_BUCKET_COUNT :=
  hashes.slotIn nKey addr (hashes.getNewBucket nKey addr.toCNetAddr src)

end AddrHashes

/-- The ids are not negative, so the -1 of a free slot is none of them. -/
structure CAddrMan where
  nKey : Uint256
  nIdCount : Nat
  mapInfo : ExtTreeMap Nat CAddrInfo
  mapAddr : ExtTreeMap CNetAddr Nat
  vRandom : List Nat
  nTried : Int
  vvTried : Slot ADDRMAN_TRIED_BUCKET_COUNT → Option Nat
  nNew : Int
  vvNew : Slot ADDRMAN_NEW_BUCKET_COUNT → Option Nat

namespace CAddrMan

def empty (nKey : Uint256) : CAddrMan where
  nKey
  nIdCount := 0
  mapInfo := ∅
  mapAddr := ∅
  vRandom := []
  nTried := 0
  vvTried _ := none
  nNew := 0
  vvNew _ := none

def modifyInfo (nId : Nat) (edit : CAddrInfo → CAddrInfo) (man : CAddrMan) : CAddrMan :=
  { man with
    mapInfo :=
      match man.mapInfo[nId]? with
      | some info => man.mapInfo.insert nId (edit info)
      | none => man.mapInfo }

def find (addr : CNetAddr) (man : CAddrMan) : Option (Nat × CAddrInfo) := do
  let nId ← man.mapAddr[addr]?
  let info ← man.mapInfo[nId]?
  some (nId, info)

/-- The entry that `Create` makes under the next id. -/
def withEntry (addr : CAddress) (addrSource : CNetAddr) (man : CAddrMan) : CAddrMan :=
  { man with
    nIdCount := man.nIdCount + 1
    mapInfo := man.mapInfo.insert man.nIdCount
      (CAddrInfo.ofAddress addr addrSource man.vRandom.length)
    mapAddr := man.mapAddr.insert addr.toCNetAddr man.nIdCount
    vRandom := man.vRandom ++ [man.nIdCount] }

/-! In what follows `none` stands for a failed assertion, for an `int` that
overflows, and for an id in a table or a list that has no entry. -/

def create (addr : CAddress) (addrSource : CNetAddr) (man : CAddrMan) : Option CAddrMan :=
  if man.nIdCount + 1 < 2 ^ 31 then some (man.withEntry addr addrSource) else none

def swapRandom (nRndPos1 nRndPos2 : Nat) (man : CAddrMan) : Option CAddrMan :=
  if nRndPos1 = nRndPos2 then some man
  else do
    let nId1 ← man.vRandom[nRndPos1]?
    let nId2 ← man.vRandom[nRndPos2]?
    let info1 ← man.mapInfo[nId1]?
    let info2 ← man.mapInfo[nId2]?
    some { man with
      mapInfo := (man.mapInfo.insert nId1 { info1 with nRandomPos := nRndPos2 }).insert nId2
        { info2 with nRandomPos := nRndPos1 }
      vRandom := (man.vRandom.set nRndPos1 nId2).set nRndPos2 nId1 }

def delete (nId : Nat) (man : CAddrMan) : Option CAddrMan := do
  let info ← man.mapInfo[nId]?
  if info.fInTried ∨ info.nRefCount ≠ 0 then none
  else do
    let man ← man.swapRandom info.nRandomPos (man.vRandom.length - 1)
    some { man with
      vRandom := man.vRandom.dropLast
      mapAddr := man.mapAddr.erase info.toCNetAddr
      mapInfo := man.mapInfo.erase nId
      nNew := man.nNew - 1 }

def release (slot : Slot ADDRMAN_NEW_BUCKET_COUNT) (nId : Nat) (man : CAddrMan) : CAddrMan :=
  { man.modifyInfo nId fun info => { info with nRefCount := info.nRefCount - 1 } with
    vvNew := Function.update man.vvNew slot none }

def occupy (slot : Slot ADDRMAN_NEW_BUCKET_COUNT) (nId : Nat) (edit : CAddrInfo → CAddrInfo)
    (man : CAddrMan) : CAddrMan :=
  { man.modifyInfo nId edit with vvNew := Function.update man.vvNew slot (some nId) }

def demote (slot : Slot ADDRMAN_TRIED_BUCKET_COUNT) (nId : Nat) (man : CAddrMan) : CAddrMan :=
  { man.modifyInfo nId fun info => { info with fInTried := false } with
    vvTried := Function.update man.vvTried slot none
    nTried := man.nTried - 1 }

def promote (slot : Slot ADDRMAN_TRIED_BUCKET_COUNT) (nId : Nat) (man : CAddrMan) : CAddrMan :=
  { man.modifyInfo nId fun info => { info with fInTried := true } with
    vvTried := Function.update man.vvTried slot (some nId)
    nTried := man.nTried + 1 }

def clearNew (slot : Slot ADDRMAN_NEW_BUCKET_COUNT) (man : CAddrMan) : Option CAddrMan :=
  match man.vvNew slot with
  | none => some man
  | some nIdDelete => do
      let infoDelete ← man.mapInfo[nIdDelete]?
      if infoDelete.nRefCount ≤ 0 then none
      else if infoDelete.nRefCount - 1 = 0 then (man.release slot nIdDelete).delete nIdDelete
      else some (man.release slot nIdDelete)

/-- One round of the first loop of `MakeTried`. -/
def leaveBucket (hashes : AddrHashes) (nId : Nat) (man : CAddrMan)
    (bucket : Fin ADDRMAN_NEW_BUCKET_COUNT) : CAddrMan :=
  match man.mapInfo[nId]? with
  | none => man
  | some info =>
      let slot := hashes.slotIn man.nKey info.toCService bucket
      if man.vvNew slot = some nId then man.release slot nId else man

/-- The first loop of `MakeTried`. -/
def leaveBuckets (hashes : AddrHashes) (nId : Nat) (man : CAddrMan) : CAddrMan :=
  (List.finRange ADDRMAN_NEW_BUCKET_COUNT).foldl (leaveBucket hashes nId) man

/-- The eviction in `MakeTried` of the entry in a tried slot. -/
def evict (hashes : AddrHashes) (slot : Slot ADDRMAN_TRIED_BUCKET_COUNT) (man : CAddrMan) :
    Option CAddrMan :=
  match man.vvTried slot with
  | none => some man
  | some nIdEvict => do
      let infoOld ← man.mapInfo[nIdEvict]?
      let newSlot := hashes.newSlot man.nKey infoOld.toCService infoOld.source
      let cleared ← (man.demote slot nIdEvict).clearNew newSlot
      if cleared.vvNew newSlot ≠ none then none
      else
        let entered := cleared.occupy newSlot nIdEvict fun info => { info with nRefCount := 1 }
        some { entered with nNew := entered.nNew + 1 }

/-- The part of `MakeTried` behind the loop. -/
def enterTried (hashes : AddrHashes) (nId : Nat) (man : CAddrMan) : Option CAddrMan := do
  let info ← man.mapInfo[nId]?
  if info.nRefCount ≠ 0 then none
  else do
    let slot := hashes.triedSlot man.nKey info.toCService
    let evicted ← man.evict hashes slot
    if evicted.vvTried slot ≠ none then none else some (evicted.promote slot nId)

def makeTried (hashes : AddrHashes) (nId : Nat) (man : CAddrMan) : Option CAddrMan :=
  let left := man.leaveBuckets hashes nId
  enterTried hashes nId { left with nNew := left.nNew - 1 }

/-- The search of `Good_` for a bucket that holds the entry. -/
def findBucket (hashes : AddrHashes) (nRnd : Nat) (nId : Nat) (addr : CService) (man : CAddrMan) :
    Option (Fin ADDRMAN_NEW_BUCKET_COUNT) :=
  ((List.range ADDRMAN_NEW_BUCKET_COUNT).map fun n =>
    Fin.ofNat ADDRMAN_NEW_BUCKET_COUNT (n + nRnd)).find? fun nB =>
      man.vvNew (hashes.slotIn man.nKey addr nB) == some nId

/-- `Good_`, with the number that `GetRandInt` returns. -/
def good (hashes : AddrHashes) (addr : CService) (nTime : Int) (nRnd : Nat) (man : CAddrMan) :
    Option CAddrMan :=
  match man.find addr.toCNetAddr with
  | none => some man
  | some (nId, info) =>
      if info.toCService ≠ addr then some man
      else
        let updated := man.modifyInfo nId fun info =>
          { info with nLastSuccess := nTime, nLastTry := nTime, nAttempts := 0 }
        if info.fInTried then some updated
        else
          match updated.findBucket hashes nRnd nId addr with
          | none => some updated
          | some _ => updated.makeTried hashes nId

/-- What `Add_` takes from elsewhere: `GetAdjustedTime` at its two calls, and
`GetRandInt`. -/
structure AddContext where
  nNow : Int
  nLater : Int
  getRandInt : Nat → Nat

/-- The changes that `Add_` makes to an entry it knows. -/
def refresh (addr : CAddress) (nTimePenalty nNow : Int) (info : CAddrInfo) : CAddrInfo :=
  let fCurrentlyOnline := nNow - addr.nTime.toNat < 24 * 60 * 60
  let nUpdateInterval : Int := if fCurrentlyOnline then 60 * 60 else 24 * 60 * 60
  let stale := addr.nTime ≠ 0 ∧ (info.nTime = 0 ∨
    (info.nTime.toNat : Int) < addr.nTime.toNat - nUpdateInterval - nTimePenalty)
  { info with
    nTime := if stale then penalized addr.nTime nTimePenalty else info.nTime
    nServices := info.nServices ||| addr.nServices }

/-- Whether `Add_` goes on with an entry that it knows.  The more references the
entry has, the less likely it gets another. -/
def wantsReference (addr : CAddress) (getRandInt : Nat → Nat) (info : CAddrInfo) : Bool :=
  if addr.nTime = 0 ∨ (info.nTime ≠ 0 ∧ addr.nTime ≤ info.nTime) then false
  else if info.fInTried then false
  else if info.nRefCount = ADDRMAN_NEW_BUCKETS_PER_ADDRESS then false
  else
    let nFactor := 2 ^ info.nRefCount.toNat
    !(decide (1 < nFactor) && getRandInt nFactor != 0)

/-- Whether `Add_` may take a slot for an entry. -/
def mayInsert (slot : Slot ADDRMAN_NEW_BUCKET_COUNT) (nLater : Int) (info : CAddrInfo)
    (man : CAddrMan) : Option Bool :=
  match man.vvNew slot with
  | none => some true
  | some nIdExisting => do
      let infoExisting ← man.mapInfo[nIdExisting]?
      some (infoExisting.isTerrible nLater ||
        (decide (infoExisting.nRefCount > 1) && info.nRefCount == 0))

/-- The last part of `Add_`, which puts an entry into a new bucket. -/
def enterNew (hashes : AddrHashes) (source : CNetAddr) (nLater : Int) (nId : Nat) (man : CAddrMan) :
    Option CAddrMan := do
  let info ← man.mapInfo[nId]?
  let slot := hashes.newSlot man.nKey info.toCService source
  if man.vvNew slot = some nId then some man
  else do
    let fInsert ← man.mayInsert slot nLater info
    if fInsert then do
      let cleared ← man.clearNew slot
      some (cleared.occupy slot nId fun info => { info with nRefCount := info.nRefCount + 1 })
    else if info.nRefCount = 0 then man.delete nId
    else some man

def add (hashes : AddrHashes) (addr : CAddress) (source : CNetAddr) (nTimePenalty : Int)
    (context : AddContext) (man : CAddrMan) : Option (Bool × CAddrMan) :=
  if !addr.isRoutable then some (false, man)
  else
    match man.find addr.toCNetAddr with
    | some (nId, info) =>
        let refreshed := man.modifyInfo nId (refresh addr nTimePenalty context.nNow)
        if wantsReference addr context.getRandInt (refresh addr nTimePenalty context.nNow info) then
          (refreshed.enterNew hashes source context.nLater nId).map (false, ·)
        else some (false, refreshed)
    | none => do
        let created ← man.create addr source
        let dated := created.modifyInfo man.nIdCount fun info =>
          { info with nTime := penalized info.nTime nTimePenalty }
        (enterNew hashes source context.nLater man.nIdCount
          { dated with nNew := dated.nNew + 1 }).map (true, ·)

def attempt (addr : CService) (nTime : Int) (man : CAddrMan) : Option CAddrMan :=
  match man.find addr.toCNetAddr with
  | none => some man
  | some (nId, info) =>
      if info.toCService ≠ addr then some man
      else if info.nAttempts + 1 < 2 ^ 31 then
        some (man.modifyInfo nId fun info =>
          { info with nLastTry := nTime, nAttempts := info.nAttempts + 1 })
      else none

def connected (addr : CService) (nTime : Int) (man : CAddrMan) : CAddrMan :=
  match man.find addr.toCNetAddr with
  | none => man
  | some (nId, info) =>
      if info.toCService ≠ addr then man
      else
        let nUpdateInterval := 20 * 60
        if nTime - info.nTime.toNat > nUpdateInterval then
          man.modifyInfo nId fun info =>
            { info with nTime := UInt32.ofNat (nTime % 2 ^ 32).toNat }
        else man

/-- What `GetAddr_` takes from elsewhere in each of its rounds: a random number,
of which `GetRandInt` takes the remainder, and `GetAdjustedTime`. -/
structure GetAddrContext where
  random : Nat → Nat
  nNow : Nat → Int

/-- The loop of `GetAddr_`, with the number of rounds that are left. -/
def gatherAddr (context : GetAddrContext) (nNodes : Nat) :
    Nat → List CAddress → CAddrMan → Option (List CAddress × CAddrMan)
  | 0, vAddr, man => some (vAddr, man)
  | rounds + 1, vAddr, man =>
      if vAddr.length ≥ nNodes then some (vAddr, man)
      else do
        let n := man.vRandom.length - (rounds + 1)
        let nRndPos := context.random n % (man.vRandom.length - n) + n
        let man ← man.swapRandom n nRndPos
        let nId ← man.vRandom[n]?
        let ai ← man.mapInfo[nId]?
        gatherAddr context nNodes rounds
          (if ai.isTerrible (context.nNow n) then vAddr else vAddr ++ [ai.toCAddress]) man

def getAddr (context : GetAddrContext) (man : CAddrMan) : Option (List CAddress × CAddrMan) :=
  let nNodes := min (ADDRMAN_GETADDR_MAX_PCT * man.vRandom.length / 100) ADDRMAN_GETADDR_MAX
  man.gatherAddr context nNodes man.vRandom.length []

end CAddrMan

inductive AddrCall
  | add (addr : CAddress) (source : CNetAddr) (nTimePenalty : Int) (context : CAddrMan.AddContext)
  | good (addr : CService) (nTime : Int) (nRnd : Nat)
  | attempt (addr : CService) (nTime : Int)
  | connected (addr : CService) (nTime : Int)
  | getAddr (context : CAddrMan.GetAddrContext)

namespace CAddrMan

def step (hashes : AddrHashes) (man : CAddrMan) : AddrCall → Option CAddrMan
  | .add addr source nTimePenalty context =>
      (man.add hashes addr source nTimePenalty context).map Prod.snd
  | .good addr nTime nRnd => man.good hashes addr nTime nRnd
  | .attempt addr nTime => man.attempt addr nTime
  | .connected addr nTime => some (man.connected addr nTime)
  | .getAddr context => (man.getAddr context).map Prod.snd

def run (hashes : AddrHashes) (man : CAddrMan) (calls : List AddrCall) : Option CAddrMan :=
  calls.foldlM (step hashes) man

end CAddrMan

end Lycancoin
