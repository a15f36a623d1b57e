import Lycancoin.Chain.Pow
import Mathlib

namespace Lycancoin

def REJECT_INVALID : Nat := 0x10

def REJECT_OBSOLETE : Nat := 0x11

def REJECT_CHECKPOINT : Nat := 0x43

/-- A `CValidationState` in `MODE_INVALID`. -/
structure Rejection where
  nDoS : Nat
  chRejectCode : Nat
  strRejectReason : String
  corruptionPossible : Bool
deriving DecidableEq, Repr

/-- Why a check does not return true: a network rule is violated, a run-time
error stops the program, an assertion fails, or the behaviour is undefined. -/
inductive Failure where
  | invalid (rejection : Rejection)
  | error
  | assertion
  | overflow
deriving DecidableEq, Repr

abbrev Check (α : Type) := Except Failure α

def dos (level chRejectCode : Nat) (strRejectReason : String) : Failure :=
  .invalid { nDoS := level, chRejectCode, strRejectReason, corruptionPossible := false }

/-- `DoS` with `corruptionIn`. -/
def dosCorruption (level chRejectCode : Nat) (strRejectReason : String) : Failure :=
  .invalid { nDoS := level, chRejectCode, strRejectReason, corruptionPossible := true }

def invalid (chRejectCode : Nat) (strRejectReason : String) : Failure :=
  dos 0 chRejectCode strRejectReason

def rejectIf (condition : Bool) (failure : Failure) : Check Unit :=
  if condition then .error failure else .ok ()

theorem rejectIf_eq_ok {condition : Bool} {failure : Failure} :
    rejectIf condition failure = .ok () ↔ condition = false := by
  cases condition <;> simp [rejectIf]

theorem check_bind_eq_ok {α β : Type} {check : Check α} {next : α → Check β} {result : β} :
    (check >>= next) = .ok result ↔ ∃ value, check = .ok value ∧ next value = .ok result := by
  cases check with
  | error failure => simp [bind, Except.bind]
  | ok value => simp [bind, Except.bind]

/-- A check that only passes or fails, and what comes after it. -/
theorem check_seq_eq_ok {β : Type} {check : Check Unit} {next : Unit → Check β} {result : β} :
    (check >>= next) = .ok result ↔ check = .ok () ∧ next () = .ok result := by
  rw [check_bind_eq_ok]
  exact ⟨fun ⟨_, passed, rest⟩ => ⟨passed, rest⟩, fun ⟨passed, rest⟩ => ⟨(), passed, rest⟩⟩

theorem exists_ok_of_any {α : Type} {check : Check α} {holds : α → Bool}
    (succeeds : check.toOption.any holds = true) :
    ∃ value, check = .ok value ∧ holds value = true := by
  cases check with
  | error failure => contradiction
  | ok value => exact ⟨value, rfl, succeeds⟩

open Std

/-- What is fixed while the program runs: the digests of a header, the network
and `Checkpoints::fEnabled`. -/
structure Environment where
  hashes : Digests
  network : Network
  fCheckpointsEnabled : Bool

namespace Environment

def params (env : Environment) : CChainParams := env.network.params env.hashes

def consensus (env : Environment) : Consensus.Params := env.params.consensus

end Environment

/-- `mapBlockIndex` and `pindexBestHeader`. -/
structure HeaderIndex where
  mapBlockIndex : BlockMap
  pindexBestHeader : Option Uint256

def checkBlockHeader (env : Environment) (nAdjustedTime : Int) (block : CBlockHeader)
    (fCheckPOW : Bool) : Check Unit := do
  rejectIf (fCheckPOW &&
      !checkProofOfWork (env.hashes.getPoWHash block) block.nBits env.consensus)
    (dos 50 REJECT_INVALID "high-hash")
  rejectIf (block.getBlockTime > nAdjustedTime + 2 * 60 * 60)
    (invalid REJECT_INVALID "time-too-new")

def checkpointsCheckBlock (env : Environment) (nHeight : Nat) (hash : Uint256) : Bool :=
  if env.fCheckpointsEnabled then
    match env.params.mapCheckpoints.find? fun checkpoint => checkpoint.1 = nHeight with
    | none => true
    | some checkpoint => hash == checkpoint.2
  else true

def getLastCheckpoint (env : Environment) (index : BlockMap) : Option CBlockIndex :=
  if env.fCheckpointsEnabled then
    env.params.mapCheckpoints.reverse.findSome? fun checkpoint => index[checkpoint.2]?
  else none

/-- The loop of `IsSuperMajority`, which stops when enough blocks are found. -/
def countUpgraded (minVersion : Int) (nRequired : Nat) : Nat → List CBlockIndex → Nat
  | nFound, [] => nFound
  | nFound, block :: rest =>
      if nFound < nRequired then
        countUpgraded minVersion nRequired
          (if block.nVersion ≥ minVersion then nFound + 1 else nFound) rest
      else nFound

/-- `IsSuperMajority` over a chain that lists `pstart` first. -/
def isSuperMajority (env : Environment) (minVersion : Int) (chain : List CBlockIndex)
    (nRequired : Nat) : Bool :=
  decide (countUpgraded minVersion nRequired 0 (chain.take env.consensus.nMajorityWindow) ≥
    nRequired)

/-- `ContextualCheckBlockHeader`, for a block whose predecessor is the entry
under `prev`. -/
def contextualCheckBlockHeader (env : Environment) (index : BlockMap) (block : CBlockHeader)
    (prev : Uint256) : Check Unit := do
  let hash := env.hashes.getHash block
  if hash = env.consensus.hashGenesisBlock then return
  let chain := chainTo index prev
  match chain, getNextWorkRequired env.consensus chain block with
  | pindexPrev :: _, some nBits => do
      let nHeight := pindexPrev.nHeight + 1
      rejectIf (block.nBits != nBits) (dos 100 REJECT_INVALID "bad-diffbits")
      rejectIf (block.getBlockTime ≤ getMedianTimePast chain)
        (invalid REJECT_INVALID "time-too-old")
      rejectIf (!checkpointsCheckBlock env nHeight hash)
        (dos 100 REJECT_CHECKPOINT "checkpoint mismatch")
      rejectIf ((getLastCheckpoint env index).any fun pcheckpoint =>
        decide (nHeight < pcheckpoint.nHeight)) (dos 100 0 "")
      rejectIf (decide (block.nVersion < 2) &&
          isSuperMajority env 2 chain env.consensus.nMajorityRejectBlockOutdated)
        (invalid REJECT_OBSOLETE "bad-version")
      rejectIf (decide (block.nVersion < 3) &&
          isSuperMajority env 3 chain env.consensus.nMajorityRejectBlockOutdated)
        (invalid REJECT_OBSOLETE "bad-version")
  | _, _ => .error .assertion

/-- The entry that `AddToBlockIndex` builds for a header it does not know. -/
def newBlockIndex (index : BlockMap) (block : CBlockHeader) : CBlockIndex :=
  let pindexNew := CBlockIndex.ofHeader block
  let (pindexNew, work) :=
    match index[block.hashPrevBlock]? with
    | some pprev =>
        ({ pindexNew with pprev := some block.hashPrevBlock, nHeight := pprev.nHeight + 1 },
          pprev.nChainWork)
    | none => (pindexNew, 0)
  { pindexNew with
    nChainWork := work + getBlockProof pindexNew
    nStatus := pindexNew.nStatus.raiseValidity .tree }

def addToBlockIndex (env : Environment) (state : HeaderIndex) (block : CBlockHeader) :
    HeaderIndex :=
  let hash := env.hashes.getHash block
  if hash ∈ state.mapBlockIndex then state
  else
    let pindexNew := newBlockIndex state.mapBlockIndex block
    let improves : Bool :=
      match state.pindexBestHeader.bind fun best => state.mapBlockIndex[best]? with
      | none => true
      | some best => decide (best.nChainWork < pindexNew.nChainWork)
    { mapBlockIndex := state.mapBlockIndex.insert hash pindexNew
      pindexBestHeader := if improves then some hash else state.pindexBestHeader }

/-- The checks that `AcceptBlockHeader` makes of a header it does not know. -/
def checkNewHeader (env : Environment) (nAdjustedTime : Int) (block : CBlockHeader)
    (index : BlockMap) : Check Unit := do
  checkBlockHeader env nAdjustedTime block true
  if env.hashes.getHash block ≠ env.consensus.hashGenesisBlock then
    match index[block.hashPrevBlock]? with
    | none => .error (dos 10 0 "bad-prevblk")
    | some pindexPrev => rejectIf pindexPrev.nStatus.failed (dos 100 REJECT_INVALID "bad-prevblk")
  contextualCheckBlockHeader env index block block.hashPrevBlock

def acceptBlockHeader (env : Environment) (nAdjustedTime : Int) (block : CBlockHeader)
    (state : HeaderIndex) : Check Unit × HeaderIndex :=
  match state.mapBlockIndex[env.hashes.getHash block]? with
  | some pindex =>
      if pindex.nStatus.failed then (.error (invalid 0 "duplicate"), state) else (.ok (), state)
  | none =>
      match checkNewHeader env nAdjustedTime block state.mapBlockIndex with
      | .error failure => (.error failure, state)
      | .ok () => (.ok (), addToBlockIndex env state block)

/-- One call of `AcceptBlockHeader`, with the adjusted time at the call. -/
structure HeaderCall where
  nAdjustedTime : Int
  block : CBlockHeader

namespace HeaderIndex

def genesis (env : Environment) : HeaderIndex :=
  addToBlockIndex env { mapBlockIndex := ∅, pindexBestHeader := none } env.params.genesis

def run (env : Environment) (calls : List HeaderCall) : HeaderIndex :=
  calls.foldl (fun state call => (acceptBlockHeader env call.nAdjustedTime call.block state).2)
    (genesis env)

end HeaderIndex

end Lycancoin
