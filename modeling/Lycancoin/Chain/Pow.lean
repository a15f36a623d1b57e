import Lycancoin.Chain.BlockIndex
import Lycancoin.Consensus.Params

namespace Lycancoin

def COINFIX1_BLOCK : Nat := 15000

def FIX_RETARGET_HEIGHT : Nat := 24000

/-- Look at 4 times the retarget interval into the block history. -/
def nReTargetHistoryFact : Nat := 4

def bnProofOfWorkLimit : CBigNum :=
  0x00000fffffffffffffffffffffffffffffffffffffffffffffffffffffffffff

/-- `UintToArith256(params.powLimit).GetCompact()`. -/
def nProofOfWorkLimit (params : Consensus.Params) : UInt32 :=
  getCompact (uintToArith256 params.powLimit)

/-- The end of the arithmetic retargets: scale the old target by a timespan and
cap it. -/
def retarget (params : Consensus.Params) (nBits : UInt32) (nActualTimespan nTargetTimespan : Int) :
    UInt32 :=
  let bnPowLimit := uintToArith256 params.powLimit
  let bnNew := (setCompact nBits).value
  -- `operator*=` takes a `uint32_t`, `operator/=` an `arith_uint256`.
  let bnNew := bnNew * BitVec.ofNat 256 (nActualTimespan % 2 ^ 32).toNat
  let bnNew := bnNew / BitVec.ofNat 256 (nTargetTimespan % 2 ^ 64).toNat
  getCompact (if bnPowLimit < bnNew then bnPowLimit else bnNew)

/-- A timespan kept between two bounds. -/
def boundTimespan (lower upper nActualTimespan : Int) : Int :=
  let bounded := if nActualTimespan < lower then lower else nActualTimespan
  if bounded > upper then upper else bounded

def calculateNextWorkRequired (params : Consensus.Params) (pindexLast : CBlockIndex)
    (nFirstBlockTime : Int) : UInt32 :=
  let timespan := pindexLast.getBlockTime - nFirstBlockTime
  let nActualTimespan :=
    if pindexLast.nHeight > COINFIX1_BLOCK then timespan.tdiv nReTargetHistoryFact else timespan
  retarget params pindexLast.nBits
    (boundTimespan (params.nPowTargetTimespan.tdiv 4) (params.nPowTargetTimespan * 4)
      nActualTimespan)
    params.nPowTargetTimespan

/-- The walk to the last block that was not mined at the minimum difficulty. -/
def lastNonSpecial (params : Consensus.Params) : CBlockIndex → List CBlockIndex → CBlockIndex
  | pindex, [] => pindex
  | pindex, pprev :: rest =>
      if (pindex.nHeight : Int).tmod params.difficultyAdjustmentInterval ≠ 0 ∧
          pindex.nBits = nProofOfWorkLimit params then
        lastNonSpecial params pprev rest
      else pindex

/-- `GetNextWorkRequired_V1`.  A chain lists `pindexLast` and its ancestors;
there is no result when the assertion on `pindexFirst` fails. -/
def getNextWorkRequiredV1 (params : Consensus.Params) (chain : List CBlockIndex)
    (pblock : CBlockHeader) : Option UInt32 :=
  match chain with
  | [] => some (nProofOfWorkLimit params)
  | pindexLast :: ancestors =>
      let interval := params.difficultyAdjustmentInterval
      if (pindexLast.nHeight + 1 : Int).tmod interval ≠ 0 then
        if params.fPowAllowMinDifficultyBlocks then
          if pblock.getBlockTime > pindexLast.getBlockTime + params.nPowTargetSpacing * 2 then
            some (nProofOfWorkLimit params)
          else some (lastNonSpecial params pindexLast ancestors).nBits
        else some pindexLast.nBits
      else
        let blockstogoback :=
          if pindexLast.nHeight > COINFIX1_BLOCK then nReTargetHistoryFact * interval
          else if (pindexLast.nHeight + 1 : Int) ≠ interval then interval
          else interval - 1
        match (pindexLast :: ancestors)[blockstogoback.toNat]? with
        | none => none
        | some pindexFirst =>
            some (calculateNextWorkRequired params pindexLast pindexFirst.getBlockTime)

/-- The variables that the loop of `KimotoGravityWell` carries. -/
structure GravityWell where
  latestBlockTime : Int
  pastBlocksMass : Nat
  pastRateActualSeconds : Int
  pastRateTargetSeconds : Int
  pastDifficultyAverage : CBigNum

def eventHorizonDeviation (pastBlocksMass : Nat) : Float :=
  1 + 0.7084 * Float.pow (pastBlocksMass.toFloat / 144) (-1.228)

/-- Whether `PastRateAdjustmentRatio` leaves the event horizon. -/
def leavesEventHorizon (well : GravityWell) : Bool :=
  let ratio : Float :=
    if well.pastRateActualSeconds ≠ 0 ∧ well.pastRateTargetSeconds ≠ 0 then
      Float.ofInt well.pastRateTargetSeconds / Float.ofInt well.pastRateActualSeconds
    else 1
  let fast := eventHorizonDeviation well.pastBlocksMass
  let slow := 1 / fast
  decide (ratio ≤ slow) || decide (fast ≤ ratio)

/-- One block of the loop of `KimotoGravityWell`. -/
def GravityWell.read (targetBlocksSpacingSeconds : Nat) (well : GravityWell)
    (blockReading : CBlockIndex) : GravityWell :=
  let i := well.pastBlocksMass + 1
  let bnBits := CBigNum.setCompact blockReading.nBits
  let pastDifficultyAverage :=
    if i = 1 then bnBits
    else (bnBits - well.pastDifficultyAverage).tdiv i + well.pastDifficultyAverage
  let blockTime := blockReading.getBlockTime
  let latestBlockTime :=
    if well.latestBlockTime < blockTime ∧ blockReading.nHeight > 29000 then blockTime
    else well.latestBlockTime
  let actual := latestBlockTime - blockTime
  let pastRateActualSeconds :=
    if blockReading.nHeight > 29000 then
      if actual < 1 then 1 else actual
    else if actual < 0 then 0
    else actual
  { latestBlockTime
    pastBlocksMass := i
    pastRateActualSeconds
    pastRateTargetSeconds := targetBlocksSpacingSeconds * i
    pastDifficultyAverage }

/-- The loop of `KimotoGravityWell`. -/
def gravityWellLoop (targetBlocksSpacingSeconds pastBlocksMin pastBlocksMax : Nat) :
    GravityWell → List CBlockIndex → GravityWell
  | well, [] => well
  | well, blockReading :: rest =>
      if blockReading.nHeight = 0 then well
      else if pastBlocksMax > 0 ∧ well.pastBlocksMass + 1 > pastBlocksMax then well
      else
        let well := well.read targetBlocksSpacingSeconds blockReading
        if well.pastBlocksMass ≥ pastBlocksMin ∧ leavesEventHorizon well then well
        else gravityWellLoop targetBlocksSpacingSeconds pastBlocksMin pastBlocksMax well rest

def kimotoGravityWell (params : Consensus.Params) (chain : List CBlockIndex)
    (targetBlocksSpacingSeconds pastBlocksMin pastBlocksMax : Nat) : UInt32 :=
  match chain with
  | [] => nProofOfWorkLimit params
  | blockLastSolved :: _ =>
      if blockLastSolved.nHeight = 0 ∨ blockLastSolved.nHeight < pastBlocksMin then
        nProofOfWorkLimit params
      else
        let well := gravityWellLoop targetBlocksSpacingSeconds pastBlocksMin pastBlocksMax
          { latestBlockTime := blockLastSolved.getBlockTime
            pastBlocksMass := 0
            pastRateActualSeconds := 0
            pastRateTargetSeconds := 0
            pastDifficultyAverage := 0 } chain
        let bnNew :=
          if well.pastRateActualSeconds ≠ 0 ∧ well.pastRateTargetSeconds ≠ 0 then
            (well.pastDifficultyAverage * well.pastRateActualSeconds).tdiv
              well.pastRateTargetSeconds
          else well.pastDifficultyAverage
        CBigNum.getCompact (if bnNew > bnProofOfWorkLimit then bnProofOfWorkLimit else bnNew)

/-- `GetNextWorkRequired_V2`: a quarter of a day to a week of blocks, one every
2.5 minutes. -/
def getNextWorkRequiredV2 (params : Consensus.Params) (chain : List CBlockIndex) : UInt32 :=
  kimotoGravityWell params chain 150 (21600 / 150) (604800 / 150)

/-- `DigiShield`.  There is no result when the assertion on `pindexFirst` fails. -/
def digiShield (params : Consensus.Params) (chain : List CBlockIndex) : Option UInt32 :=
  let retargetTimespan : Int := 150
  let retargetInterval : Int := retargetTimespan.tdiv 150
  match chain with
  | [] => some (nProofOfWorkLimit params)
  | pindexLast :: _ =>
      if (pindexLast.nHeight + 1 : Int).tmod retargetInterval ≠ 0 then some pindexLast.nBits
      else
        let blockstogoback :=
          if (pindexLast.nHeight + 1 : Int) ≠ retargetInterval then retargetInterval
          else retargetInterval - 1
        match chain[blockstogoback.toNat]? with
        | none => none
        | some pindexFirst =>
            let nActualTimespan := boundTimespan (retargetTimespan - retargetTimespan.tdiv 4)
              (retargetTimespan + retargetTimespan.tdiv 2)
              (pindexLast.getBlockTime - pindexFirst.getBlockTime)
            some (retarget params pindexLast.nBits nActualTimespan retargetTimespan)

/-- `DiffMode` of `GetNextWorkRequired`. -/
def diffMode (params : Consensus.Params) (nHeight : Nat) : Nat :=
  if params.fPowAllowMinDifficultyBlocks then
    if nHeight ≥ FIX_RETARGET_HEIGHT then 2 else 1
  else if nHeight ≥ FIX_RETARGET_HEIGHT ∧ nHeight < 1569800 then 2
  else if nHeight ≥ 1569800 then 3
  else 1

/-- `GetNextWorkRequired`, for a chain that lists `pindexLast` first. -/
def getNextWorkRequired (params : Consensus.Params) (chain : List CBlockIndex)
    (pblock : CBlockHeader) : Option UInt32 :=
  match chain with
  | [] => none
  | pindexLast :: _ =>
      match diffMode params (pindexLast.nHeight + 1) with
      | 1 => getNextWorkRequiredV1 params chain pblock
      | 2 => some (getNextWorkRequiredV2 params chain)
      | _ => digiShield params chain

/-- The target that `nBits` encodes is positive, representable and not above
the limit. -/
def TargetInRange (params : Consensus.Params) (nBits : UInt32) : Prop :=
  (setCompact nBits).fNegative = false ∧ (setCompact nBits).fOverflow = false ∧
    0 < (setCompact nBits).value ∧ (setCompact nBits).value ≤ uintToArith256 params.powLimit

/-- `CheckProofOfWork`.  The comparison of the hash with the target is commented
out in the source. -/
def checkProofOfWork (_hash : Uint256) (nBits : UInt32) (params : Consensus.Params) : Bool :=
  let bnTarget := setCompact nBits
  !(bnTarget.fNegative || bnTarget.value == 0 || bnTarget.fOverflow ||
    decide (uintToArith256 params.powLimit < bnTarget.value))

/-- The comparison that `CheckProofOfWork` leaves out. -/
def HashMeetsTarget (hash : Uint256) (nBits : UInt32) : Prop :=
  uintToArith256 hash ≤ (setCompact nBits).value

theorem checkProofOfWork_iff {hash : Uint256} {nBits : UInt32} {params : Consensus.Params} :
    checkProofOfWork hash nBits params = true ↔ TargetInRange params nBits := by
  have positive : (setCompact nBits).value ≠ 0 ↔ 0 < (setCompact nBits).value := by
    generalize (setCompact nBits).value = bnTarget
    constructor <;> intro _ <;> bv_omega
  simp only [checkProofOfWork, TargetInRange, ← positive, Bool.not_eq_true', Bool.or_eq_false_iff,
    beq_eq_false_iff_ne, decide_eq_false_iff_not, BitVec.not_lt, and_assoc, ne_eq]
  tauto

def getBlockProof (block : CBlockIndex) : ArithUint256 :=
  let bnTarget := setCompact block.nBits
  if bnTarget.fNegative || bnTarget.fOverflow || bnTarget.value == 0 then 0
  else ~~~bnTarget.value / (bnTarget.value + 1) + 1

end Lycancoin
