import Lycancoin.Data.Halving
import Lycancoin.Primitives.Block
import Lycancoin.Primitives.Uint256

namespace Lycancoin

/-- The maximum allowed size for a serialized block, in bytes. -/
def MAX_BLOCK_SIZE : Nat := 1000000

/-- The maximum allowed number of signature check operations in a block. -/
def MAX_BLOCK_SIGOPS : Nat := MAX_BLOCK_SIZE / 50

/-- Coinbase outputs can only be spent after this number of new blocks. -/
def COINBASE_MATURITY : Int := 15

/-- The largest value of a C++ `int`. -/
def INT_MAX : Int := 2147483647

namespace Consensus

structure Params where
  hashGenesisBlock : Uint256
  nSubsidyHalvingInterval : Int
  nMajorityEnforceBlockUpgrade : Nat
  nMajorityRejectBlockOutdated : Nat
  nMajorityWindow : Nat
  powLimit : Uint256
  fPowAllowMinDifficultyBlocks : Bool
  nPowTargetSpacing : Int
  nPowTargetTimespan : Int

def Params.difficultyAdjustmentInterval (params : Params) : Int :=
  params.nPowTargetTimespan.tdiv params.nPowTargetSpacing

end Consensus

/-- The part of `CChainParams` that the models read. -/
structure CChainParams where
  genesis : CBlockHeader
  consensus : Consensus.Params
  /-- `Checkpoints().mapCheckpoints`, by rising height. -/
  mapCheckpoints : List (Nat × Uint256)

def mainParams (hashes : Digests) : CChainParams :=
  let genesis : CBlockHeader := {
    nVersion := 1
    hashPrevBlock := Uint256.null
    hashMerkleRoot := 0x269910b6413f0b424d62db021fed2758ce6761f9b45f5e3a7640ef9dfbe2c218
    nTime := 1391485370
    nBits := 0x1e0ffff0
    nNonce := 6678936 }
  { genesis
    consensus := {
      hashGenesisBlock := hashes.getHash genesis
      nSubsidyHalvingInterval := 800000
      nMajorityEnforceBlockUpgrade := 12960
      nMajorityRejectBlockOutdated := 16416
      nMajorityWindow := 17280
      powLimit := 0x00000fffffffffffffffffffffffffffffffffffffffffffffffffffffffffff
      fPowAllowMinDifficultyBlocks := false
      nPowTargetSpacing := 150
      nPowTargetTimespan := 2 * 60 * 60 }
    mapCheckpoints := [
      (0, 0x50f80e3dea383a355eb15e4be1f122acbc4144bceaa86604555953c5b8a0c9e4),
      (12000, 0x96c6c3ad38d5f7102d5e14ed730befe4c0865777caac2392ae658dc1b7acc20f),
      (17250, 0xf4f5d8b8928fe9f3f434b27096eebee85874c4d855a8e6c732c6c34765e32a13),
      (24250, 0x39170f93af0eee880dbdb25f583feb3f48fe4146bcb7d2fe100bc8708407b680),
      (72000, 0xc86a831fa0aa3511d746db05427d01fee1ff18192db12817d37d561f9bbfe585),
      (140000, 0xf9d5d85ca836627ba4d4463427182a11e25502b505c91124d587e1284b024d79),
      (1380000, 0x6a3eb7216bf241846f8f370d391673e422ab3352821284fb4b75b8cf0d67071d),
      (1415377, 0xcfa3542981322d81c02a03e0a75569dbe9d85944083c5592ae9efefc27425f38),
      (1570900, 0x8b39517eab83db0718c51489cc15ffa92e54cd0893ad144dbca406f03e85997d)] }

/-- `CTestNetParams()`, which starts from `CMainParams()`. -/
def testNetParams (hashes : Digests) : CChainParams :=
  let genesis := { (mainParams hashes).genesis with nTime := 1296688602, nNonce := 414098458 }
  { genesis
    consensus := {
      (mainParams hashes).consensus with
      hashGenesisBlock := hashes.getHash genesis
      nMajorityEnforceBlockUpgrade := 51
      nMajorityRejectBlockOutdated := 75
      nMajorityWindow := 100
      fPowAllowMinDifficultyBlocks := true }
    mapCheckpoints :=
      [(12000, 0x96c6c3ad38d5f7102d5e14ed730befe4c0865777caac2392ae658dc1b7acc20f)] }

/-- `CRegTestParams()`, which starts from `CTestNetParams()`. -/
def regTestParams (hashes : Digests) : CChainParams :=
  let genesis :=
    { (testNetParams hashes).genesis with nTime := 1296688602, nBits := 0x207fffff, nNonce := 2 }
  { genesis
    consensus := {
      (testNetParams hashes).consensus with
      hashGenesisBlock := hashes.getHash genesis
      nSubsidyHalvingInterval := 150
      nMajorityEnforceBlockUpgrade := 750
      nMajorityRejectBlockOutdated := 950
      nMajorityWindow := 1000
      powLimit := 0x7fffffffffffffffffffffffffffffffffffffffffffffffffffffffffffffff }
    mapCheckpoints :=
      [(0, 0x50f80e3dea383a355eb15e4be1f122acbc4144bceaa86604555953c5b8a0c9e4)] }

inductive Network where
  | main
  | testnet
  | regtest
deriving DecidableEq, Repr

def Network.pchMessageStart : Network → List UInt8
  | .main => [0xfc, 0xd9, 0xb7, 0xdd]
  | .testnet => [0x0b, 0x11, 0x09, 0x07]
  | .regtest => [0xfa, 0xbf, 0xb5, 0xda]

/-- `Params(network)`. -/
def Network.params (hashes : Digests) : Network → CChainParams
  | .main => mainParams hashes
  | .testnet => testNetParams hashes
  | .regtest => regTestParams hashes

open Lycancoin.Data

/-- Starting coins per block. -/
def initialSubsidy : Int := 2970 * COIN

/-- The shift count of `GetBlockValue`: C++ integer division of the height by
the halving interval. -/
def subsidyHalvings (params : Consensus.Params) (nHeight : Int) : Int :=
  nHeight.tdiv params.nSubsidyHalvingInterval

/-- `GetBlockValue`.  The source shifts without looking at the count. -/
def getBlockValue (params : Consensus.Params) (nHeight : Int) (nFees : Int) : Option Int := do
  let nSubsidy ← shiftRight64 initialSubsidy (subsidyHalvings params nHeight)
  int64 (nSubsidy + nFees)

section Halvings

variable {params : Consensus.Params} {interval height : Nat}

/-- The subsidy as a natural number, halved once per interval. -/
def subsidyAt (interval height : Nat) : Nat := halved 297000000000 interval height

theorem subsidyHalvings_natCast (isInterval : params.nSubsidyHalvingInterval = interval) :
    subsidyHalvings params height = (height / interval : Nat) := by
  rw [subsidyHalvings, isInterval, Int.ofNat_tdiv]

theorem shiftRight64_initialSubsidy {count : Nat} (inRange : count < 64) :
    shiftRight64 initialSubsidy count = some ((297000000000 / 2 ^ count : Nat) : Int) := by
  have shift : initialSubsidy >>> count = ((297000000000 / 2 ^ count : Nat) : Int) := by
    have start : initialSubsidy = ((297000000000 : Nat) : Int) := rfl
    rw [start, Int.shiftRight_eq_div_pow, Int.natCast_div]
  unfold shiftRight64
  rw [if_pos ⟨Int.natCast_nonneg _, by exact_mod_cast inRange⟩, Int.toNat_natCast, shift]

theorem subsidyAt_le (interval height : Nat) : subsidyAt interval height ≤ 297000000000 :=
  Nat.div_le_self _ _

/-- Below 64 halving intervals the shift is defined and yields the halved subsidy. -/
theorem getBlockValue_eq (isInterval : params.nSubsidyHalvingInterval = interval)
    (positive : 0 < interval) (below : height < 64 * interval) (nFees : Int) :
    getBlockValue params height nFees = int64 (subsidyAt interval height + nFees) := by
  have inRange : height / interval < 64 := (Nat.div_lt_iff_lt_mul positive).mpr below
  simp only [getBlockValue, subsidyHalvings_natCast isInterval,
    shiftRight64_initialSubsidy inRange]
  rfl

theorem getBlockValue_zero_fees (isInterval : params.nSubsidyHalvingInterval = interval)
    (positive : 0 < interval) (below : height < 64 * interval) :
    getBlockValue params height 0 = some (subsidyAt interval height : Int) := by
  have small := subsidyAt_le interval height
  rw [getBlockValue_eq isInterval positive below, Int.add_zero]
  apply int64_of_inInt64
  unfold InInt64
  omega

theorem subsidyHalvings_lt_iff (isInterval : params.nSubsidyHalvingInterval = interval)
    (positive : 0 < interval) :
    subsidyHalvings params height < 64 ↔ height < 64 * interval := by
  rw [subsidyHalvings_natCast isInterval]
  constructor
  · intro inRange
    exact (Nat.div_lt_iff_lt_mul positive).mp (by exact_mod_cast inRange)
  · intro below
    exact_mod_cast (Nat.div_lt_iff_lt_mul positive).mpr below

end Halvings

/-- The subsidies of heights `0, …, nHeight` added up. -/
def totalSubsidy (params : Consensus.Params) : Nat → Option Int
  | 0 => getBlockValue params 0 0
  | nHeight + 1 => do
      let total ← totalSubsidy params nHeight
      let nSubsidy ← getBlockValue params (nHeight + 1 : Nat) 0
      pure (total + nSubsidy)

theorem totalSubsidy_eq {params : Consensus.Params} {interval nHeight : Nat}
    (isInterval : params.nSubsidyHalvingInterval = interval)
    (positive : 0 < interval) (below : nHeight < 64 * interval) :
    totalSubsidy params nHeight =
      some ((∑ h ∈ Finset.range (nHeight + 1), subsidyAt interval h : Nat) : Int) := by
  induction nHeight with
  | zero =>
      have first := getBlockValue_zero_fees isInterval positive below
      simpa [totalSubsidy] using first
  | succ nHeight ih =>
      have next := getBlockValue_zero_fees isInterval positive below
      rw [totalSubsidy, ih (by omega), next, Finset.sum_range_succ _ (nHeight + 1)]
      push_cast
      rfl

/-- What the emission schedule is meant to do on heights up to `nHeight`. -/
structure EmissionSchedule (params : Consensus.Params) (nHeight : Nat) : Prop where
  shiftDefined : ∀ h : Nat, h ≤ nHeight → subsidyHalvings params h < 64
  nonincreasing : ∀ earlier later : Nat, earlier ≤ later → later ≤ nHeight →
    ∃ before after, getBlockValue params earlier 0 = some before ∧
      getBlockValue params later 0 = some after ∧ after ≤ before
  eventuallyZero : ∀ h : Nat, 39 * params.nSubsidyHalvingInterval ≤ h → h ≤ nHeight →
    getBlockValue params h 0 = some 0
  totalInRange : ∃ total, totalSubsidy params nHeight = some total ∧ total ≤ MAX_MONEY

/-- An interval of at most 800000 blocks keeps the schedule on every height
whose shift count is defined. -/
theorem EmissionSchedule.of_below {params : Consensus.Params} {interval nHeight : Nat}
    (isInterval : params.nSubsidyHalvingInterval = interval)
    (positive : 0 < interval) (bounded : interval ≤ 800000)
    (below : nHeight < 64 * interval) : EmissionSchedule params nHeight where
  shiftDefined h within := (subsidyHalvings_lt_iff isInterval positive).mpr (by omega)
  nonincreasing earlier later order within :=
    ⟨_, _, getBlockValue_zero_fees isInterval positive (by omega),
      getBlockValue_zero_fees isInterval positive (by omega),
      by exact_mod_cast halved_antitone _ _ order⟩
  eventuallyZero h late within := by
    have exhausted : subsidyAt interval h = 0 :=
      halved_eq_zero (by decide : 297000000000 < 2 ^ 39) (by rw [isInterval] at late; omega) positive
    rw [getBlockValue_zero_fees isInterval positive (by omega), exhausted]
    rfl
  totalInRange := by
    refine ⟨_, totalSubsidy_eq isInterval positive below, ?_⟩
    have emitted := sum_halved_le 297000000000 positive (nHeight + 1)
    have bound : 2 * (interval * 297000000000) ≤ 495000000000000000 := by omega
    have total : ∑ h ∈ Finset.range (nHeight + 1), subsidyAt interval h ≤ 495000000000000000 :=
      emitted.trans bound
    change ((_ : Nat) : Int) ≤ 495000000000000000
    exact_mod_cast total

theorem Network.interval_cases (hashes : Digests) (network : Network) :
    ∃ interval : Nat, (network.params hashes).consensus.nSubsidyHalvingInterval = interval ∧
      0 < interval ∧ interval ≤ 800000 := by
  cases network
  · exact ⟨800000, rfl, by decide, by decide⟩
  · exact ⟨800000, rfl, by decide, by decide⟩
  · exact ⟨150, rfl, by decide, by decide⟩

/-- On every network the schedule holds up to a height exactly when that
height is below 64 halving intervals. -/
theorem emissionSchedule_iff_below_shift_limit
    (hashes : Digests) (network : Network) (nHeight : Nat) :
    EmissionSchedule (network.params hashes).consensus nHeight ↔
      (nHeight : Int) < 64 * (network.params hashes).consensus.nSubsidyHalvingInterval := by
  obtain ⟨interval, isInterval, positive, bounded⟩ := Network.interval_cases hashes network
  rw [isInterval]
  constructor
  · intro schedule
    have inRange := schedule.shiftDefined nHeight (Nat.le_refl _)
    exact_mod_cast (subsidyHalvings_lt_iff isInterval positive).mp inRange
  · intro below
    exact EmissionSchedule.of_below isInterval positive bounded (by exact_mod_cast below)

/-- The regression-test network leaves the schedule at height 9600, where the
shift count is 64. -/
theorem emissionSchedule_fails_on_regtest :
    ¬ ∀ (hashes : Digests) (network : Network) (nHeight : Nat),
      (nHeight : Int) ≤ INT_MAX → EmissionSchedule (network.params hashes).consensus nHeight := by
  intro schedule
  have atLimit := schedule ⟨fun _ => 0, fun _ => 0, fun _ _ => 0⟩ .regtest 9600 (by decide)
  exact absurd (atLimit.shiftDefined 9600 (Nat.le_refl _)) (by decide)

end Lycancoin
