import Lycancoin.Chain.HeaderRun
import Lycancoin.Primitives.CompactCodec

namespace Lycancoin

open Data

/-- The target that `nBits` encodes, when it is in range. -/
def targetOf (nBits : UInt32) : Nat := (setCompact nBits).value.toNat

/-- The compact form of a number of at most 256 bits. -/
def compactOf (target : Nat) : UInt32 := getCompact (BitVec.ofNat 256 target)

/-- A target scaled by a timespan over the integers, and capped at the limit. -/
def scaledTarget (powLimit target : Nat) (nActualTimespan nTargetTimespan : Int) : Nat :=
  min powLimit (target * nActualTimespan.toNat / nTargetTimespan.toNat)

/-- A block and its ancestors down to genesis, with targets in range. -/
structure PowChain (params : Consensus.Params) (chain : List CBlockIndex) : Prop where
  heights : ∀ (i : Nat) (entry : CBlockIndex), chain[i]? = some entry →
    entry.nHeight + i + 1 = chain.length
  targets : ∀ entry ∈ chain, TargetInRange params entry.nBits

section Scaling

variable {params : Consensus.Params} {nBits : UInt32} {nActualTimespan nTargetTimespan : Int}

theorem boundTimespan_eq {lower upper : Int} (order : lower ≤ upper) (nActualTimespan : Int) :
    boundTimespan lower upper nActualTimespan = max lower (min upper nActualTimespan) := by
  simp only [boundTimespan]
  split <;> split <;> omega

theorem targetOf_compactOf {target : Nat} (fits : target < 2 ^ 256) :
    targetOf (compactOf target) = truncated target := by
  rw [targetOf, compactOf, (setCompact_getCompact _).1, BitVec.toNat_ofNat, Nat.mod_eq_of_lt fits]

theorem targetOf_pos (inRange : TargetInRange params nBits) : 0 < targetOf nBits := by
  have positive := inRange.2.2.1
  rw [BitVec.lt_def] at positive
  exact positive

theorem targetOf_le (inRange : TargetInRange params nBits) :
    targetOf nBits ≤ params.powLimit.value.toNat := inRange.2.2.2

/-- The retarget multiplies and divides modulo `2 ^ 256`. -/
theorem retarget_eq (params : Consensus.Params) (nBits : UInt32) (nonneg : 0 ≤ nActualTimespan)
    (word : nActualTimespan < 2 ^ 32) (positive : 0 < nTargetTimespan)
    (long : nTargetTimespan < 2 ^ 64) :
    retarget params nBits nActualTimespan nTargetTimespan =
      compactOf (min params.powLimit.value.toNat
        (targetOf nBits * nActualTimespan.toNat % 2 ^ 256 / nTargetTimespan.toNat)) := by
  have factor : (nActualTimespan % 2 ^ 32).toNat = nActualTimespan.toNat := by omega
  have divisor : (nTargetTimespan % 2 ^ 64).toNat = nTargetTimespan.toNat := by omega
  have scaled : ((setCompact nBits).value * BitVec.ofNat 256 nActualTimespan.toNat /
      BitVec.ofNat 256 nTargetTimespan.toNat).toNat =
        targetOf nBits * nActualTimespan.toNat % 2 ^ 256 / nTargetTimespan.toNat := by
    rw [BitVec.toNat_udiv, BitVec.toNat_mul, BitVec.toNat_ofNat, BitVec.toNat_ofNat,
      Nat.mul_mod_mod, Nat.mod_eq_of_lt (by omega : nTargetTimespan.toNat < 2 ^ 256)]
    rfl
  have known : retarget params nBits nActualTimespan nTargetTimespan =
      (let bnNew := (setCompact nBits).value * BitVec.ofNat 256 (nActualTimespan % 2 ^ 32).toNat /
        BitVec.ofNat 256 (nTargetTimespan % 2 ^ 64).toNat
      getCompact (if params.powLimit.value < bnNew then params.powLimit.value else bnNew)) := rfl
  rw [known, factor, divisor, compactOf, ← scaled]
  generalize (setCompact nBits).value * BitVec.ofNat 256 nActualTimespan.toNat /
    BitVec.ofNat 256 nTargetTimespan.toNat = bnNew
  dsimp only
  congr 1
  apply BitVec.eq_of_toNat_eq
  rw [BitVec.toNat_ofNat, Nat.mod_eq_of_lt ((Nat.min_le_left _ _).trans_lt params.powLimit.value.isLt)]
  by_cases above : params.powLimit.value < bnNew
  · rw [if_pos above, Nat.min_eq_left (BitVec.le_of_lt above)]
  · rw [if_neg above, Nat.min_eq_right (BitVec.not_lt.mp above)]

theorem retarget_of_fits (nonneg : 0 ≤ nActualTimespan) (word : nActualTimespan < 2 ^ 32)
    (positive : 0 < nTargetTimespan) (long : nTargetTimespan < 2 ^ 64)
    (fits : targetOf nBits * nActualTimespan.toNat < 2 ^ 256) :
    retarget params nBits nActualTimespan nTargetTimespan =
      compactOf (scaledTarget params.powLimit.value.toNat (targetOf nBits) nActualTimespan
        nTargetTimespan) := by
  rw [retarget_eq params nBits nonneg word positive long, Nat.mod_eq_of_lt fits, scaledTarget]

/-- A product that wraps at the easiest limit gives another compact number. -/
theorem compactOf_ne_of_wraps {product : Nat} (wraps : 2 ^ 256 ≤ product) :
    compactOf (min (2 ^ 255 - 1) (product % 2 ^ 256 / 7200)) ≠
      compactOf (min (2 ^ 255 - 1) (product / 7200)) := by
  intro same
  have cut := truncated_eq_of_getCompact_eq same
  generalize wrappedEq : min (2 ^ 255 - 1) (product % 2 ^ 256 / 7200) = wrapped at cut
  generalize exactEq : min (2 ^ 255 - 1) (product / 7200) = exact at cut
  have below : exact < 2 ^ 255 := by omega
  rw [BitVec.toNat_ofNat, BitVec.toNat_ofNat, Nat.mod_eq_of_lt (by omega),
    Nat.mod_eq_of_lt (by omega)] at cut
  have lost : exact - truncated exact < 2 ^ 240 := by
    refine (sub_truncated_lt exact).trans_le (Nat.pow_le_pow_right (by decide) ?_)
    have size : exact.size ≤ 255 := Nat.size_le.mpr below
    unfold byteLength
    omega
  have kept := truncated_le wrapped
  omega

def retargetLimbs (bnPowLimit : BaseUint 8) (nBits : UInt32)
    (nActualTimespan nTargetTimespan : Int) : Option UInt32 :=
  let bnNew := (BaseUint.setCompact nBits).value
  let bnNew := BaseUint.mulWord bnNew (UInt32.ofNat (nActualTimespan % 2 ^ 32).toNat)
  match BaseUint.div bnNew
      (BaseUint.ofUInt64 8 (UInt64.ofNat (nTargetTimespan % 2 ^ 64).toNat)) with
  | none => none
  | some bnNew =>
      (if 0 < BaseUint.compareTo bnNew bnPowLimit then bnPowLimit else bnNew).getCompact false

/-- The limbs give the retarget, without a failing assertion or a division by zero. -/
theorem retargetLimbs_eq {bnPowLimit : BaseUint 8}
    (limit : bnPowLimit.toNat = params.powLimit.value.toNat) (nBits : UInt32)
    (nonneg : 0 ≤ nActualTimespan) (word : nActualTimespan < 2 ^ 32)
    (positive : 0 < nTargetTimespan) (long : nTargetTimespan < 2 ^ 64) :
    retargetLimbs bnPowLimit nBits nActualTimespan nTargetTimespan =
      some (retarget params nBits nActualTimespan nTargetTimespan) := by
  have factor : (UInt32.ofNat (nActualTimespan % 2 ^ 32).toNat).toNat = nActualTimespan.toNat := by
    rw [UInt32.toNat_ofNat']
    omega
  have divisor : (UInt64.ofNat (nTargetTimespan % 2 ^ 64).toNat).toNat = nTargetTimespan.toNat := by
    rw [UInt64.toNat_ofNat']
    omega
  have value : (BaseUint.setCompact nBits).value.toNat = targetOf nBits := (limbs_setCompact nBits).1
  have quotients := BaseUint.div_spec
    (BaseUint.mulWord (BaseUint.setCompact nBits).value
      (UInt32.ofNat (nActualTimespan % 2 ^ 32).toNat))
    (BaseUint.ofUInt64 8 (UInt64.ofNat (nTargetTimespan % 2 ^ 64).toNat))
  rw [BaseUint.toNat_ofUInt64 (by decide), divisor, BaseUint.toNat_mulWord, factor, value] at quotients
  obtain ⟨_, bnNew, divided, quotient⟩ := quotients.resolve_left fun zero => by omega
  have order := (BaseUint.compareTo_spec bnNew bnPowLimit).2.2
  have capped : (if 0 < BaseUint.compareTo bnNew bnPowLimit then bnPowLimit else bnNew).toNat =
      min params.powLimit.value.toNat
        (targetOf nBits * nActualTimespan.toNat % 2 ^ 256 / nTargetTimespan.toNat) := by
    rw [← limit, ← quotient]
    split <;> omega
  rw [retargetLimbs]
  simp only [divided]
  rw [limbs_getCompact, capped, retarget_eq params nBits nonneg word positive long, compactOf,
    getCompact_eq, BitVec.toNat_ofNat,
    Nat.mod_eq_of_lt ((Nat.min_le_left _ _).trans_lt params.powLimit.value.isLt)]
  rfl

end Scaling

section Chains

variable {params : Consensus.Params} {chain : List CBlockIndex} {entry : CBlockIndex}

theorem PowChain.nil : PowChain params [] :=
  ⟨fun _ _ found => by simp at found, fun _ member => by simp at member⟩

theorem PowChain.cons (valid : PowChain params chain) (height : entry.nHeight = chain.length)
    (inRange : TargetInRange params entry.nBits) : PowChain params (entry :: chain) := by
  constructor
  · intro i other found
    cases i with
    | zero =>
        cases found
        rw [height, List.length_cons]
    | succ i =>
        have known := valid.heights i other found
        rw [List.length_cons]
        omega
  · intro other member
    rcases List.mem_cons.mp member with rfl | older
    · exact inRange
    · exact valid.targets other older

theorem PowChain.height (valid : PowChain params (entry :: chain)) : entry.nHeight = chain.length := by
  have known := valid.heights 0 entry rfl
  rw [List.length_cons] at known
  omega

theorem powChain_chainTo {index : BlockMap} (indexed : PredecessorsIndexed index)
    (inRange : ∀ (hash : Uint256) (entry : CBlockIndex), index[hash]? = some entry →
      TargetInRange params entry.nBits) {hash : Uint256} (present : index[hash]? = some entry) :
    PowChain params (chainTo index hash) := by
  simp only [chainTo, present]
  generalize heightEq : entry.nHeight = height
  induction height generalizing hash entry with
  | zero =>
      have predecessor := indexed hash entry present
      cases found : entry.pprev with
      | none =>
          simp only [chainFrom, present, found]
          exact PowChain.nil.cons heightEq (inRange hash entry present)
      | some prev =>
          simp only [found] at predecessor
          obtain ⟨parent, _, above⟩ := predecessor
          omega
  | succ height ih =>
      have predecessor := indexed hash entry present
      cases found : entry.pprev with
      | none =>
          simp only [found] at predecessor
          omega
      | some prev =>
          simp only [found] at predecessor
          obtain ⟨parent, parentPresent, above⟩ := predecessor
          have rest := ih parentPresent (by omega)
          have length := length_chainTo indexed parentPresent
          rw [chainFrom]
          simp only [present, found]
          refine rest.cons ?_ (inRange hash entry present)
          simp only [chainTo, parentPresent, show parent.nHeight = height by omega] at length
          omega

/-- The target that the main network starts from. -/
theorem startBits_inRange : (setCompact 0x1e0ffff0).fNegative = false ∧
    (setCompact 0x1e0ffff0).fOverflow = false ∧ 0 < (setCompact 0x1e0ffff0).value ∧
    (setCompact 0x1e0ffff0).value ≤
      0x00000fffffffffffffffffffffffffffffffffffffffffffffffffffffffffff := by decide

/-- The target that the regression tests start from. -/
theorem limitBits_inRange : (setCompact 0x207fffff).fNegative = false ∧
    (setCompact 0x207fffff).fOverflow = false ∧ 0 < (setCompact 0x207fffff).value ∧
    (setCompact 0x207fffff).value ≤
      0x7fffffffffffffffffffffffffffffffffffffffffffffffffffffffffffffff := by decide

theorem genesis_inRange (hashes : Digests) (network : Network) :
    TargetInRange (network.params hashes).consensus (network.params hashes).genesis.nBits := by
  cases network with
  | main => exact startBits_inRange
  | testnet => exact startBits_inRange
  | regtest => exact limitBits_inRange

/-- Whatever headers a node takes, the ancestry of a block has targets in range. -/
theorem powChain_run (env : Environment) (calls : List HeaderCall) {hash : Uint256}
    (present : (HeaderIndex.run env calls).mapBlockIndex[hash]? = some entry) :
    PowChain env.consensus (chainTo (HeaderIndex.run env calls).mapBlockIndex hash) := by
  have sound := (indexSound_run env calls).1
  refine powChain_chainTo sound.indexed (fun other found present => ?_) present
  by_cases genesis : other = env.consensus.hashGenesisBlock
  · rw [genesis, genesis_entry_run] at present
    cases present
    exact genesis_inRange env.hashes env.network
  · exact (sound.sound other found present genesis).target

end Chains

section FirstMode

variable {hashes : Digests} {network : Network} {chain ancestors : List CBlockIndex}
  {pindexLast : CBlockIndex}

theorem params_timespan (hashes : Digests) (network : Network) :
    (network.params hashes).consensus.nPowTargetTimespan = 7200 ∧
      (network.params hashes).consensus.difficultyAdjustmentInterval = 48 := by
  cases network <;> exact ⟨rfl, rfl⟩

theorem powLimit_toNat (hashes : Digests) (network : Network) :
    (network.params hashes).consensus.powLimit.value.toNat =
      if network = .regtest then 2 ^ 255 - 1 else 2 ^ 236 - 1 := by
  cases network <;> rfl

/-- How far `GetNextWorkRequired_V1` goes back. -/
def blocksToGoBack (pindexLast : CBlockIndex) : Nat :=
  if pindexLast.nHeight > COINFIX1_BLOCK then 192 else if pindexLast.nHeight = 47 then 47 else 48

/-- The timespan that `CalculateNextWorkRequired` takes for the old target's. -/
def averageTimespan (pindexLast pindexFirst : CBlockIndex) : Int :=
  if pindexLast.nHeight > COINFIX1_BLOCK then
    (pindexLast.getBlockTime - pindexFirst.getBlockTime).tdiv nReTargetHistoryFact
  else pindexLast.getBlockTime - pindexFirst.getBlockTime

/-- The walk back does not run past genesis. -/
theorem goBack_exists {params : Consensus.Params} (valid : PowChain params (pindexLast :: ancestors))
    (retargets : (pindexLast.nHeight + 1) % 48 = 0) :
    ∃ pindexFirst, (pindexLast :: ancestors)[blocksToGoBack pindexLast]? = some pindexFirst := by
  have length := valid.heights 0 pindexLast rfl
  have inside : blocksToGoBack pindexLast < (pindexLast :: ancestors).length := by
    unfold blocksToGoBack COINFIX1_BLOCK
    split
    · omega
    · split <;> omega
  exact ⟨_, List.getElem?_eq_getElem inside⟩

theorem getNextWorkRequiredV1_retarget {params : Consensus.Params} {pblock : CBlockHeader}
    {pindexFirst : CBlockIndex} (interval : params.difficultyAdjustmentInterval = 48)
    (timespan : params.nPowTargetTimespan = 7200) (retargets : (pindexLast.nHeight + 1) % 48 = 0)
    (first : (pindexLast :: ancestors)[blocksToGoBack pindexLast]? = some pindexFirst) :
    getNextWorkRequiredV1 params (pindexLast :: ancestors) pblock =
      some (retarget params pindexLast.nBits
        (max 1800 (min 28800 (averageTimespan pindexLast pindexFirst))) 7200) := by
  have boundary : ¬ (pindexLast.nHeight + 1 : Int).tmod 48 ≠ 0 := by
    rw [Int.tmod_eq_emod_of_nonneg (by omega)]
    omega
  have back : (if pindexLast.nHeight > COINFIX1_BLOCK then (nReTargetHistoryFact : Int) * 48
      else if (pindexLast.nHeight + 1 : Int) ≠ 48 then 48 else 48 - 1).toNat =
        blocksToGoBack pindexLast := by
    unfold blocksToGoBack nReTargetHistoryFact
    split
    · rfl
    · split <;> split <;> omega
  simp only [getNextWorkRequiredV1, interval, if_neg boundary, back, first]
  rw [calculateNextWorkRequired, timespan, boundTimespan_eq (by decide)]
  rfl

end FirstMode

/-- A block of a chain of one target, with a block every second. -/
def levelBlock (nBits : UInt32) (nHeight : Nat) : CBlockIndex :=
  { CBlockIndex.ofHeader ⟨1, 0, 0, UInt32.ofNat (1391485370 + nHeight), nBits, 0⟩ with nHeight }

def levelChain (nBits : UInt32) : Nat → List CBlockIndex
  | 0 => []
  | height + 1 => levelBlock nBits height :: levelChain nBits height

theorem length_levelChain (nBits : UInt32) (height : Nat) :
    (levelChain nBits height).length = height := by
  induction height with
  | zero => rfl
  | succ height ih => rw [levelChain, List.length_cons, ih]

theorem powChain_levelChain {params : Consensus.Params} {nBits : UInt32}
    (inRange : TargetInRange params nBits) (height : Nat) :
    PowChain params (levelChain nBits height) := by
  induction height with
  | zero => exact PowChain.nil
  | succ height ih => exact ih.cons (length_levelChain nBits height).symm inRange

/-- A retarget of the first mode is exact unless the old target times the timespan has
more than 256 bits, which only the limit of one network leaves room for. -/
theorem firstMode_exact_iff (hashes : Digests) (network : Network) (pindexLast : CBlockIndex)
    (ancestors : List CBlockIndex) (pblock : CBlockHeader)
    (valid : PowChain (network.params hashes).consensus (pindexLast :: ancestors))
    (retargets : (pindexLast.nHeight + 1) % 48 = 0) :
    ∃ pindexFirst, (pindexLast :: ancestors)[blocksToGoBack pindexLast]? = some pindexFirst ∧
      (getNextWorkRequiredV1 (network.params hashes).consensus (pindexLast :: ancestors) pblock =
          some (compactOf (scaledTarget (network.params hashes).consensus.powLimit.value.toNat
            (targetOf pindexLast.nBits)
            (max 1800 (min 28800 (averageTimespan pindexLast pindexFirst))) 7200)) ↔
        targetOf pindexLast.nBits *
          (max 1800 (min 28800 (averageTimespan pindexLast pindexFirst))).toNat < 2 ^ 256) ∧
      (network ≠ .regtest → targetOf pindexLast.nBits *
        (max 1800 (min 28800 (averageTimespan pindexLast pindexFirst))).toNat < 2 ^ 256) := by
  obtain ⟨pindexFirst, first⟩ := goBack_exists valid retargets
  obtain ⟨timespan, interval⟩ := params_timespan hashes network
  have below := targetOf_le (valid.targets pindexLast List.mem_cons_self)
  rw [getNextWorkRequiredV1_retarget interval timespan retargets first]
  refine ⟨pindexFirst, first, ?_⟩
  generalize boundedEq : max 1800 (min 28800 (averageTimespan pindexLast pindexFirst)) = bounded
  have lower : 1800 ≤ bounded := by omega
  have upper : bounded.toNat ≤ 28800 := by omega
  have product := Nat.mul_le_mul below upper
  have fits (ordinary : network ≠ .regtest) :
      targetOf pindexLast.nBits * bounded.toNat < 2 ^ 256 := by
    have limit := powLimit_toNat hashes network
    rw [if_neg ordinary] at limit
    rw [limit] at product
    omega
  refine ⟨⟨fun exact => ?_, fun small => ?_⟩, fits⟩
  · by_cases ordinary : network = .regtest
    · apply Nat.lt_of_not_le
      intro wraps
      have limit := powLimit_toNat hashes network
      rw [if_pos ordinary] at limit
      rw [retarget_eq _ _ (by omega) (by omega) (by decide) (by decide), scaledTarget, limit] at exact
      exact compactOf_ne_of_wraps wraps (Option.some_injective _ exact)
    · exact fits ordinary
  · rw [retarget_of_fits (by omega) (by omega) (by decide) (by decide) small]

/-- The first retarget of the main network, after blocks that came too fast. -/
theorem firstMode_exact_iff_main :
    getNextWorkRequiredV1 (mainParams hopelessHashes).consensus (levelChain 0x1e0ffff0 48)
        unminedHeader =
      some (compactOf (scaledTarget (2 ^ 236 - 1) (targetOf 0x1e0ffff0) 1800 7200)) := by
  obtain ⟨pindexFirst, first, exact, fits⟩ := firstMode_exact_iff hopelessHashes .main
    (levelBlock 0x1e0ffff0 47) (levelChain 0x1e0ffff0 47) unminedHeader
    (powChain_levelChain (genesis_inRange hopelessHashes .main) 48) rfl
  have genesis : levelBlock 0x1e0ffff0 0 = pindexFirst := Option.some_injective _ first
  have known := exact.mpr (fits (by decide))
  rw [← genesis, powLimit_toNat] at known
  exact known

/-- On the regression tests the first retarget from the limit wraps around. -/
theorem firstMode_wraps_regtest :
    PowChain (regTestParams hopelessHashes).consensus (levelChain 0x207fffff 48) ∧
      diffMode (regTestParams hopelessHashes).consensus 48 = 1 ∧
      getNextWorkRequiredV1 (regTestParams hopelessHashes).consensus (levelChain 0x207fffff 48)
          unminedHeader ≠
        some (compactOf (scaledTarget (2 ^ 255 - 1) (targetOf 0x207fffff) 1800 7200)) := by
  refine ⟨powChain_levelChain (genesis_inRange hopelessHashes .regtest) 48, rfl, ?_⟩
  intro same
  have retargets : getNextWorkRequiredV1 (regTestParams hopelessHashes).consensus
      (levelBlock 0x207fffff 47 :: levelChain 0x207fffff 47) unminedHeader =
        some (retarget (regTestParams hopelessHashes).consensus 0x207fffff
          (max 1800 (min 28800
            (averageTimespan (levelBlock 0x207fffff 47) (levelBlock 0x207fffff 0)))) 7200) :=
    getNextWorkRequiredV1_retarget (params_timespan hopelessHashes .regtest).2
      (params_timespan hopelessHashes .regtest).1 rfl rfl
  have wraps : 2 ^ 256 ≤ targetOf 0x207fffff * (1800 : Int).toNat := by decide
  have given := Option.some_injective _ (retargets.symm.trans same)
  have limit : (regTestParams hopelessHashes).consensus.powLimit.value.toNat = 2 ^ 255 - 1 :=
    powLimit_toNat hopelessHashes .regtest
  rw [retarget_eq _ _ (by decide) (by decide) (by decide) (by decide), limit] at given
  exact compactOf_ne_of_wraps wraps given

section DigiShieldMode

variable {pindexLast : CBlockIndex}

/-- `DigiShield` scales by the time between the last two blocks. -/
theorem digiShield_eq (params : Consensus.Params) (pindexFirst : CBlockIndex)
    (rest : List CBlockIndex) (above : 0 < pindexLast.nHeight) :
    digiShield params (pindexLast :: pindexFirst :: rest) =
      some (retarget params pindexLast.nBits
        (max 113 (min 225 (pindexLast.getBlockTime - pindexFirst.getBlockTime))) 150) := by
  have interval : ((150 : Int).tdiv 150) = 1 := rfl
  have lower : (150 : Int) - (150 : Int).tdiv 4 = 113 := rfl
  have upper : (150 : Int) + (150 : Int).tdiv 2 = 225 := rfl
  have boundary : ¬ (pindexLast.nHeight + 1 : Int).tmod 1 ≠ 0 := by simp
  have back : (if (pindexLast.nHeight + 1 : Int) ≠ 1 then (1 : Int) else 1 - 1).toNat = 1 := by
    rw [if_pos (by omega)]
    rfl
  have second : (pindexLast :: pindexFirst :: rest)[1]? = some pindexFirst := rfl
  simp only [digiShield, interval, if_neg boundary, back, lower, upper, second]
  rw [boundTimespan_eq (by decide)]

/-- A target that loses less than its last bytes stays above zero. -/
theorem checkProofOfWork_compactOf {params : Consensus.Params} {target : Nat} (hash : Uint256)
    (positive : 0 < target) (below : target ≤ params.powLimit.value.toNat) :
    checkProofOfWork hash (compactOf target) params = true := by
  have fits : target < 2 ^ 256 := below.trans_lt params.powLimit.value.isLt
  obtain ⟨value, sign, overflow⟩ := setCompact_getCompact (BitVec.ofNat 256 target)
  rw [BitVec.toNat_ofNat, Nat.mod_eq_of_lt fits] at value
  rw [checkProofOfWork_iff]
  refine ⟨sign, overflow, ?_, ?_⟩
  · rw [BitVec.lt_def]
    exact value ▸ truncated_pos positive
  · rw [BitVec.le_def]
    exact value.trans_le ((truncated_le target).trans below)

end DigiShieldMode

/-- From block 1569800 on the main network's target follows the time between the last
two blocks, within bounds. -/
theorem digiShield_bounds (hashes : Digests) (pindexLast : CBlockIndex)
    (ancestors : List CBlockIndex) (pblock : CBlockHeader) (hash : Uint256)
    (valid : PowChain (mainParams hashes).consensus (pindexLast :: ancestors))
    (tall : 1569799 ≤ pindexLast.nHeight) :
    ∃ pindexPrev rest nBits, ancestors = pindexPrev :: rest ∧
      getNextWorkRequired (mainParams hashes).consensus (pindexLast :: ancestors) pblock =
        some nBits ∧
      digiShield (mainParams hashes).consensus (pindexLast :: ancestors) = some nBits ∧
      targetOf pindexLast.nBits *
        (max 113 (min 225 (pindexLast.getBlockTime - pindexPrev.getBlockTime))).toNat < 2 ^ 256 ∧
      nBits = compactOf (scaledTarget (2 ^ 236 - 1) (targetOf pindexLast.nBits)
        (max 113 (min 225 (pindexLast.getBlockTime - pindexPrev.getBlockTime))) 150) ∧
      2 * targetOf nBits ≤ 3 * targetOf pindexLast.nBits ∧
      targetOf (compactOf (113 * targetOf pindexLast.nBits / 150)) ≤ targetOf nBits ∧
      113 * targetOf pindexLast.nBits / 150 - targetOf nBits <
        256 ^ (((113 * targetOf pindexLast.nBits / 150).size + 7) / 8 - 2) ∧
      (2 ^ 24 ≤ targetOf pindexLast.nBits →
        checkProofOfWork hash nBits (mainParams hashes).consensus = true) := by
  have height := valid.height
  have limit : (mainParams hashes).consensus.powLimit.value.toNat = 2 ^ 236 - 1 :=
    powLimit_toNat hashes .main
  have below := targetOf_le (valid.targets pindexLast List.mem_cons_self)
  have mode : diffMode (mainParams hashes).consensus (pindexLast.nHeight + 1) = 3 := by
    have ordinary : (mainParams hashes).consensus.fPowAllowMinDifficultyBlocks = false := rfl
    rw [diffMode, ordinary, if_neg Bool.false_ne_true, if_neg (by omega), if_pos (by omega)]
  cases ancestors with
  | nil =>
      rw [List.length_nil] at height
      omega
  | cons pindexPrev rest =>
      have result := digiShield_eq (mainParams hashes).consensus pindexPrev rest
        (by omega : 0 < pindexLast.nHeight)
      have required : getNextWorkRequired (mainParams hashes).consensus
          (pindexLast :: pindexPrev :: rest) pblock =
            digiShield (mainParams hashes).consensus (pindexLast :: pindexPrev :: rest) := by
        rw [getNextWorkRequired]
        simp only [mode]
      generalize boundedEq : max 113 (min 225 (pindexLast.getBlockTime - pindexPrev.getBlockTime)) =
        bounded at result
      have lower : 113 ≤ bounded.toNat := by omega
      have upper : bounded.toNat ≤ 225 := by omega
      have most := Nat.mul_le_mul_left (targetOf pindexLast.nBits) upper
      have least := Nat.mul_le_mul_left (targetOf pindexLast.nBits) lower
      rw [limit] at below
      have fits : targetOf pindexLast.nBits * bounded.toNat < 2 ^ 256 := by omega
      rw [retarget_of_fits (by omega) (by omega) (by decide) (by decide) fits, limit] at result
      refine ⟨pindexPrev, rest, _, rfl, required.trans result, result, boundedEq ▸ fits,
        by rw [boundedEq], ?_⟩
      have scaledEq : scaledTarget (2 ^ 236 - 1) (targetOf pindexLast.nBits) bounded 150 =
        min (2 ^ 236 - 1) (targetOf pindexLast.nBits * bounded.toNat / 150) := rfl
      generalize scaledTarget (2 ^ 236 - 1) (targetOf pindexLast.nBits) bounded 150 = scaled at *
      have kept := truncated_le scaled
      have order : 113 * targetOf pindexLast.nBits / 150 ≤ scaled := by omega
      have floor := truncated_mono order
      have lost := sub_truncated_lt (113 * targetOf pindexLast.nBits / 150)
      rw [← pow_256, byteLength] at lost
      rw [targetOf_compactOf (by omega : scaled < 2 ^ 256), targetOf_compactOf (by omega)]
      refine ⟨by omega, floor, by omega, fun large => ?_⟩
      exact checkProofOfWork_compactOf hash (by omega) (by omega)

theorem digiShield_bounds_level :
    ∃ nBits, getNextWorkRequired (mainParams hopelessHashes).consensus
        (levelChain 0x1e0ffff0 (1569799 + 1)) unminedHeader = some nBits ∧
      2 * targetOf nBits ≤ 3 * targetOf 0x1e0ffff0 := by
  obtain ⟨_, _, nBits, _, required, _, _, _, growth, _⟩ := digiShield_bounds hopelessHashes
    (levelBlock 0x1e0ffff0 1569799) (levelChain 0x1e0ffff0 1569799) unminedHeader 0
    (powChain_levelChain (genesis_inRange hopelessHashes .main) (1569799 + 1)) (Nat.le_refl _)
  exact ⟨nBits, required, growth⟩

end Lycancoin
