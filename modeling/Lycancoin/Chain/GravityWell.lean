import Lycancoin.Chain.Retarget

namespace Lycancoin

open Data

/-- The loop of `KimotoGravityWell` round by round, with the tests of the event horizon
answered by `leaves`. -/
def gravityWellRun (leaves : GravityWell → Bool)
    (targetBlocksSpacingSeconds pastBlocksMin pastBlocksMax : Nat) :
    GravityWell → List CBlockIndex → List GravityWell
  | _, [] => []
  | well, blockReading :: rest =>
      if blockReading.nHeight = 0 then []
      else if pastBlocksMax > 0 ∧ well.pastBlocksMass + 1 > pastBlocksMax then []
      else
        let well := well.read targetBlocksSpacingSeconds blockReading
        if well.pastBlocksMass ≥ pastBlocksMin ∧ leaves well then [well]
        else well ::
          gravityWellRun leaves targetBlocksSpacingSeconds pastBlocksMin pastBlocksMax well rest

/-- The variables before the loop of `KimotoGravityWell`. -/
def GravityWell.start (blockLastSolved : CBlockIndex) : GravityWell :=
  { latestBlockTime := blockLastSolved.getBlockTime
    pastBlocksMass := 0
    pastRateActualSeconds := 0
    pastRateTargetSeconds := 0
    pastDifficultyAverage := 0 }

/-- The target that the last round leads to, before it is written in compact form. -/
def GravityWell.bnNew (well : GravityWell) : CBigNum :=
  let bnNew :=
    if well.pastRateActualSeconds ≠ 0 ∧ well.pastRateTargetSeconds ≠ 0 then
      (well.pastDifficultyAverage * well.pastRateActualSeconds).tdiv well.pastRateTargetSeconds
    else well.pastDifficultyAverage
  if bnNew > bnProofOfWorkLimit then bnProofOfWorkLimit else bnNew

/-- `GetNextWorkRequired_V2`, with the tests of the event horizon answered by `leaves`. -/
def nextWorkRequiredV2 (leaves : GravityWell → Bool) (params : Consensus.Params)
    (chain : List CBlockIndex) : UInt32 :=
  match chain with
  | [] => nProofOfWorkLimit params
  | blockLastSolved :: _ =>
      if blockLastSolved.nHeight = 0 ∨ blockLastSolved.nHeight < 144 then nProofOfWorkLimit params
      else
        let start := GravityWell.start blockLastSolved
        CBigNum.getCompact
          (((gravityWellRun leaves 150 144 4032 start chain).getLast?.getD start).bnNew)

section Connection

variable {spacing least most : Nat}

theorem gravityWellLoop_eq (well : GravityWell) (chain : List CBlockIndex) :
    gravityWellLoop spacing least most well chain =
      (gravityWellRun leavesEventHorizon spacing least most well chain).getLast?.getD well := by
  induction chain generalizing well with
  | nil => rfl
  | cons blockReading rest ih =>
      rw [gravityWellLoop, gravityWellRun]
      split
      · rfl
      · split
        · rfl
        · dsimp only
          split
          · rfl
          · rw [ih, List.getLast?_cons]
            rfl

/-- With the floating-point tests the mode is the one of the source. -/
theorem getNextWorkRequiredV2_eq (params : Consensus.Params) (chain : List CBlockIndex) :
    getNextWorkRequiredV2 params chain = nextWorkRequiredV2 leavesEventHorizon params chain := by
  cases chain with
  | nil => rfl
  | cons blockLastSolved ancestors =>
      rw [getNextWorkRequiredV2, kimotoGravityWell, nextWorkRequiredV2]
      simp only [gravityWellLoop_eq]
      rfl

end Connection

section Rounds

/-- A truncated part of a difference leads no further than the whole. -/
theorem average_between (average number : Int) (count : Nat) :
    (average ≤ number → average ≤ (number - average).tdiv count + average ∧
      (number - average).tdiv count + average ≤ number) ∧
    (number ≤ average → number ≤ (number - average).tdiv count + average ∧
      (number - average).tdiv count + average ≤ average) := by
  constructor
  · intro order
    have rises : 0 ≤ number - average := by omega
    have lower := Int.tdiv_nonneg rises (Int.natCast_nonneg count)
    have upper : (number - average).tdiv count ≤ number - average := by
      rw [Int.tdiv_eq_ediv_of_nonneg rises]
      exact Int.ediv_le_self _ rises
    omega
  · intro order
    have opposite : (number - average).tdiv count = -(average - number).tdiv count := by
      rw [← Int.neg_tdiv, Int.neg_sub]
    have rises : 0 ≤ average - number := by omega
    have lower := Int.tdiv_nonneg rises (Int.natCast_nonneg count)
    have upper : (average - number).tdiv count ≤ average - number := by
      rw [Int.tdiv_eq_ediv_of_nonneg rises]
      exact Int.ediv_le_self _ rises
    omega

/-- The average lies between the targets of two of the blocks. -/
def AverageWithin (blocks : List CBlockIndex) (average : CBigNum) : Prop :=
  ∃ low ∈ blocks, ∃ high ∈ blocks,
    CBigNum.setCompact low.nBits ≤ average ∧ average ≤ CBigNum.setCompact high.nBits

theorem AverageWithin.mono {blocks more : List CBlockIndex} {average : CBigNum}
    (within : AverageWithin blocks average) (added : ∀ block ∈ blocks, block ∈ more) :
    AverageWithin more average := by
  obtain ⟨low, lowMember, high, highMember, bounds⟩ := within
  exact ⟨low, added low lowMember, high, added high highMember, bounds⟩

/-- What holds after the blocks `before` have been read. -/
structure WellSound (spacing : Nat) (before : List CBlockIndex) (well : GravityWell) : Prop where
  mass : well.pastBlocksMass = before.length
  average : before ≠ [] → AverageWithin before well.pastDifficultyAverage
  target : well.pastRateTargetSeconds = spacing * before.length
  actual : 0 ≤ well.pastRateActualSeconds

variable {spacing most : Nat} {before : List CBlockIndex} {well : GravityWell}

/-- One round keeps the average among the targets and the elapsed time above zero. -/
theorem WellSound.read (sound : WellSound spacing before well) (blockReading : CBlockIndex) :
    WellSound spacing (before ++ [blockReading]) (well.read spacing blockReading) ∧
      (blockReading.nHeight > 29000 → 1 ≤ (well.read spacing blockReading).pastRateActualSeconds) := by
  have mass := sound.mass
  refine ⟨⟨?_, fun _ => ?_, ?_, ?_⟩, ?_⟩
  · rw [GravityWell.read, List.length_append, List.length_singleton, mass]
  · have last : blockReading ∈ before ++ [blockReading] := by simp
    have older : ∀ block ∈ before, block ∈ before ++ [blockReading] :=
      fun block member => List.mem_append_left _ member
    simp only [GravityWell.read]
    by_cases first : well.pastBlocksMass + 1 = 1
    · rw [if_pos first]
      exact ⟨blockReading, last, blockReading, last, Int.le_refl _, Int.le_refl _⟩
    · rw [if_neg first]
      obtain ⟨low, lowMember, high, highMember, lower, upper⟩ :=
        (sound.average (List.ne_nil_of_length_pos (by omega))).mono older
      obtain ⟨rising, falling⟩ := average_between well.pastDifficultyAverage
        (CBigNum.setCompact blockReading.nBits) (well.pastBlocksMass + 1)
      -- The new target takes the place of the bound that the average moves to.
      rcases Int.le_total well.pastDifficultyAverage (CBigNum.setCompact blockReading.nBits) with
        rises | falls
      · obtain ⟨above, below⟩ := rising rises
        exact ⟨low, lowMember, blockReading, last, lower.trans above, below⟩
      · obtain ⟨above, below⟩ := falling falls
        exact ⟨blockReading, last, high, highMember, above, below.trans upper⟩
  · rw [GravityWell.read, List.length_append, List.length_singleton, mass]
  · simp only [GravityWell.read]
    split <;> split <;> omega
  · intro above
    simp only [GravityWell.read, if_pos above]
    split <;> omega

/-- Every round of the loop leaves a sound state, and the rounds are no more than the
blocks above genesis and than are asked for. -/
theorem gravityWellRun_spec (leaves : GravityWell → Bool) (least : Nat) (sound : WellSound spacing before well) (positive : 0 < most)
    (within : before.length ≤ most) (chain : List CBlockIndex)
    (heights : ∀ (i : Nat) (entry : CBlockIndex), chain[i]? = some entry →
      entry.nHeight + i + 1 = chain.length) :
    (gravityWellRun leaves spacing least most well chain).length ≤ chain.length - 1 ∧
    before.length + (gravityWellRun leaves spacing least most well chain).length ≤ most ∧
    ∀ (k : Nat) (reached : GravityWell),
      (gravityWellRun leaves spacing least most well chain)[k]? = some reached →
      ∃ blockReading, chain[k]? = some blockReading ∧
        WellSound spacing (before ++ chain.take (k + 1)) reached ∧
        (blockReading.nHeight > 29000 → 1 ≤ reached.pastRateActualSeconds) := by
  induction chain generalizing before well with
  | nil => exact ⟨Nat.le_refl _, within, fun k reached found => by simp [gravityWellRun] at found⟩
  | cons blockReading rest ih =>
      have height := heights 0 blockReading rfl
      rw [List.length_cons] at height
      rw [gravityWellRun, List.length_cons]
      by_cases genesis : blockReading.nHeight = 0
      · rw [if_pos genesis]
        exact ⟨Nat.zero_le _, within, fun k reached found => by simp at found⟩
      rw [if_neg genesis]
      by_cases enough : most > 0 ∧ well.pastBlocksMass + 1 > most
      · rw [if_pos enough]
        exact ⟨Nat.zero_le _, within, fun k reached found => by simp at found⟩
      rw [if_neg enough]
      obtain ⟨next, elapsed⟩ := sound.read blockReading
      have mass := sound.mass
      have more : (before ++ [blockReading]).length ≤ most := by
        rw [List.length_append, List.length_singleton]
        omega
      dsimp only
      by_cases left : (well.read spacing blockReading).pastBlocksMass ≥ least ∧
          leaves (well.read spacing blockReading)
      · rw [if_pos left]
        rw [List.length_append, List.length_singleton] at more
        refine ⟨?_, more, fun k reached found => ?_⟩
        · rw [List.length_singleton]
          omega
        · cases k with
          | zero =>
              cases found
              exact ⟨blockReading, rfl, by simpa using next, elapsed⟩
          | succ k => simp at found
      · rw [if_neg left]
        obtain ⟨short, bound, rounds⟩ := ih next more fun i entry found => by
          have known := heights (i + 1) entry found
          rw [List.length_cons] at known
          omega
        rw [List.length_append, List.length_singleton] at bound
        refine ⟨?_, ?_, fun k reached found => ?_⟩
        · rw [List.length_cons]
          omega
        · rw [List.length_cons]
          omega
        · cases k with
          | zero =>
              cases found
              exact ⟨blockReading, rfl, by simpa using next, elapsed⟩
          | succ k =>
              obtain ⟨block, there, known, above⟩ := rounds k reached found
              refine ⟨block, there, ?_, above⟩
              simpa using known

end Rounds

/-- Below `2 ^ 256` the legacy codec writes what the other one does. -/
theorem bigNum_getCompact_eq {number : CBigNum} (nonneg : 0 ≤ number)
    (fits : number.natAbs < 2 ^ 256) : CBigNum.getCompact number = compactOf number.natAbs := by
  have positive : decide (number < 0) = false := decide_eq_false (Int.not_lt.mpr nonneg)
  rw [CBigNum.getCompact_eq, compactOf, getCompact_eq, BitVec.toNat_ofNat, Nat.mod_eq_of_lt fits,
    positive]

theorem bnNew_bounds {well : GravityWell} (average : 0 ≤ well.pastDifficultyAverage)
    (actual : 0 ≤ well.pastRateActualSeconds) (target : 0 ≤ well.pastRateTargetSeconds) :
    0 ≤ well.bnNew ∧ well.bnNew ≤ bnProofOfWorkLimit := by
  have scaled : 0 ≤ (well.pastDifficultyAverage * well.pastRateActualSeconds).tdiv
      well.pastRateTargetSeconds := Int.tdiv_nonneg (Int.mul_nonneg average actual) target
  have capped (number : Int) (nonneg : 0 ≤ number) :
      0 ≤ (if number > bnProofOfWorkLimit then bnProofOfWorkLimit else number) ∧
        (if number > bnProofOfWorkLimit then bnProofOfWorkLimit else number) ≤
          bnProofOfWorkLimit := by
    have limit : (0 : Int) ≤ bnProofOfWorkLimit := by decide
    split
    · exact ⟨limit, Int.le_refl _⟩
    · exact ⟨nonneg, Int.not_lt.mp ‹_›⟩
  rw [GravityWell.bnNew]
  apply capped
  split
  · exact scaled
  · exact average

/-- A target within the limit is so after it was written in compact form. -/
theorem getCompact_within {bnNew : Int} (nonneg : 0 ≤ bnNew) (below : bnNew ≤ bnProofOfWorkLimit) :
    (setCompact (CBigNum.getCompact bnNew)).fNegative = false ∧
      (setCompact (CBigNum.getCompact bnNew)).fOverflow = false ∧
      0 ≤ CBigNum.setCompact (CBigNum.getCompact bnNew) ∧
      CBigNum.setCompact (CBigNum.getCompact bnNew) ≤ bnProofOfWorkLimit := by
  have limit : (bnProofOfWorkLimit : Int) < 2 ^ 256 := by decide
  have magnitude : (bnNew.natAbs : Int) = bnNew := Int.natAbs_of_nonneg nonneg
  have small : bnNew < 2 ^ 256 := below.trans_lt limit
  have fits : bnNew.natAbs < 2 ^ 256 := by omega
  obtain ⟨value, sign, overflow⟩ := setCompact_getCompact (BitVec.ofNat 256 bnNew.natAbs)
  rw [BitVec.toNat_ofNat, Nat.mod_eq_of_lt fits] at value
  rw [bigNum_getCompact_eq nonneg fits]
  refine ⟨sign, overflow, ?_⟩
  have kept : ((truncated bnNew.natAbs : Nat) : Int) ≤ bnNew := by
    have := truncated_le bnNew.natAbs
    omega
  rw [compactOf, bigNum_setCompact_of_fits sign overflow, value]
  exact ⟨Int.natCast_nonneg _, kept.trans below⟩

/-- Whatever the tests of the event horizon answer, the average stays among the targets
read, the rates keep their signs, the loop ends and the new target is within the limit. -/
theorem gravityWell_sound (hashes : Digests) (network : Network) (leaves : GravityWell → Bool)
    (pindexLast : CBlockIndex) (ancestors : List CBlockIndex)
    (valid : PowChain (network.params hashes).consensus (pindexLast :: ancestors))
    (tall : FIX_RETARGET_HEIGHT - 1 ≤ pindexLast.nHeight) :
    (gravityWellRun leaves 150 144 4032 (GravityWell.start pindexLast)
      (pindexLast :: ancestors)).length ≤ min 4032 pindexLast.nHeight ∧
    (∀ (k : Nat) (well : GravityWell),
      (gravityWellRun leaves 150 144 4032 (GravityWell.start pindexLast)
        (pindexLast :: ancestors))[k]? = some well →
      ∃ blockReading, (pindexLast :: ancestors)[k]? = some blockReading ∧
        AverageWithin ((pindexLast :: ancestors).take (k + 1)) well.pastDifficultyAverage ∧
        0 < well.pastRateTargetSeconds ∧ 0 ≤ well.pastRateActualSeconds ∧
        (blockReading.nHeight > 29000 → 1 ≤ well.pastRateActualSeconds)) ∧
    (leaves = leavesEventHorizon →
      gravityWellLoop 150 144 4032 (GravityWell.start pindexLast) (pindexLast :: ancestors) =
        (gravityWellRun leaves 150 144 4032 (GravityWell.start pindexLast)
          (pindexLast :: ancestors)).getLast?.getD (GravityWell.start pindexLast)) ∧
    ∃ nBits, nextWorkRequiredV2 leaves (network.params hashes).consensus
        (pindexLast :: ancestors) = nBits ∧
      (leaves = leavesEventHorizon →
        getNextWorkRequiredV2 (network.params hashes).consensus (pindexLast :: ancestors) = nBits) ∧
      (setCompact nBits).fNegative = false ∧ (setCompact nBits).fOverflow = false ∧
      0 ≤ CBigNum.setCompact nBits ∧ CBigNum.setCompact nBits ≤ bnProofOfWorkLimit := by
  have height := valid.height
  have high : 23999 ≤ pindexLast.nHeight := tall
  have start : WellSound 150 [] (GravityWell.start pindexLast) :=
    ⟨rfl, fun some => absurd rfl some, rfl, Int.le_refl _⟩
  obtain ⟨short, bound, rounds⟩ := gravityWellRun_spec leaves 144 start (by decide : 0 < 4032)
    (Nat.zero_le _) (pindexLast :: ancestors) valid.heights
  rw [List.length_nil, Nat.zero_add] at bound
  refine ⟨?_, ?_, ?_, _, rfl, ?_, ?_⟩
  · rw [List.length_cons] at short
    omega
  · intro k well found
    obtain ⟨blockReading, there, sound, above⟩ := rounds k well found
    refine ⟨blockReading, there, sound.average (by simp), ?_, sound.actual, above⟩
    have read := List.length_pos_of_mem (List.mem_of_getElem? there)
    rw [sound.target, List.nil_append, List.length_take]
    omega
  · rintro rfl
    exact gravityWellLoop_eq _ _
  · rintro rfl
    exact getNextWorkRequiredV2_eq _ _
  · have average : 0 ≤ ((gravityWellRun leaves 150 144 4032 (GravityWell.start pindexLast)
        (pindexLast :: ancestors)).getLast?.getD (GravityWell.start pindexLast)).bnNew ∧
        ((gravityWellRun leaves 150 144 4032 (GravityWell.start pindexLast)
          (pindexLast :: ancestors)).getLast?.getD (GravityWell.start pindexLast)).bnNew ≤
            bnProofOfWorkLimit := by
      cases found : (gravityWellRun leaves 150 144 4032 (GravityWell.start pindexLast)
          (pindexLast :: ancestors)).getLast? with
      | none => exact bnNew_bounds (Int.le_refl _) (Int.le_refl _) (Int.le_refl _)
      | some well =>
          rw [List.getLast?_eq_getElem?] at found
          obtain ⟨blockReading, _, sound, _⟩ := rounds _ well found
          obtain ⟨low, member, _, _, lower, _⟩ := sound.average (by simp)
          have inRange := valid.targets low (List.mem_of_mem_take member)
          rw [bigNum_setCompact_of_fits inRange.1 inRange.2.1] at lower
          refine bnNew_bounds ((Int.natCast_nonneg _).trans lower) sound.actual ?_
          rw [Option.getD_some, sound.target]
          exact Int.natCast_nonneg _
    have selected : nextWorkRequiredV2 leaves (network.params hashes).consensus
        (pindexLast :: ancestors) =
          CBigNum.getCompact (((gravityWellRun leaves 150 144 4032 (GravityWell.start pindexLast)
            (pindexLast :: ancestors)).getLast?.getD (GravityWell.start pindexLast)).bnNew) := by
      rw [nextWorkRequiredV2, if_neg (by omega)]
    rw [selected]
    generalize ((gravityWellRun leaves 150 144 4032 (GravityWell.start pindexLast)
      (pindexLast :: ancestors)).getLast?.getD (GravityWell.start pindexLast)).bnNew = bnNew at average
    exact getCompact_within average.1 average.2

theorem gravityWell_sound_level :
    ∃ nBits, nextWorkRequiredV2 (fun _ => true) (mainParams hopelessHashes).consensus
        (levelChain 0x1e0ffff0 (23999 + 1)) = nBits ∧
      CBigNum.setCompact nBits ≤ bnProofOfWorkLimit := by
  obtain ⟨_, _, _, nBits, required, _, _, _, _, below⟩ := gravityWell_sound hopelessHashes .main
    (fun _ => true) (levelBlock 0x1e0ffff0 23999) (levelChain 0x1e0ffff0 23999)
    (powChain_levelChain (genesis_inRange hopelessHashes .main) (23999 + 1)) (Nat.le_refl _)
  exact ⟨nBits, required, below⟩

end Lycancoin
