import Lycancoin.Data.Latest
import Lycancoin.Data.StepRuns
import Lycancoin.Mining.FeeRate

namespace Lycancoin

open Lycancoin.Data

/-- `CBlockAverage`.  Its two circular buffers have room for 100 samples each. -/
structure CBlockAverage (Priority : Type) where
  feeSamples : List CFeeRate
  prioritySamples : List Priority

/-- What is asked of a priority, which is a floating point number: `AllowFree` and `AreSane`. -/
structure PriorityTests (Priority : Type) where
  allowFree : Priority → Bool
  areSane : Priority → Bool

structure ConfirmedEntry (Priority : Type) where
  nHeight : UInt32
  nFee : Int
  nTxSize : Nat
  dPriority : Priority

/-- An outcome of `std::random_shuffle`. -/
structure Shuffle (α : Type) where
  apply : List α → List α
  perm : ∀ items, (apply items).Perm items

namespace CBlockAverage

variable {Priority : Type}

def empty : CBlockAverage Priority := { feeSamples := [], prioritySamples := [] }

def recordFee (feeRate : CFeeRate) (average : CBlockAverage Priority) : CBlockAverage Priority :=
  { average with feeSamples := pushLatest 100 average.feeSamples feeRate }

def recordPriority (priority : Priority) (average : CBlockAverage Priority) :
    CBlockAverage Priority :=
  { average with prioritySamples := pushLatest 100 average.prioritySamples priority }

/-- `AreSane` of a fee.  There is no result where the product does not fit. -/
def areSane (fee minRelayFee : CFeeRate) : Option Bool :=
  if fee.nSatoshisPerK < 0 then some false
  else (int64 (minRelayFee.getFeePerK * 10000)).map fun most => decide (fee.getFeePerK ≤ most)

end CBlockAverage

/-- `CMinerPolicyEstimator`, up to the sorted priorities. -/
structure CMinerPolicyEstimator (Priority : Type) where
  history : List (CBlockAverage Priority)
  sortedFeeSamples : List CFeeRate
  nBestSeenHeight : Int

namespace CMinerPolicyEstimator

variable {Priority : Type}

def new (nEntries : Nat) : CMinerPolicyEstimator Priority where
  history := List.replicate nEntries CBlockAverage.empty
  sortedFeeSamples := []
  nBestSeenHeight := 0

variable (estimator : CMinerPolicyEstimator Priority)

/-- All fee samples, from the first bucket to the last. -/
def feeSamples : List CFeeRate := estimator.history.flatMap CBlockAverage.feeSamples

/-- `std::sort` by `std::greater`. -/
def sortFees (samples : List CFeeRate) : List CFeeRate :=
  samples.insertionSort fun left right => left.nSatoshisPerK ≥ right.nSatoshisPerK

def sortSamples : CMinerPolicyEstimator Priority :=
  if estimator.sortedFeeSamples.length = 0 then
    { estimator with sortedFeeSamples := sortFees estimator.feeSamples }
  else estimator

/-- The number of samples in the buckets before, and half of those in the bucket itself. -/
def sampleIndex (nBlocksToConfirm : Nat) : Nat :=
  let nPrevSize := ((estimator.history.take nBlocksToConfirm).map fun average =>
    average.feeSamples.length).sum
  let nBucketSize := ((estimator.history[nBlocksToConfirm]?.map fun average =>
    average.feeSamples.length).getD 0)
  min (nPrevSize + nBucketSize / 2) (estimator.sortedFeeSamples.length - 1)

/-- `estimateFee`.  There is no result where the index is behind the samples. -/
def estimateFee (nBlocksToConfirm : Int) : Option (CFeeRate × CMinerPolicyEstimator Priority) :=
  if nBlocksToConfirm - 1 < 0 ∨ nBlocksToConfirm - 1 ≥ estimator.history.length then
    some (⟨0⟩, estimator)
  else
    let estimator := estimator.sortSamples
    if estimator.sortedFeeSamples.length < 11 then some (⟨0⟩, estimator)
    else
      estimator.sortedFeeSamples[estimator.sampleIndex (nBlocksToConfirm - 1).toNat]?.map
        fun feeRate => (feeRate, estimator)

/-- `seenTxConfirm`.  There is no result where the assertion fails. -/
def seenTxConfirm (tests : PriorityTests Priority) (feeRate minRelayFee : CFeeRate)
    (dPriority : Priority) (nBlocksAgo : Nat) : Option (CMinerPolicyEstimator Priority) :=
  let nBlocksTruncated := min (nBlocksAgo : Int) (estimator.history.length - 1)
  if nBlocksTruncated < 0 then none
  else do
    let sufficientFee := decide (feeRate.nSatoshisPerK > minRelayFee.nSatoshisPerK)
    let sufficientPriority := tests.allowFree dPriority
    if sufficientFee && !sufficientPriority then
      (CBlockAverage.areSane feeRate minRelayFee).map fun isSane =>
        if isSane then
          { estimator with history :=
              estimator.history.modify nBlocksTruncated.toNat (CBlockAverage.recordFee feeRate) }
        else estimator
    else if sufficientPriority && !sufficientFee && tests.areSane dPriority then
      some { estimator with history :=
        estimator.history.modify nBlocksTruncated.toNat (CBlockAverage.recordPriority dPriority) }
    else some estimator

/-- The bucket of an entry by the number of blocks that it took, of so many buckets. -/
def confirmedAfter (nBlockHeight : Int) (size : Nat) (entry : ConfirmedEntry Priority) :
    Option Int :=
  let delta := Int.bmod (nBlockHeight - entry.nHeight.toNat) (2 ^ 32)
  if delta ≤ 0 then none
  else if delta - 1 ≥ size then some (size - 1)
  else some (delta - 1)

/-- `entriesByConfirmations`.  There is no result where an index is out of range. -/
def entriesByConfirmations (nBlockHeight : Int) (size : Nat)
    (entries : List (ConfirmedEntry Priority)) : Option (List (List (ConfirmedEntry Priority))) :=
  entries.foldlM (fun buckets entry =>
    match confirmedAfter nBlockHeight size entry with
    | none => some buckets
    | some place =>
        if 0 ≤ place ∧ place < buckets.length then
          some (buckets.modify place.toNat fun bucket => bucket ++ [entry])
        else none) (List.replicate size [])

/-- At most 10 random entries of a bucket. -/
def pickEntries (shuffle : Shuffle (ConfirmedEntry Priority))
    (e : List (ConfirmedEntry Priority)) : List (ConfirmedEntry Priority) :=
  if e.length > 10 then (shuffle.apply e).take 10 else e

/-- The loop over the entries of one bucket. -/
def seenEntries (tests : PriorityTests Priority) (minRelayFee : CFeeRate) (i : Nat)
    (e : List (ConfirmedEntry Priority)) : Option (CMinerPolicyEstimator Priority) :=
  e.foldlM (fun estimator entry => do
    let feeRate ← CFeeRate.ofFee entry.nFee entry.nTxSize
    seenTxConfirm estimator tests feeRate minRelayFee entry.dPriority i) estimator

def logEstimates : Option (CMinerPolicyEstimator Priority) :=
  (List.range estimator.history.length).foldlM (fun estimator (i : Nat) =>
    if ((estimator.history[i]?.map fun average =>
        average.feeSamples.length + average.prioritySamples.length).getD 0) > 0 then
      (estimateFee estimator ((i : Int) + 1)).map Prod.snd
    else some estimator) estimator

/-- `seenBlock`, with the outcome of the shuffle for each bucket. -/
def seenBlock (tests : PriorityTests Priority) (shuffles : Nat → Shuffle (ConfirmedEntry Priority))
    (entries : List (ConfirmedEntry Priority)) (nBlockHeight : Int) (minRelayFee : CFeeRate) :
    Option (CMinerPolicyEstimator Priority) :=
  if nBlockHeight ≤ estimator.nBestSeenHeight then some estimator
  else do
    let buckets ← entriesByConfirmations nBlockHeight estimator.history.length entries
    let seen ← (buckets.zipIdx).foldlM (fun estimator bucket =>
      seenEntries estimator tests minRelayFee bucket.2
        (pickEntries (shuffles bucket.2) bucket.1)) { estimator with nBestSeenHeight := nBlockHeight }
    logEstimates { seen with sortedFeeSamples := [] }

end CMinerPolicyEstimator

inductive EstimatorCall (Priority : Type) where
  | seenBlock (shuffles : Nat → Shuffle (ConfirmedEntry Priority))
      (entries : List (ConfirmedEntry Priority)) (nBlockHeight : Int) (minRelayFee : CFeeRate)
  | estimateFee (nBlocksToConfirm : Int)

namespace CMinerPolicyEstimator

variable {Priority : Type}

def call (tests : PriorityTests Priority) (estimator : CMinerPolicyEstimator Priority) :
    EstimatorCall Priority → Option (CMinerPolicyEstimator Priority)
  | .seenBlock shuffles entries nBlockHeight minRelayFee =>
      estimator.seenBlock tests shuffles entries nBlockHeight minRelayFee
  | .estimateFee nBlocksToConfirm => (estimator.estimateFee nBlocksToConfirm).map Prod.snd

def run (tests : PriorityTests Priority) (nEntries : Nat) (calls : List (EstimatorCall Priority)) :
    Option (CMinerPolicyEstimator Priority) :=
  calls.foldlM (call tests) (new nEntries)

structure Bounded (nEntries : Nat) (estimator : CMinerPolicyEstimator Priority) : Prop where
  size : estimator.history.length = nEntries
  fees : ∀ average ∈ estimator.history, average.feeSamples.length ≤ 100
  priorities : ∀ average ∈ estimator.history, average.prioritySamples.length ≤ 100

/-- A list that is there is the one of the current samples. -/
def Fresh (estimator : CMinerPolicyEstimator Priority) : Prop :=
  estimator.sortedFeeSamples = [] ∨
    estimator.sortedFeeSamples = sortFees estimator.feeSamples

section Steps

variable {tests : PriorityTests Priority} {nEntries : Nat}
  {estimator after : CMinerPolicyEstimator Priority} {calls : List (EstimatorCall Priority)}

theorem Bounded.modify (bounded : Bounded nEntries estimator) (place : Nat)
    {record : CBlockAverage Priority → CBlockAverage Priority}
    (fees : ∀ average, average.feeSamples.length ≤ 100 → (record average).feeSamples.length ≤ 100)
    (priorities : ∀ average, average.prioritySamples.length ≤ 100 →
      (record average).prioritySamples.length ≤ 100) :
    Bounded nEntries { estimator with history := estimator.history.modify place record } := by
  have each : ∀ average ∈ estimator.history.modify place record,
      average ∈ estimator.history ∨ ∃ old ∈ estimator.history, average = record old := by
    intro average member
    obtain ⟨i, within, rfl⟩ := List.getElem_of_mem member
    rw [List.getElem_modify]
    split_ifs
    · exact Or.inr ⟨_, List.getElem_mem _, rfl⟩
    · exact Or.inl (List.getElem_mem _)
  constructor
  · rw [List.length_modify]
    exact bounded.size
  · intro average member
    cases each average member with
    | inl old => exact bounded.fees average old
    | inr changed =>
        obtain ⟨old, isOld, rfl⟩ := changed
        exact fees old (bounded.fees old isOld)
  · intro average member
    cases each average member with
    | inl old => exact bounded.priorities average old
    | inr changed =>
        obtain ⟨old, isOld, rfl⟩ := changed
        exact priorities old (bounded.priorities old isOld)

theorem Bounded.seenTxConfirm (bounded : Bounded nEntries estimator) {feeRate minRelayFee : CFeeRate}
    {dPriority : Priority} {nBlocksAgo : Nat}
    (seen : estimator.seenTxConfirm tests feeRate minRelayFee dPriority nBlocksAgo = some after) :
    Bounded nEntries after := by
  have recordFee := fun place => @Bounded.modify _ _ _ bounded place
    (CBlockAverage.recordFee feeRate)
    (fun average within => length_pushLatest_le (by decide) within feeRate) (fun _ within => within)
  have recordPriority := fun place => @Bounded.modify _ _ _ bounded place
    (CBlockAverage.recordPriority dPriority) (fun _ within => within)
    (fun average within => length_pushLatest_le (by decide) within dPriority)
  unfold CMinerPolicyEstimator.seenTxConfirm at seen
  simp only at seen
  split at seen
  · cases seen
  · split at seen
    · obtain ⟨isSane, -, same⟩ := Option.map_eq_some_iff.mp seen
      rw [← same]
      split
      · exact recordFee _
      · exact bounded
    · split at seen
      · cases seen
        exact recordPriority _
      · cases seen
        exact bounded

theorem Bounded.seenEntries (bounded : Bounded nEntries estimator) {minRelayFee : CFeeRate} {i : Nat}
    {e : List (ConfirmedEntry Priority)}
    (seen : estimator.seenEntries tests minRelayFee i e = some after) :
    Bounded nEntries after := by
  apply foldlM_invariant ?_ bounded seen
  intro state entry next bounded taken
  obtain ⟨feeRate, -, seen⟩ := Option.bind_eq_some_iff.mp taken
  exact bounded.seenTxConfirm seen

/-- A query changes nothing but the sorted list, which it makes anew where it is empty. -/
theorem estimateFee_spec {n : Int} {feeRate : CFeeRate} (fresh : Fresh estimator)
    (estimated : estimator.estimateFee n = some (feeRate, after)) :
    after.history = estimator.history ∧ Fresh after := by
  have sorted : estimator.sortSamples.history = estimator.history ∧ Fresh estimator.sortSamples := by
    unfold sortSamples
    split_ifs
    · exact ⟨rfl, Or.inr rfl⟩
    · exact ⟨rfl, fresh⟩
  unfold estimateFee at estimated
  simp only at estimated
  split at estimated
  · cases estimated
    exact ⟨rfl, fresh⟩
  · split at estimated
    · cases estimated
      exact sorted
    · obtain ⟨_, -, same⟩ := Option.map_eq_some_iff.mp estimated
      cases same
      exact sorted

theorem Bounded.of_history (bounded : Bounded nEntries estimator)
    (same : after.history = estimator.history) : Bounded nEntries after where
  size := by rw [same]; exact bounded.size
  fees := by rw [same]; exact bounded.fees
  priorities := by rw [same]; exact bounded.priorities

theorem logEstimates_spec (bounded : Bounded nEntries estimator) (fresh : Fresh estimator)
    (logged : estimator.logEstimates = some after) : Bounded nEntries after ∧ Fresh after := by
  apply @foldlM_invariant _ _ _ (fun state => Bounded nEntries state ∧ Fresh state) ?_ _ _ _
    ⟨bounded, fresh⟩ logged
  intro state i next ⟨bounded, fresh⟩ taken
  split at taken
  · obtain ⟨⟨feeRate, _⟩, estimated, rfl⟩ := Option.map_eq_some_iff.mp taken
    obtain ⟨same, fresh⟩ := estimateFee_spec fresh estimated
    exact ⟨bounded.of_history same, fresh⟩
  · cases taken
    exact ⟨bounded, fresh⟩

/-- New samples are followed by an empty list. -/
theorem seenBlock_spec {shuffles : Nat → Shuffle (ConfirmedEntry Priority)}
    {entries : List (ConfirmedEntry Priority)} {nBlockHeight : Int} {minRelayFee : CFeeRate}
    (bounded : Bounded nEntries estimator) (fresh : Fresh estimator)
    (seen : estimator.seenBlock tests shuffles entries nBlockHeight minRelayFee = some after) :
    Bounded nEntries after ∧ Fresh after := by
  unfold seenBlock at seen
  split at seen
  · cases seen
    exact ⟨bounded, fresh⟩
  · obtain ⟨buckets, -, rest⟩ := Option.bind_eq_some_iff.mp seen
    obtain ⟨filled, fill, logged⟩ := Option.bind_eq_some_iff.mp rest
    have raised : Bounded nEntries { estimator with nBestSeenHeight := nBlockHeight } :=
      bounded.of_history rfl
    have filledBounded : Bounded nEntries filled := by
      apply foldlM_invariant ?_ raised fill
      intro state bucket next bounded taken
      exact bounded.seenEntries taken
    have cleared : Bounded nEntries { filled with sortedFeeSamples := [] } :=
      filledBounded.of_history rfl
    exact logEstimates_spec cleared (Or.inl rfl) logged

theorem run_spec (ran : run tests nEntries calls = some after) : Bounded nEntries after ∧ Fresh after := by
  have start : Bounded nEntries (new nEntries : CMinerPolicyEstimator Priority) := by
    constructor
    · exact List.length_replicate
    · intro average member
      rw [List.eq_of_mem_replicate member]
      exact Nat.zero_le _
    · intro average member
      rw [List.eq_of_mem_replicate member]
      exact Nat.zero_le _
  apply @foldlM_invariant _ _ _ (fun state => Bounded nEntries state ∧ Fresh state) ?_ _ _ _
    ⟨start, Or.inl rfl⟩ ran
  intro state call next ⟨bounded, fresh⟩ taken
  cases call with
  | seenBlock shuffles entries nBlockHeight minRelayFee =>
      exact seenBlock_spec bounded fresh taken
  | estimateFee n =>
      obtain ⟨⟨feeRate, _⟩, estimated, rfl⟩ := Option.map_eq_some_iff.mp taken
      obtain ⟨same, fresh⟩ := estimateFee_spec fresh estimated
      exact ⟨bounded.of_history same, fresh⟩

/-! ## The samples in order -/

theorem sum_take_half_le {sizes : List Nat} {first second : Nat} (before : first < second) :
    (sizes.take first).sum + sizes[first]?.getD 0 / 2 ≤ (sizes.take second).sum := by
  induction sizes generalizing first second with
  | nil => simp
  | cons size sizes ih =>
      cases second with
      | zero => omega
      | succ second =>
          cases first with
          | zero =>
              simp only [List.take_zero, List.sum_nil, List.getElem?_cons_zero, Option.getD_some,
                List.take_succ_cons, List.sum_cons]
              omega
          | succ first =>
              have rest := ih (show first < second by omega)
              simp only [List.take_succ_cons, List.sum_cons, List.getElem?_cons_succ]
              omega

theorem sampleIndex_mono {first second : Nat} (ordered : first ≤ second) :
    estimator.sampleIndex first ≤ estimator.sampleIndex second := by
  have sizes : ∀ place, estimator.sampleIndex place =
      min (((estimator.history.map fun average => average.feeSamples.length).take place).sum +
        (estimator.history.map fun average => average.feeSamples.length)[place]?.getD 0 / 2)
        (estimator.sortedFeeSamples.length - 1) := by
    intro place
    rw [sampleIndex, List.map_take, List.getElem?_map]
  rw [sizes, sizes]
  by_cases same : first = second
  · rw [same]
  · have half := @sum_take_half_le
      (estimator.history.map fun average => average.feeSamples.length) first second (by omega)
    omega

theorem sortFees_perm (samples : List CFeeRate) : (sortFees samples).Perm samples :=
  List.perm_insertionSort _ samples

theorem sortFees_sorted (samples : List CFeeRate) :
    (sortFees samples).Pairwise fun left right => left.nSatoshisPerK ≥ right.nSatoshisPerK := by
  have total : Std.Total fun left right : CFeeRate => left.nSatoshisPerK ≥ right.nSatoshisPerK :=
    ⟨fun left right => le_total right.nSatoshisPerK left.nSatoshisPerK⟩
  have trans : IsTrans CFeeRate fun left right => left.nSatoshisPerK ≥ right.nSatoshisPerK :=
    ⟨fun _ _ _ first second => le_trans second first⟩
  exact List.pairwise_insertionSort _ samples

theorem Fresh.sortSamples (fresh : Fresh estimator) :
    estimator.sortSamples.sortedFeeSamples = sortFees estimator.feeSamples := by
  unfold CMinerPolicyEstimator.sortSamples
  split_ifs with empty
  · rfl
  · cases fresh with
    | inl none => exact absurd (congrArg List.length none) empty
    | inr sorted => exact sorted

theorem Fresh.estimateFee (fresh : Fresh estimator) (enough : 11 ≤ estimator.feeSamples.length)
    {n : Nat} (positive : 1 ≤ n) (within : n ≤ estimator.history.length) :
    ∃ feeRate after, estimator.estimateFee n = some (feeRate, after) ∧
      estimator.sortSamples.sampleIndex (n - 1) < estimator.feeSamples.length ∧
      (sortFees estimator.feeSamples)[estimator.sortSamples.sampleIndex (n - 1)]? =
        some feeRate := by
  have length : (sortFees estimator.feeSamples).length = estimator.feeSamples.length :=
    (sortFees_perm _).length_eq
  have inside : estimator.sortSamples.sampleIndex (n - 1) < estimator.feeSamples.length := by
    unfold sampleIndex
    rw [fresh.sortSamples, length]
    exact Nat.lt_of_le_of_lt (Nat.min_le_right _ _) (by omega)
  have place : ((n : Int) - 1).toNat = n - 1 := by omega
  obtain ⟨feeRate, found⟩ : ∃ feeRate,
      (sortFees estimator.feeSamples)[estimator.sortSamples.sampleIndex (n - 1)]? = some feeRate :=
    ⟨_, List.getElem?_eq_getElem (by rw [length]; exact inside)⟩
  refine ⟨feeRate, estimator.sortSamples, ?_, inside, found⟩
  rw [CMinerPolicyEstimator.estimateFee, if_neg (by omega)]
  simp only [fresh.sortSamples, length, place]
  rw [if_neg (by omega), found, Option.map_some]

/-- After any calls the buckets are bounded, and where there are eleven samples an estimate is a
sample by its place in the sorted list, and no lower than an estimate for more blocks. -/
theorem estimateFee_exact (ran : run tests nEntries calls = some estimator) :
    (∀ average ∈ estimator.history, average.feeSamples.length ≤ 100 ∧
      average.prioritySamples.length ≤ 100) ∧
    (sortFees estimator.feeSamples).Perm estimator.feeSamples ∧
    ((sortFees estimator.feeSamples).Pairwise fun left right =>
      left.nSatoshisPerK ≥ right.nSatoshisPerK) ∧
    (11 ≤ estimator.feeSamples.length → ∀ n : Nat, 1 ≤ n → n ≤ estimator.history.length →
      ∃ feeRate after index, estimator.estimateFee n = some (feeRate, after) ∧
        after.history = estimator.history ∧ index < estimator.feeSamples.length ∧
        (sortFees estimator.feeSamples)[index]? = some feeRate ∧
        ∀ m : Nat, n ≤ m → m ≤ estimator.history.length → ∀ other next,
          estimator.estimateFee m = some (other, next) →
            feeRate.nSatoshisPerK ≥ other.nSatoshisPerK) := by
  obtain ⟨bounded, fresh⟩ := run_spec ran
  refine ⟨fun average member => ⟨bounded.fees average member, bounded.priorities average member⟩,
    sortFees_perm _, sortFees_sorted _, ?_⟩
  intro enough n positive within
  obtain ⟨feeRate, after, estimated, inside, found⟩ := fresh.estimateFee enough positive within
  refine ⟨feeRate, after, _, estimated, (estimateFee_spec fresh estimated).1, inside, found, ?_⟩
  intro m later withinM other next estimatedM
  obtain ⟨feeRateM, _, again, _, foundM⟩ :=
    fresh.estimateFee enough (show 1 ≤ m by omega) withinM
  rw [estimatedM] at again
  cases again
  have order := @sampleIndex_mono _ estimator.sortSamples (n - 1) (m - 1) (by omega)
  obtain ⟨insideN, rfl⟩ := List.getElem?_eq_some_iff.mp found
  obtain ⟨insideM, rfl⟩ := List.getElem?_eq_some_iff.mp foundM
  rcases Nat.lt_or_eq_of_le order with before | same
  · exact List.pairwise_iff_getElem.mp (sortFees_sorted _) _ _ insideN insideM before
  · simp only [same, ge_iff_le, le_refl]

end Steps

def payingTests : PriorityTests Unit := { allowFree := fun _ => false, areSane := fun _ => true }

/-- A block of six transactions which the pool took at the height before. -/
def payingBlock (nBlockHeight : Nat) : EstimatorCall Unit :=
  .seenBlock (fun _ => { apply := id, perm := List.Perm.refl })
    (List.replicate 6
      { nHeight := UInt32.ofNat (nBlockHeight - 1), nFee := 20000, nTxSize := 1000, dPriority := () })
    nBlockHeight ⟨1000⟩

theorem estimateFee_exact_paying : ∃ estimator,
    run payingTests 2 [payingBlock 1, .estimateFee 1, payingBlock 2] = some estimator ∧
      11 ≤ estimator.feeSamples.length ∧
      ∃ feeRate after index, estimator.estimateFee 1 = some (feeRate, after) ∧
        index < estimator.feeSamples.length ∧
        (sortFees estimator.feeSamples)[index]? = some feeRate := by
  obtain ⟨estimator, ran, enough, two⟩ : ∃ estimator,
      run payingTests 2 [payingBlock 1, .estimateFee 1, payingBlock 2] = some estimator ∧
        11 ≤ estimator.feeSamples.length ∧ 1 ≤ estimator.history.length := ⟨_, rfl, by decide, by decide⟩
  obtain ⟨feeRate, after, index, estimated, -, inside, found, -⟩ :=
    (estimateFee_exact ran).2.2.2 enough 1 (Nat.le_refl 1) two
  exact ⟨estimator, ran, enough, feeRate, after, index, estimated, inside, found⟩

end CMinerPolicyEstimator

end Lycancoin
