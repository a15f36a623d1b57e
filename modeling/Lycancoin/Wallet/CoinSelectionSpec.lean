import Lycancoin.Wallet.CoinSelection

namespace Lycancoin

open Data

namespace SubsetSearch

variable {nTargetValue : Int} {values : List Int}

structure InStep (nTargetValue : Int) (values : List Int) (search : SubsetSearch) : Prop where
  length : search.vfIncluded.length = values.length
  total : search.nTotal = (Marked.picked values search.vfIncluded).sum
  best : search.nBest = (Marked.picked values search.vfBest).sum
  reaches : nTargetValue ≤ search.nBest

theorem sum_picked_mem (positive : ∀ value ∈ values, 0 < value) (marks : List Bool) :
    0 ≤ (Marked.picked values marks).sum ∧ (Marked.picked values marks).sum ≤ values.sum := by
  have nonneg : ∀ value ∈ values, 0 ≤ id value := fun value member => (positive value member).le
  constructor
  · simpa using Marked.sum_picked_nonneg nonneg marks
  · simpa using Marked.sum_picked_le nonneg marks

/-- Taking a value that is not included keeps the search in step, and marks no other value. -/
theorem take_inStep (positive : ∀ value ∈ values, 0 < value)
    (bounded : values.sum < 2 ^ 63) {search : SubsetSearch} {value : Int} {i : Nat}
    (inStep : InStep nTargetValue values search) (valueAt : values[i]? = some value)
    (free : search.vfIncluded[i]? = some false) :
    ∃ after, search.take nTargetValue value i = some after ∧ InStep nTargetValue values after ∧
      ∀ j ≠ i, after.vfIncluded[j]? = search.vfIncluded[j]? := by
  have added : (Marked.picked values (search.vfIncluded.set i true)).sum =
      search.nTotal + value := by
    simpa [inStep.total] using @Marked.sum_picked_set _ id _ _ _ _ valueAt free
  have newRange := sum_picked_mem positive (search.vfIncluded.set i true)
  have oldRange := sum_picked_mem positive search.vfIncluded
  rw [added] at newRange
  rw [← inStep.total] at oldRange
  have newFits : InInt64 (search.nTotal + value) := ⟨by omega, by omega⟩
  have oldFits : InInt64 search.nTotal := ⟨by omega, by omega⟩
  unfold take
  rw [int64_of_inInt64 newFits]
  by_cases reached : nTargetValue ≤ search.nTotal + value
  · have back : (search.vfIncluded.set i true).set i false = search.vfIncluded := by
      rw [List.set_set, Marked.set_of_getElem? free]
    simp only [Option.bind_eq_bind, Option.bind_some, ge_iff_le, reached, if_pos, back,
      add_sub_cancel_right, int64_of_inInt64 oldFits, Option.pure_def, Option.some.injEq,
      exists_eq_left']
    constructor
    · by_cases better : search.nTotal + value < search.nBest
      · simp only [better, if_pos]
        exact ⟨inStep.length, inStep.total, added.symm, reached⟩
      · simp only [better, if_neg, not_false_eq_true]
        exact ⟨inStep.length, inStep.total, inStep.best, inStep.reaches⟩
    · simp
  · simp only [Option.bind_eq_bind, Option.bind_some, ge_iff_le, reached, if_neg,
      not_false_eq_true, Option.pure_def, Option.some.injEq, exists_eq_left']
    constructor
    · exact ⟨by simp [inStep.length], added.symm, inStep.best, inStep.reaches⟩
    · intro j different
      simp [List.getElem?_set_ne different.symm]

/-- A pass keeps the search in step when what it takes is not included: the values that are still
to come are not, or the pass looks. -/
theorem pass_inStep (positive : ∀ value ∈ values, 0 < value)
    (bounded : values.sum < 2 ^ 63)
    (takes : List Bool → Nat → Bool) {rest : List Int} (start : Nat) {search : SubsetSearch}
    (restEq : values.drop start = rest)
    (inStep : InStep nTargetValue values search)
    (free : (∀ marks i, takes marks i = true → marks[i]? = some false) ∨
      ∀ i, start ≤ i → i < values.length → search.vfIncluded[i]? = some false) :
    ∃ after, pass nTargetValue takes rest start search = some after ∧
      InStep nTargetValue values after := by
  induction rest generalizing start search with
  | nil => exact ⟨search, rfl, inStep⟩
  | cons value rest ih =>
      have valueAt : values[start]? = some value := by
        rw [← List.head?_drop, restEq, List.head?_cons]
      have bound : start < values.length := (List.getElem?_eq_some_iff.1 valueAt).1
      have restNext : values.drop (start + 1) = rest := by
        rw [← List.tail_drop, restEq, List.tail_cons]
      unfold pass
      by_cases taken : takes search.vfIncluded start = true
      · have unmarked : search.vfIncluded[start]? = some false := by
          rcases free with looks | ahead
          · exact looks _ _ taken
          · exact ahead start le_rfl bound
        obtain ⟨after, takeEq, afterStep, others⟩ :=
          take_inStep positive bounded inStep valueAt unmarked
        rw [if_pos taken, takeEq]
        apply ih (start + 1) restNext afterStep
        apply free.imp id
        intro ahead i above below
        rw [others i (by omega)]
        exact ahead i (by omega) below
      · rw [if_neg taken]
        apply ih (start + 1) restNext inStep
        apply free.imp id
        intro ahead i above below
        exact ahead i (by omega) below

theorem repetition_inStep (positive : ∀ value ∈ values, 0 < value)
    (bounded : values.sum < 2 ^ 63)
    {bits : Nat → Bool} {search : SubsetSearch}
    (best : search.nBest = (Marked.picked values search.vfBest).sum)
    (reaches : nTargetValue ≤ search.nBest) :
    ∃ after, search.repetition nTargetValue bits values = some after ∧
      InStep nTargetValue values after := by
  have startStep : InStep nTargetValue values
      { search with
        vfIncluded := List.replicate values.length false
        nTotal := 0
        fReachedTarget := false } :=
    ⟨by simp, by simp, best, reaches⟩
  obtain ⟨first, firstEq, firstStep⟩ := pass_inStep positive bounded (fun _ i => bits i) 0
    List.drop_zero startStep
    (Or.inr fun i _ below => by simp [below])
  unfold repetition
  rw [firstEq]
  simp only [Option.bind_eq_bind, Option.bind_some]
  by_cases reached : first.fReachedTarget = true
  · simp [reached, firstStep]
  · rw [if_neg reached]
    apply pass_inStep positive bounded _ 0 List.drop_zero firstStep
    left
    intro marks i looked
    simpa using looked

theorem repetitions_inStep (positive : ∀ value ∈ values, 0 < value)
    (bounded : values.sum < 2 ^ 63)
    (bits : Nat → Nat → Bool) (count nRep : Nat) {search : SubsetSearch}
    (best : search.nBest = (Marked.picked values search.vfBest).sum)
    (reaches : nTargetValue ≤ search.nBest) :
    ∃ after, repetitions nTargetValue bits values count nRep search = some after ∧
      after.nBest = (Marked.picked values after.vfBest).sum ∧ nTargetValue ≤ after.nBest := by
  induction count generalizing nRep search with
  | zero => exact ⟨search, rfl, best, reaches⟩
  | succ count ih =>
      unfold repetitions
      by_cases found : search.nBest = nTargetValue
      · simp only [found, ne_eq, not_true_eq_false, if_false]
        exact ⟨search, rfl, best, reaches⟩
      · obtain ⟨after, repetitionEq, afterStep⟩ :=
          repetition_inStep positive bounded best reaches
        rw [if_pos found, repetitionEq]
        exact ih (nRep + 1) afterStep.best afterStep.reaches

end SubsetSearch

section

variable {κ : Type}

theorem picked_map_fst (vValue : List (ValuedCoin κ)) (marks : List Bool) :
    Marked.picked (vValue.map Prod.fst) marks = (Marked.picked vValue marks).map Prod.fst := by
  induction vValue generalizing marks with
  | nil => simp
  | cons coin vValue ih =>
      cases marks with
      | nil => simp [Marked.picked]
      | cons mark marks => cases mark <;> simp [Marked.picked, ih]

theorem approximateBestSubset_spec (bits : Nat → Nat → Bool) {vValue : List (ValuedCoin κ)}
    {nTotalLower nTargetValue : Int} (iterations : Nat)
    (positive : ∀ coin ∈ vValue, 0 < coin.1) (total : nTotalLower = (vValue.map Prod.fst).sum)
    (bounded : nTotalLower < 2 ^ 63) (reaches : nTargetValue ≤ nTotalLower) :
    ∃ vfBest nBest, approximateBestSubset bits vValue nTotalLower nTargetValue iterations =
        some (vfBest, nBest) ∧
      nBest = ((Marked.picked vValue vfBest).map Prod.fst).sum ∧ nTargetValue ≤ nBest := by
  have valuesPositive : ∀ value ∈ vValue.map Prod.fst, 0 < value := by
    intro value valueIn
    obtain ⟨coin, coinIn, rfl⟩ := List.mem_map.1 valueIn
    exact positive coin coinIn
  let start : SubsetSearch := ⟨[], 0, false, List.replicate vValue.length true, nTotalLower⟩
  have startBest : start.nBest = (Marked.picked (vValue.map Prod.fst) start.vfBest).sum := by
    have whole := Marked.picked_replicate_true (vValue.map Prod.fst)
    rw [List.length_map] at whole
    rw [whole, ← total]
  obtain ⟨after, run, best, reached⟩ := SubsetSearch.repetitions_inStep valuesPositive
    (total ▸ bounded) bits iterations 0 startBest reaches
  have bestEq : after.nBest = ((Marked.picked vValue after.vfBest).map Prod.fst).sum := by
    rw [best, picked_map_fst]
  refine ⟨after.vfBest, after.nBest, ?_, bestEq, reached⟩
  unfold approximateBestSubset
  rw [run]
  simp

/-- Inserting distinct coins gives a set of just these coins, and their total. -/
theorem returnCoins_spec [DecidableEq κ] {coins : List (ValuedCoin κ)} {setCoinsRet : List (κ × Nat)}
    {nValueRet : Int} (distinct : (coins.map Prod.snd).Nodup)
    (fresh : ∀ coin ∈ coins, coin.2 ∉ setCoinsRet) (positive : ∀ coin ∈ coins, 0 < coin.1)
    (start : 0 ≤ nValueRet) (bounded : nValueRet + (coins.map Prod.fst).sum < 2 ^ 63) :
    returnCoins coins setCoinsRet nValueRet =
      some ((coins.map Prod.snd).reverse ++ setCoinsRet,
        nValueRet + (coins.map Prod.fst).sum) := by
  induction coins generalizing setCoinsRet nValueRet with
  | nil => simp [returnCoins]
  | cons coin coins ih =>
      simp only [List.map_cons, List.nodup_cons, List.mem_cons, forall_eq_or_imp,
        List.sum_cons] at distinct fresh positive bounded
      have restNonneg : 0 ≤ (coins.map Prod.fst).sum := by
        apply List.sum_nonneg
        intro value valueIn
        obtain ⟨other, otherIn, rfl⟩ := List.mem_map.1 valueIn
        exact (positive.2 other otherIn).le
      have fits : InInt64 (nValueRet + coin.1) := ⟨by omega, by omega⟩
      have restFresh : ∀ other ∈ coins, other.2 ∉ coin.2 :: setCoinsRet := by
        intro other otherIn member
        rcases List.mem_cons.1 member with same | member
        · exact distinct.1 (same ▸ List.mem_map_of_mem otherIn)
        · exact fresh.2 other otherIn member
      unfold returnCoins
      rw [int64_of_inInt64 fits]
      simp only [Option.bind_eq_bind, Option.bind_some, List.insert_of_not_mem fresh.1]
      rw [ih distinct.2 restFresh positive.2 (by omega) (by omega)]
      simp [add_assoc]

end

section

variable {κ : Type} {view : CoinView κ} {nTargetValue nConfMine nConfTheirs : Int}

def COutput.total (view : CoinView κ) (outputs : List (COutput κ)) : Int :=
  (outputs.map (COutput.value view)).sum

def COutput.valued (view : CoinView κ) (output : COutput κ) : ValuedCoin κ :=
  (output.value view, output.coin)

theorem COutput.total_nonneg {outputs : List (COutput κ)}
    (positive : ∀ output ∈ outputs, 0 < output.value view) : 0 ≤ COutput.total view outputs := by
  apply List.sum_nonneg
  intro value valueIn
  obtain ⟨output, outputIn, rfl⟩ := List.mem_map.1 valueIn
  exact (positive output outputIn).le

theorem COutput.total_sublist {some all : List (COutput κ)} (sublist : some.Sublist all)
    (positive : ∀ output ∈ all, 0 < output.value view) :
    COutput.total view some ≤ COutput.total view all := by
  apply List.Sublist.sum_le_sum (sublist.map _)
  intro value valueIn
  obtain ⟨output, outputIn, rfl⟩ := List.mem_map.1 valueIn
  exact (positive output outputIn).le

theorem COutput.value_le_total {outputs : List (COutput κ)} {output : COutput κ}
    (member : output ∈ outputs) (positive : ∀ output ∈ outputs, 0 < output.value view) :
    output.value view ≤ COutput.total view outputs := by
  simpa [COutput.total] using
    COutput.total_sublist (List.singleton_sublist.2 member) positive

/-- What the loop over the coins has found among those it has seen. -/
structure CandidateCoins.Found (view : CoinView κ) (nTargetValue : Int) (seen : List (COutput κ))
    (found : CandidateCoins κ) : Prop where
  lower : found.vValue = (seen.filter fun output =>
    output.value view < nTargetValue + CENT).map (COutput.valued view)
  total : found.nTotalLower = (found.vValue.map Prod.fst).sum
  larger : (found.coinLowestLarger = (2 ^ 63 - 1, none) ∧
      ∀ output ∈ seen, output.value view < nTargetValue + CENT) ∨
    ∃ output ∈ seen, found.coinLowestLarger = (output.value view, some output.coin) ∧
      nTargetValue + CENT ≤ output.value view

namespace CandidateCoins.Found

variable {seen : List (COutput κ)} {found : CandidateCoins κ}

theorem nTotalLower_eq (known : Found view nTargetValue seen found) :
    found.nTotalLower = COutput.total view (seen.filter fun output =>
      output.value view < nTargetValue + CENT) := by
  rw [known.total, known.lower]
  simp [COutput.total, COutput.valued, Function.comp_def]

theorem nTotalLower_mem (known : Found view nTargetValue seen found)
    (positive : ∀ output ∈ seen, 0 < output.value view) :
    0 ≤ found.nTotalLower ∧ found.nTotalLower ≤ COutput.total view seen := by
  rw [known.nTotalLower_eq]
  constructor
  · apply COutput.total_nonneg
    intro output member
    exact positive output (List.mem_of_mem_filter member)
  · exact COutput.total_sublist List.filter_sublist positive

theorem snoc_lower {output : COutput κ} (known : Found view nTargetValue seen found)
    (low : output.value view < nTargetValue + CENT) :
    Found view nTargetValue (seen ++ [output])
      { found with
        vValue := found.vValue ++ [(output.value view, output.coin)]
        nTotalLower := found.nTotalLower + output.value view } := by
  constructor
  · simp [known.lower, low, COutput.valued]
  · simp [known.total]
  · rcases known.larger with ⟨none, all⟩ | ⟨lowest, member, eq, large⟩
    · left
      refine ⟨none, ?_⟩
      simpa [low, or_imp, forall_and] using all
    · exact Or.inr ⟨lowest, List.mem_append_left _ member, eq, large⟩

theorem snoc_larger {output : COutput κ} (known : Found view nTargetValue seen found)
    (high : nTargetValue + CENT ≤ output.value view) :
    Found view nTargetValue (seen ++ [output])
      { found with coinLowestLarger := (output.value view, some output.coin) } := by
  constructor
  · simp [known.lower, Int.not_lt.2 high]
  · exact known.total
  · exact Or.inr ⟨output, by simp, rfl, high⟩

/-- A coin worth as much as the lowest of the larger ones, or more, changes nothing. -/
theorem snoc_same {output : COutput κ} (known : Found view nTargetValue seen found)
    (high : nTargetValue + CENT ≤ output.value view) (fits : output.value view < 2 ^ 63 - 1)
    (notLower : found.coinLowestLarger.1 ≤ output.value view) :
    Found view nTargetValue (seen ++ [output]) found := by
  constructor
  · simp [known.lower, Int.not_lt.2 high]
  · exact known.total
  · rcases known.larger with ⟨none, all⟩ | ⟨lowest, member, eq, large⟩
    · rw [none] at notLower
      omega
    · exact Or.inr ⟨lowest, List.mem_append_left _ member, eq, large⟩

end CandidateCoins.Found

/-- The loop has ended at a coin of just the target value, or it knows all the coins. -/
def Sorting.Sound (view : CoinView κ) (nTargetValue : Int) (seen rest : List (COutput κ)) :
    Sorting κ → Prop
  | .exact coin =>
      ∃ output ∈ rest, output.value view = nTargetValue ∧ coin = output.valued view
  | .candidates found => found.Found view nTargetValue (seen ++ rest)

theorem Sorting.Sound.cons {seen rest : List (COutput κ)} {output : COutput κ}
    {sorting : Sorting κ} (sound : sorting.Sound view nTargetValue (seen ++ [output]) rest) :
    sorting.Sound view nTargetValue seen (output :: rest) := by
  cases sorting with
  | exact coin =>
      obtain ⟨other, member, facts⟩ := sound
      exact ⟨other, List.mem_cons_of_mem output member, facts⟩
  | candidates found => simpa [Sorting.Sound] using sound

theorem sortOut_spec {outputs seen : List (COutput κ)} {found : CandidateCoins κ}
    (known : found.Found view nTargetValue seen)
    (positive : ∀ output ∈ seen ++ outputs, 0 < output.value view)
    (bounded : COutput.total view (seen ++ outputs) < 2 ^ 63 - CENT)
    (targetFits : InInt64 (nTargetValue + CENT)) :
    ∃ sorting, sortOut view nTargetValue nConfMine nConfTheirs outputs found = some sorting ∧
      sorting.Sound view nTargetValue seen
        (outputs.filter (COutput.eligible view nConfMine nConfTheirs)) := by
  induction outputs generalizing seen found with
  | nil => exact ⟨.candidates found, rfl, by simpa [Sorting.Sound] using known⟩
  | cons output outputs ih =>
      unfold sortOut
      by_cases eligible : output.eligible view nConfMine nConfTheirs = true
      case neg =>
        have sublist : (seen ++ outputs).Sublist (seen ++ output :: outputs) :=
          List.Sublist.append_left (List.sublist_cons_self output outputs) seen
        have smaller := COutput.total_sublist sublist positive
        have rest := ih known (fun other member => positive other (sublist.subset member))
          (by omega)
        simpa [eligible] using rest
      case pos =>
        have whole : seen ++ output :: outputs = (seen ++ [output]) ++ outputs := by simp
        rw [whole] at positive bounded
        have member : output ∈ seen ++ [output] ++ outputs := by simp
        have below := COutput.value_le_total member positive
        have outputPositive := positive output member
        simp only [eligible, Bool.not_true, Bool.false_eq_true, if_false, List.filter_cons_of_pos]
        by_cases exact : output.value view = nTargetValue
        · rw [if_pos exact]
          exact ⟨_, rfl, output, List.mem_cons_self, exact, rfl⟩
        · rw [if_neg exact, int64_of_inInt64 targetFits]
          simp only [Option.bind_eq_bind, Option.bind_some]
          have next : ∀ {later : CandidateCoins κ},
              later.Found view nTargetValue (seen ++ [output]) →
              ∃ sorting, sortOut view nTargetValue nConfMine nConfTheirs outputs later =
                  some sorting ∧
                sorting.Sound view nTargetValue seen (output ::
                  outputs.filter (COutput.eligible view nConfMine nConfTheirs)) := by
            intro later laterKnown
            obtain ⟨sorting, run, sound⟩ := ih laterKnown positive bounded
            exact ⟨sorting, run, sound.cons⟩
          by_cases low : output.value view < nTargetValue + CENT
          · have seenPositive : ∀ other ∈ seen, 0 < other.value view :=
              fun other member => positive other (by simp [member])
            have lowerRange := known.nTotalLower_mem seenPositive
            have seenLe := COutput.total_sublist
              (List.sublist_append_left (seen ++ [output]) outputs) positive
            have split : COutput.total view (seen ++ [output]) =
                COutput.total view seen + output.value view := by
              simp [COutput.total]
            have cent : CENT = 1000000 := rfl
            have fits : InInt64 (found.nTotalLower + output.value view) := ⟨by omega, by omega⟩
            rw [if_pos low, int64_of_inInt64 fits]
            exact next (known.snoc_lower low)
          · rw [if_neg low]
            by_cases lower : output.value view < found.coinLowestLarger.1
            · rw [if_pos lower]
              exact next (known.snoc_larger (Int.not_lt.1 low))
            · rw [if_neg lower]
              have cent : CENT = 1000000 := rfl
              exact next (known.snoc_same (Int.not_lt.1 low) (by omega) (Int.not_lt.1 lower))

theorem CandidateCoins.Found.nTotalLower_eq_total {seen : List (COutput κ)}
    {found : CandidateCoins κ} (known : found.Found view nTargetValue seen)
    (none : found.coinLowestLarger.2 = none) :
    found.nTotalLower = COutput.total view seen := by
  rcases known.larger with ⟨_, all⟩ | ⟨output, _, eq, _⟩
  · rw [known.nTotalLower_eq, List.filter_eq_self.2 (by simpa using all)]
  · simp [eq] at none

/-- The coins that `SelectCoinsMinConf` returns are among those given, reach the target, and pass
it by less than a cent only where no set of them would pass it by more. -/
structure Selected (view : CoinView κ) (nTargetValue : Int) (outputs : List (COutput κ))
    (coins : List (ValuedCoin κ)) : Prop where
  subperm : coins.Subperm (outputs.map (COutput.valued view))
  reaches : nTargetValue ≤ (coins.map Prod.fst).sum
  close : nTargetValue < (coins.map Prod.fst).sum →
    (coins.map Prod.fst).sum < nTargetValue + CENT →
    COutput.total view outputs < nTargetValue + CENT

theorem Selected.single {outputs : List (COutput κ)} {output : COutput κ}
    (member : output ∈ outputs)
    (value : output.value view = nTargetValue ∨ nTargetValue + CENT ≤ output.value view) :
    Selected view nTargetValue outputs [output.valued view] := by
  have cent : CENT = 1000000 := rfl
  constructor
  · exact List.singleton_subperm_iff.2 (List.mem_map_of_mem member)
  · simp only [COutput.valued, List.map_cons, List.map_nil, List.sum_cons, List.sum_nil]
    omega
  · simp only [COutput.valued, List.map_cons, List.map_nil, List.sum_cons, List.sum_nil]
    omega

section

variable {outputs : List (COutput κ)} {found : CandidateCoins κ}

theorem CandidateCoins.Found.selected_larger (known : found.Found view nTargetValue outputs)
    {larger : κ × Nat} (some : found.coinLowestLarger.2 = some larger) :
    Selected view nTargetValue outputs [(found.coinLowestLarger.1, larger)] := by
  rcases known.larger with ⟨none, _⟩ | ⟨output, member, eq, large⟩
  · simp [none] at some
  · obtain rfl : output.coin = larger := by simpa [eq] using some
    rw [eq]
    exact Selected.single member (Or.inr large)

theorem CandidateCoins.Found.selected_picked (known : found.Found view nTargetValue outputs)
    {vValue : List (ValuedCoin κ)} (perm : vValue.Perm found.vValue) {vfBest : List Bool}
    {nBest : Int} (total : nBest = ((Marked.picked vValue vfBest).map Prod.fst).sum)
    (reaches : nTargetValue ≤ nBest)
    (close : nTargetValue < nBest → nBest < nTargetValue + CENT →
      COutput.total view outputs < nTargetValue + CENT) :
    Selected view nTargetValue outputs (Marked.picked vValue vfBest) := by
  constructor
  · apply (Marked.picked_sublist vValue vfBest).subperm.trans
    apply perm.subperm.trans
    rw [known.lower]
    exact (List.filter_sublist.map _).subperm
  · rw [← total]
    exact reaches
  · rw [← total]
    exact close

/-- Where the lower coins are worth more than the target, the search or the larger coin gives the
result. -/
theorem chooseCoins_spec (choices : SelectionChoices κ)
    (known : found.Found view nTargetValue outputs)
    (positive : ∀ output ∈ outputs, 0 < output.value view)
    (bounded : COutput.total view outputs < 2 ^ 63 - CENT)
    (targetFits : InInt64 (nTargetValue + CENT)) (above : nTargetValue ≤ found.nTotalLower) :
    ∃ coins, chooseCoins choices nTargetValue found = some coins ∧
      Selected view nTargetValue outputs coins := by
  have cent : CENT = 1000000 := rfl
  have perm := choices.sort_perm found.vValue
  have sortedPositive : ∀ coin ∈ choices.sortDescending found.vValue, 0 < coin.1 := by
    intro coin member
    rw [perm.mem_iff, known.lower] at member
    obtain ⟨output, outputIn, rfl⟩ := List.mem_map.1 member
    exact positive output (List.mem_of_mem_filter outputIn)
  have sortedTotal : found.nTotalLower =
      ((choices.sortDescending found.vValue).map Prod.fst).sum := by
    rw [known.total, (perm.map Prod.fst).sum_eq]
  have lowerLe := (known.nTotalLower_mem positive).2
  -- both searches end in step, and the second one only beyond a cent
  have finish : ∀ vfBest nBest,
      nBest = ((Marked.picked (choices.sortDescending found.vValue) vfBest).map Prod.fst).sum →
      nTargetValue ≤ nBest →
      (nBest = nTargetValue ∨ found.nTotalLower < nTargetValue + CENT ∨
        nTargetValue + CENT ≤ nBest) →
      ∃ coins, found.coinLowestLarger.2.elim
          (pure (Marked.picked (choices.sortDescending found.vValue) vfBest))
          (fun larger =>
            if (nBest ≠ nTargetValue ∧ nBest < nTargetValue + CENT) ∨
                found.coinLowestLarger.1 ≤ nBest then
              pure [(found.coinLowestLarger.1, larger)]
            else pure (Marked.picked (choices.sortDescending found.vValue) vfBest)) =
          some coins ∧ Selected view nTargetValue outputs coins := by
    intro vfBest nBest best reaches cases
    cases larger : found.coinLowestLarger.2 with
    | none =>
        have whole := known.nTotalLower_eq_total larger
        exact ⟨_, rfl, known.selected_picked perm best reaches (by omega)⟩
    | some larger' =>
        rw [Option.elim_some]
        split
        · exact ⟨_, rfl, known.selected_larger larger⟩
        · exact ⟨_, rfl, known.selected_picked perm best reaches (by omega)⟩
  obtain ⟨vfBest, nBest, run, best, reaches⟩ := approximateBestSubset_spec
    (choices.insecureRand 0) 1000 sortedPositive sortedTotal (by omega) above
  unfold chooseCoins
  simp only [int64_of_inInt64 targetFits, Option.bind_eq_bind, Option.bind_some, run]
  by_cases again : nBest ≠ nTargetValue ∧ found.nTotalLower ≥ nTargetValue + CENT
  · obtain ⟨vfBest', nBest', run', best', reaches'⟩ := approximateBestSubset_spec
      (choices.insecureRand 1) 1000 sortedPositive sortedTotal (by omega) again.2
    rw [if_pos again, run']
    simp only [Option.bind_some]
    have ends := finish vfBest' nBest' best' (by omega) (by omega)
    cases larger : found.coinLowestLarger.2 <;> (rw [larger] at ends; exact ends)
  · rw [if_neg again]
    simp only [Option.pure_def, Option.bind_some]
    have ends := finish vfBest nBest best reaches (by omega)
    cases larger : found.coinLowestLarger.2 <;> (rw [larger] at ends; exact ends)

end

theorem Selected.total_le {outputs : List (COutput κ)} {coins : List (ValuedCoin κ)}
    (selected : Selected view nTargetValue outputs coins)
    (positive : ∀ output ∈ outputs, 0 < output.value view) :
    (coins.map Prod.fst).sum ≤ COutput.total view outputs := by
  obtain ⟨listed, perm, sublist⟩ := selected.subperm
  rw [← (perm.map Prod.fst).sum_eq]
  have below := (sublist.map Prod.fst).sum_le_sum (by
    intro value valueIn
    obtain ⟨coin, member, rfl⟩ := List.mem_map.1 valueIn
    obtain ⟨output, outputIn, rfl⟩ := List.mem_map.1 member
    exact (positive output outputIn).le)
  simpa [COutput.valued, COutput.total, Function.comp_def] using below

theorem Selected.nodup {outputs : List (COutput κ)} {coins : List (ValuedCoin κ)}
    (selected : Selected view nTargetValue outputs coins)
    (distinct : (outputs.map COutput.coin).Nodup) : (coins.map Prod.snd).Nodup := by
  obtain ⟨listed, perm, sublist⟩ := selected.subperm
  rw [← (perm.map Prod.snd).nodup_iff]
  apply (sublist.map Prod.snd).nodup
  simpa [COutput.valued, Function.comp_def] using distinct

theorem Selected.returnCoins_eq [DecidableEq κ] {outputs : List (COutput κ)}
    {coins : List (ValuedCoin κ)} (selected : Selected view nTargetValue outputs coins)
    (distinct : (outputs.map COutput.coin).Nodup)
    (positive : ∀ output ∈ outputs, 0 < output.value view)
    (bounded : COutput.total view outputs < 2 ^ 63 - CENT) :
    returnCoins coins [] 0 = some ((coins.map Prod.snd).reverse, (coins.map Prod.fst).sum) := by
  have cent : CENT = 1000000 := rfl
  have coinsPositive : ∀ coin ∈ coins, 0 < coin.1 := by
    intro coin member
    obtain ⟨output, outputIn, rfl⟩ := List.mem_map.1 (selected.subperm.subset member)
    exact positive output outputIn
  have coinsTotal := selected.total_le positive
  have run := @returnCoins_spec κ _ coins [] 0 (selected.nodup distinct) (by simp) coinsPositive
    le_rfl (by omega)
  simpa using run

/-- Some coins of a wallet with positive values that leave a cent of room below `2 ^ 63`. -/
structure SpendableCoins (view : CoinView κ) (vCoins : List (COutput κ)) : Prop where
  distinct : (vCoins.map COutput.coin).Nodup
  positive : ∀ output ∈ vCoins, 0 < output.value view
  bounded : COutput.total view vCoins < 2 ^ 63 - CENT

theorem SpendableCoins.of_subperm {some vCoins : List (COutput κ)}
    (coins : SpendableCoins view vCoins) (subperm : some.Subperm vCoins) :
    SpendableCoins view some := by
  obtain ⟨listed, perm, sublist⟩ := subperm
  constructor
  · rw [← (perm.map COutput.coin).nodup_iff]
    exact (sublist.map COutput.coin).nodup coins.distinct
  · intro output member
    exact coins.positive output (sublist.subset (perm.mem_iff.2 member))
  · have same : COutput.total view listed = COutput.total view some := (perm.map _).sum_eq
    have below := COutput.total_sublist sublist coins.positive
    have bounded := coins.bounded
    omega

def CoinView.total (view : CoinView κ) (setCoins : List (κ × Nat)) : Int :=
  (setCoins.map fun coin => view.nValue coin.1 coin.2).sum

/-- What `SelectCoinsMinConf` answers when `outputs` are the coins that meet its policy. -/
structure SelectionResult (view : CoinView κ) (nTargetValue : Int) (outputs : List (COutput κ))
    (result : Bool × List (κ × Nat) × Int) : Prop where
  enough : result.1 = true ↔ nTargetValue ≤ COutput.total view outputs
  nodup : result.2.1.Nodup
  subset : ∀ coin ∈ result.2.1, ∃ output ∈ outputs, output.coin = coin
  total : result.2.2 = view.total result.2.1
  reaches : result.1 = true → nTargetValue ≤ result.2.2
  close : result.1 = true → nTargetValue < result.2.2 → result.2.2 < nTargetValue + CENT →
    COutput.total view outputs < nTargetValue + CENT
  empty : result.1 = false → result.2.1 = []

theorem Selected.result [DecidableEq κ] {outputs : List (COutput κ)}
    {coins : List (ValuedCoin κ)} (selected : Selected view nTargetValue outputs coins)
    (spendable : SpendableCoins view outputs) :
    SelectionResult view nTargetValue outputs
      (true, (coins.map Prod.snd).reverse, (coins.map Prod.fst).sum) := by
  have values : ∀ coin ∈ coins, view.nValue coin.2.1 coin.2.2 = coin.1 := by
    intro coin member
    obtain ⟨output, _, rfl⟩ := List.mem_map.1 (selected.subperm.subset member)
    rfl
  have totalLe := selected.total_le spendable.positive
  have reaches := selected.reaches
  constructor
  · simp only [true_iff]
    omega
  · exact List.nodup_reverse.2 (selected.nodup spendable.distinct)
  · intro coin member
    obtain ⟨valued, valuedIn, rfl⟩ := List.mem_map.1 (List.mem_reverse.1 member)
    obtain ⟨output, outputIn, rfl⟩ := List.mem_map.1 (selected.subperm.subset valuedIn)
    exact ⟨output, outputIn, rfl⟩
  · simp only [CoinView.total, List.map_reverse, List.sum_reverse, List.map_map]
    exact congrArg List.sum (List.map_congr_left fun coin member => (values coin member).symm)
  · exact fun _ => reaches
  · exact fun _ => selected.close
  · simp

theorem SelectionResult.perm {outputs others : List (COutput κ)}
    {result : Bool × List (κ × Nat) × Int}
    (answer : SelectionResult view nTargetValue outputs result) (perm : outputs.Perm others) :
    SelectionResult view nTargetValue others result := by
  have sameTotal : COutput.total view outputs = COutput.total view others := (perm.map _).sum_eq
  constructor
  · rw [← sameTotal]
    exact answer.enough
  · exact answer.nodup
  · intro coin member
    obtain ⟨output, outputIn, eq⟩ := answer.subset coin member
    exact ⟨output, perm.mem_iff.1 outputIn, eq⟩
  · exact answer.total
  · exact answer.reaches
  · rw [← sameTotal]
    exact answer.close
  · exact answer.empty

/-- **Coin selection.**  `SelectCoinsMinConf` succeeds just when the coins that meet the policy
reach the target.  It then returns some of them with their total, which reaches the target, and
passes it by less than a cent only where all of them together do. -/
theorem selectCoinsMinConf_result [DecidableEq κ] (choices : SelectionChoices κ)
    {vCoins : List (COutput κ)} (spendable : SpendableCoins view vCoins)
    (targetFits : InInt64 (nTargetValue + CENT)) :
    ∃ result, selectCoinsMinConf view choices nTargetValue nConfMine nConfTheirs vCoins =
        some result ∧
      SelectionResult view nTargetValue
        (vCoins.filter (COutput.eligible view nConfMine nConfTheirs)) result := by
  have cent : CENT = 1000000 := rfl
  let shuffled := choices.randomShuffle vCoins
  let outputs := shuffled.filter (COutput.eligible view nConfMine nConfTheirs)
  have shuffledCoins : SpendableCoins view shuffled :=
    spendable.of_subperm (choices.shuffle_perm vCoins).subperm
  have coins : SpendableCoins view outputs :=
    shuffledCoins.of_subperm List.filter_sublist.subperm
  have perm : outputs.Perm (vCoins.filter (COutput.eligible view nConfMine nConfTheirs)) :=
    (choices.shuffle_perm vCoins).filter _
  -- whatever is selected is returned
  have returned : ∀ {selection : List (ValuedCoin κ)},
      Selected view nTargetValue outputs selection →
      ∃ result, (do
          let returned ← returnCoins selection [] 0
          pure (true, returned.1, returned.2)) = some result ∧
        SelectionResult view nTargetValue
          (vCoins.filter (COutput.eligible view nConfMine nConfTheirs)) result := by
    intro selection selected
    rw [selected.returnCoins_eq coins.distinct coins.positive coins.bounded]
    exact ⟨_, rfl, (selected.result coins).perm perm⟩
  have start : CandidateCoins.Found view nTargetValue []
      { coinLowestLarger := (2 ^ 63 - 1, none), vValue := [], nTotalLower := 0 } :=
    ⟨by simp, by simp, Or.inl ⟨rfl, by simp⟩⟩
  obtain ⟨sorting, run, sound⟩ := sortOut_spec start shuffledCoins.positive
    shuffledCoins.bounded targetFits
  unfold selectCoinsMinConf
  rw [run]
  simp only [Option.bind_eq_bind, Option.bind_some]
  cases sorting with
  | exact coin =>
      obtain ⟨output, member, value, rfl⟩ := sound
      exact returned (Selected.single member (Or.inl value))
  | candidates found =>
      have known : found.Found view nTargetValue outputs := sound
      simp only
      split
      · case isTrue same =>
          apply returned
          have whole := Marked.picked_replicate_true found.vValue
          rw [← whole]
          apply known.selected_picked (List.Perm.refl _) (by rw [whole, known.total]) same.ge
          omega
      · case isFalse different =>
          split
          · case isTrue below =>
              cases larger : found.coinLowestLarger.2 with
              | none =>
                  have whole := known.nTotalLower_eq_total larger
                  have missing : SelectionResult view nTargetValue outputs (false, [], 0) := by
                    constructor
                    · simp only [Bool.false_eq_true, false_iff]
                      omega
                    all_goals simp [CoinView.total]
                  exact ⟨_, rfl, missing.perm perm⟩
              | some coin => exact returned (known.selected_larger larger)
          · case isFalse above =>
              obtain ⟨selection, chosen, selected⟩ := chooseCoins_spec choices known
                coins.positive coins.bounded targetFits (by omega)
              rw [chosen]
              exact returned selected

theorem selectCoinsMinConf_selects [DecidableEq κ] (view : CoinView κ)
    (choices : SelectionChoices κ) (nTargetValue nConfMine nConfTheirs : Int)
    (vCoins : List (COutput κ)) (distinct : (vCoins.map COutput.coin).Nodup)
    (positive : ∀ output ∈ vCoins, 0 < output.value view)
    (bounded : COutput.total view vCoins < 2 ^ 63 - CENT) (targetPositive : 0 < nTargetValue)
    (targetBounded : nTargetValue < 2 ^ 63 - CENT) :
    ∃ fSelected setCoinsRet nValueRet,
      selectCoinsMinConf view choices nTargetValue nConfMine nConfTheirs vCoins =
        some (fSelected, setCoinsRet, nValueRet) ∧
      (fSelected = true ↔ nTargetValue ≤
        COutput.total view (vCoins.filter (COutput.eligible view nConfMine nConfTheirs))) ∧
      (fSelected = true → setCoinsRet.Nodup ∧
        (∀ coin ∈ setCoinsRet, ∃ output ∈
          vCoins.filter (COutput.eligible view nConfMine nConfTheirs), output.coin = coin) ∧
        nValueRet = view.total setCoinsRet ∧ nTargetValue ≤ nValueRet ∧
        (nTargetValue < nValueRet → nValueRet < nTargetValue + CENT →
          COutput.total view (vCoins.filter (COutput.eligible view nConfMine nConfTheirs)) <
            nTargetValue + CENT)) ∧
      (fSelected = false → setCoinsRet = []) := by
  have cent : CENT = 1000000 := rfl
  obtain ⟨⟨fSelected, setCoinsRet, nValueRet⟩, run, answer⟩ :=
    @selectCoinsMinConf_result κ view nTargetValue nConfMine nConfTheirs _ choices vCoins
      ⟨distinct, positive, bounded⟩ ⟨by omega, by omega⟩
  refine ⟨fSelected, setCoinsRet, nValueRet, run, answer.enough, ?_, answer.empty⟩
  intro selected
  exact ⟨answer.nodup, answer.subset, answer.total, answer.reaches selected,
    answer.close selected⟩

end

/-- A shuffle that leaves the coins where they are, and bits that count. -/
def plainChoices (κ : Type) : SelectionChoices κ where
  randomShuffle := id
  shuffle_perm _ := List.Perm.refl _
  sortDescending vValue := vValue.insertionSort fun a b => b.1 ≤ a.1
  sort_perm vValue := List.perm_insertionSort _ vValue
  sort_ordered vValue := by
    have total : Std.Total fun a b : ValuedCoin κ => b.1 ≤ a.1 := ⟨fun a b => Int.le_total _ _⟩
    have trans : IsTrans (ValuedCoin κ) fun a b => b.1 ≤ a.1 :=
      ⟨fun a b c first second => Int.le_trans second first⟩
    exact List.pairwise_insertionSort _ vValue
  insecureRand _ nRep i := nRep.testBit i

/-- Coins of a transaction from elsewhere: five may be spent, and one of them has too few
confirmations. -/
def plainCoins : List (COutput Unit) :=
  [⟨(), 300000, 6, true⟩, ⟨(), 600000, 6, true⟩, ⟨(), 500000, 5, true⟩, ⟨(), 2500000, 6, true⟩,
    ⟨(), 400000, 6, true⟩, ⟨(), 100000, 6, false⟩]

def plainView : CoinView Unit := ⟨fun _ i => i, fun _ => false⟩

/-- The subset search finds the two coins that make up the target. -/
theorem selectCoinsMinConf_selects_plainCoins :
    ∃ setCoinsRet nValueRet,
      selectCoinsMinConf plainView (plainChoices Unit) 700000 1 6 plainCoins =
        some (true, setCoinsRet, nValueRet) ∧
      setCoinsRet = [((), 300000), ((), 400000)] ∧ setCoinsRet.Nodup ∧
      nValueRet = plainView.total setCoinsRet ∧ 700000 ≤ nValueRet := by
  have search : selectCoinsMinConf plainView (plainChoices Unit) 700000 1 6 plainCoins =
      some (true, [((), 300000), ((), 400000)], 700000) := by decide
  obtain ⟨fSelected, setCoinsRet, nValueRet, run, _, selects, _⟩ :=
    selectCoinsMinConf_selects plainView (plainChoices Unit) 700000 1 6 plainCoins (by decide)
      (by decide) (by decide) (by decide) (by decide)
  cases search.symm.trans run
  obtain ⟨nodup, _, total, reaches, _⟩ := selects rfl
  exact ⟨_, _, search, rfl, nodup, total, reaches⟩

/-- With a target near the end of the range the comparison with the target and a cent overflows. -/
theorem selectCoinsMinConf_overflows :
    (plainCoins.map COutput.coin).Nodup ∧ (∀ output ∈ plainCoins, 0 < output.value plainView) ∧
      COutput.total plainView plainCoins < 2 ^ 63 - CENT ∧ (0 : Int) < 2 ^ 63 - 1 ∧
      selectCoinsMinConf plainView (plainChoices Unit) (2 ^ 63 - 1) 1 6 plainCoins = none := by
  decide

end Lycancoin
