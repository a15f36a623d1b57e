import Lycancoin.Data.Latest
import Lycancoin.Net.AddrMan
import Lycancoin.Primitives.Amount

namespace Lycancoin

open Lycancoin.Data

/-- `CMedianFilter` over `int64_t`. -/
structure CMedianFilter where
  vValues : List Int
  vSorted : List Int
  nSize : Nat

namespace CMedianFilter

def new (size : Nat) (initial_value : Int) : CMedianFilter where
  vValues := [initial_value]
  vSorted := [initial_value]
  nSize := size

def input (filter : CMedianFilter) (value : Int) : CMedianFilter :=
  let vValues := pushLatest filter.nSize filter.vValues value
  { filter with vValues, vSorted := vValues.insertionSort (· ≤ ·) }

/-- `median`.  There is no result where the assertion fails or the sum does not fit. -/
def median (filter : CMedianFilter) : Option Int :=
  let size := filter.vSorted.length
  if size % 2 = 1 then filter.vSorted[size / 2]?
  else do
    let low ← filter.vSorted[size / 2 - 1]?
    let high ← filter.vSorted[size / 2]?
    let sum ← int64 (low + high)
    pure (sum.tdiv 2)

def size (filter : CMedianFilter) : Nat := filter.vValues.length

end CMedianFilter

/-- `abs64`.  The machine negates in two's complement, where the least value is its own
negation. -/
def abs64 (n : Int) : Int := if n ≥ 0 then n else Int.bmod (-n) (2 ^ 64)

/-- The variables of `timedata.cpp`, with the warning that is shown. -/
structure TimeData where
  setKnown : Finset CNetAddr
  vTimeOffsets : CMedianFilter
  nTimeOffset : Int
  fDone : Bool
  strMiscWarning : Option String

/-- One call of `AddTimeData`. -/
structure TimeSample where
  ip : CNetAddr
  nOffsetSample : Int
  fits : InInt64 nOffsetSample

namespace TimeData

def start : TimeData where
  setKnown := ∅
  vTimeOffsets := CMedianFilter.new 200 0
  nTimeOffset := 0
  fDone := false
  strMiscWarning := none

def clockWarning : String :=
  "Warning: Please check that your computer's date and time are correct! If your clock is wrong Bitcoin will not work properly."

/-- The warning that comes once where no sample is near. -/
def warn (vSorted : List Int) (data : TimeData) : TimeData :=
  if data.fDone then data
  else if vSorted.any fun nOffset => nOffset != 0 && decide (abs64 nOffset < 5 * 60) then data
  else { data with fDone := true, strMiscWarning := some clockWarning }

/-- The part of `AddTimeData` that follows a new sample. -/
def adjust (data : TimeData) : Option TimeData :=
  if data.vTimeOffsets.size ≥ 5 ∧ data.vTimeOffsets.size % 2 = 1 then
    data.vTimeOffsets.median.map fun nMedian =>
      if abs64 nMedian < 35 * 60 then { data with nTimeOffset := nMedian }
      else warn data.vTimeOffsets.vSorted { data with nTimeOffset := 0 }
  else some data

def addTimeData (data : TimeData) (sample : TimeSample) : Option TimeData :=
  if sample.ip ∈ data.setKnown then some data
  else
    adjust { data with
      setKnown := insert sample.ip data.setKnown
      vTimeOffsets := data.vTimeOffsets.input sample.nOffsetSample }

def getTimeOffset (data : TimeData) : Int := data.nTimeOffset

/-- Calls of `AddTimeData`, one after the other. -/
def run (samples : List TimeSample) : Option TimeData := samples.foldlM addTimeData start

/-! ## What the samples say -/

def heard (samples : List TimeSample) : List TimeSample :=
  samples.foldl (fun heard sample =>
    if sample.ip ∈ heard.map TimeSample.ip then heard else heard ++ [sample]) []

def kept (samples : List TimeSample) : List Int :=
  latest 200 (0 :: (heard samples).map TimeSample.nOffsetSample)

/-- The last call finds an odd number of samples, and at least five. -/
def Counted (samples : List TimeSample) : Prop :=
  ∃ before sample, samples = before ++ [sample] ∧ sample.ip ∉ before.map TimeSample.ip ∧
    5 ≤ (kept samples).length ∧ (kept samples).length % 2 = 1

def IsMedian (samples : List TimeSample) (median : Int) : Prop :=
  ((kept samples).insertionSort (· ≤ ·))[(kept samples).length / 2]? = some median

/-- The offset is 0, or the median that the last such call found. -/
def IsOffset (samples : List TimeSample) (offset : Int) : Prop :=
  offset = 0 ∨ ∃ last, last <+: samples ∧ Counted last ∧
    (∀ other, other <+: samples → Counted other → other.length ≤ last.length) ∧
    IsMedian last offset

structure Holds (samples : List TimeSample) (data : TimeData) : Prop where
  bounded : data.getTimeOffset.natAbs < 35 * 60
  offset : IsOffset samples data.getTimeOffset
  sorted : data.vTimeOffsets.vSorted.Pairwise (· ≤ ·)
  samples : data.vTimeOffsets.vSorted.Perm (kept samples)

structure Stands (samples : List TimeSample) (data : TimeData) : Prop where
  known : ∀ ip, ip ∈ data.setKnown ↔ ip ∈ samples.map TimeSample.ip
  values : data.vTimeOffsets.vValues = kept samples
  sorted : data.vTimeOffsets.vSorted = (kept samples).insertionSort (· ≤ ·)
  size : data.vTimeOffsets.nSize = 200

section Samples

variable {samples : List TimeSample} {sample : TimeSample} {data : TimeData}

theorem heard_concat (samples : List TimeSample) (sample : TimeSample) :
    heard (samples ++ [sample]) =
      if sample.ip ∈ (heard samples).map TimeSample.ip then heard samples
      else heard samples ++ [sample] := by
  rw [heard, List.foldl_concat]
  rfl

theorem mem_heard (samples : List TimeSample) (ip : CNetAddr) :
    ip ∈ (heard samples).map TimeSample.ip ↔ ip ∈ samples.map TimeSample.ip := by
  induction samples using List.reverseRecOn with
  | nil => rfl
  | append_singleton samples sample ih =>
      rw [heard_concat, List.map_append, List.mem_append, ← ih]
      by_cases again : sample.ip ∈ (heard samples).map TimeSample.ip
      · rw [if_pos again]
        simp only [List.map_cons, List.map_nil, List.mem_singleton]
        grind
      · rw [if_neg again, List.map_append, List.mem_append]

theorem kept_of_known (again : sample.ip ∈ samples.map TimeSample.ip) :
    kept (samples ++ [sample]) = kept samples := by
  rw [kept, heard_concat, if_pos ((mem_heard samples sample.ip).mpr again)]
  rfl

theorem kept_of_new (new : sample.ip ∉ samples.map TimeSample.ip) :
    kept (samples ++ [sample]) = pushLatest 200 (kept samples) sample.nOffsetSample := by
  rw [kept, heard_concat, if_neg (fun member => new ((mem_heard samples sample.ip).mp member)),
    kept, pushLatest_latest (by decide), List.map_append, List.cons_append]
  rfl

theorem least_le_kept : ∀ value ∈ kept samples, -2 ^ 63 ≤ value := by
  intro value member
  cases List.mem_of_mem_drop member with
  | head => decide
  | tail _ later =>
      obtain ⟨sample, -, rfl⟩ := List.mem_map.mp later
      exact sample.fits.1

theorem counted_concat_iff : Counted (samples ++ [sample]) ↔
    sample.ip ∉ samples.map TimeSample.ip ∧ 5 ≤ (kept (samples ++ [sample])).length ∧
      (kept (samples ++ [sample])).length % 2 = 1 := by
  constructor
  · intro ⟨before, last, split, new, odd⟩
    obtain ⟨rfl, same⟩ := List.append_inj' split rfl
    cases same
    exact ⟨new, odd⟩
  · intro ⟨new, odd⟩
    exact ⟨samples, sample, rfl, new, odd⟩

theorem exists_median (enough : 5 ≤ (kept samples).length) : ∃ median, IsMedian samples median := by
  refine ⟨_, List.getElem?_eq_getElem ?_⟩
  rw [List.length_insertionSort]
  omega

theorem Counted.median_eq_least_iff (counted : Counted samples) {median : Int}
    (isMedian : IsMedian samples median) :
    median = -2 ^ 63 ↔ (kept samples).length < 2 * (kept samples).count (-2 ^ 63) := by
  obtain ⟨_, _, _, _, _, odd⟩ := counted
  rw [← Data.median_eq_least_iff odd least_le_kept, isMedian, Option.some_inj]

theorem IsMedian.inInt64 {median : Int} (isMedian : IsMedian samples median) : InInt64 median := by
  have member := (List.mem_insertionSort (· ≤ ·)).mp (List.mem_of_getElem? isMedian)
  cases List.mem_of_mem_drop member with
  | head => decide
  | tail _ later =>
      obtain ⟨sample, -, rfl⟩ := List.mem_map.mp later
      exact sample.fits

theorem abs64_lt_iff {n : Int} (fits : InInt64 n) :
    abs64 n < 35 * 60 ↔ n.natAbs < 35 * 60 ∨ n = -2 ^ 63 := by
  obtain ⟨above, below⟩ := fits
  unfold abs64
  by_cases least : n = -2 ^ 63
  · rw [least]
    decide
  · split_ifs with nonneg
    · omega
    · rw [Int.bmod_eq_of_le (by omega) (by omega)]
      omega

/-- The variables that a call of `warn` leaves as they are. -/
theorem warn_spec (vSorted : List Int) (data : TimeData) :
    (warn vSorted data).setKnown = data.setKnown ∧
      (warn vSorted data).vTimeOffsets = data.vTimeOffsets ∧
      (warn vSorted data).nTimeOffset = data.nTimeOffset := by
  unfold warn
  split_ifs <;> exact ⟨rfl, rfl, rfl⟩

/-- The offset that a call with so many samples sets. -/
def allowed (median : Int) : Int := if abs64 median < 35 * 60 then median else 0

theorem abs64_allowed (median : Int) : abs64 (allowed median) < 35 * 60 := by
  unfold allowed
  split_ifs with small
  · exact small
  · decide

theorem Stands.adjust (stands : Stands samples data) :
    ∃ after, adjust data = some after ∧ Stands samples after ∧
      (5 ≤ (kept samples).length ∧ (kept samples).length % 2 = 1 →
        ∃ median, IsMedian samples median ∧ after.nTimeOffset = allowed median) ∧
      (¬(5 ≤ (kept samples).length ∧ (kept samples).length % 2 = 1) →
        after.nTimeOffset = data.nTimeOffset) := by
  have size : data.vTimeOffsets.size = (kept samples).length := by
    rw [CMedianFilter.size, stands.values]
  unfold TimeData.adjust
  rw [size]
  by_cases odd : 5 ≤ (kept samples).length ∧ (kept samples).length % 2 = 1
  · obtain ⟨median, isMedian⟩ := exists_median odd.1
    have found : data.vTimeOffsets.median = some median := by
      rw [CMedianFilter.median, stands.sorted]
      simp only [List.length_insertionSort]
      rw [if_pos odd.2]
      exact isMedian
    rw [if_pos odd, found, Option.map_some]
    by_cases small : abs64 median < 35 * 60
    · refine ⟨_, rfl, ?_, ?_, fun even => absurd odd even⟩
      · rw [if_pos small]
        exact ⟨stands.known, stands.values, stands.sorted, stands.size⟩
      · intro _
        refine ⟨median, isMedian, ?_⟩
        rw [if_pos small, allowed, if_pos small]
    · obtain ⟨known, filter, offset⟩ :=
        warn_spec data.vTimeOffsets.vSorted { data with nTimeOffset := 0 }
      refine ⟨_, rfl, ?_, ?_, fun even => absurd odd even⟩
      · rw [if_neg small]
        constructor
        · rw [known]
          exact stands.known
        · rw [filter]
          exact stands.values
        · rw [filter]
          exact stands.sorted
        · rw [filter]
          exact stands.size
      · intro _
        refine ⟨median, isMedian, ?_⟩
        rw [if_neg small, allowed, if_neg small, offset]
  · rw [if_neg odd]
    exact ⟨data, rfl, stands, fun contradicted => absurd contradicted odd, fun _ => rfl⟩

theorem Stands.addTimeData (stands : Stands samples data) (sample : TimeSample) :
    ∃ after, addTimeData data sample = some after ∧ Stands (samples ++ [sample]) after ∧
      (Counted (samples ++ [sample]) →
        ∃ median, IsMedian (samples ++ [sample]) median ∧ after.nTimeOffset = allowed median) ∧
      (¬Counted (samples ++ [sample]) → after.nTimeOffset = data.nTimeOffset) := by
  unfold TimeData.addTimeData
  by_cases again : sample.ip ∈ data.setKnown
  · have listed := (stands.known sample.ip).mp again
    rw [if_pos again]
    refine ⟨data, rfl, ⟨?_, ?_, ?_, stands.size⟩, ?_, fun _ => rfl⟩
    · intro ip
      rw [stands.known, List.map_append, List.mem_append]
      simp only [List.map_cons, List.map_nil, List.mem_singleton]
      constructor
      · exact Or.inl
      · intro either
        cases either with
        | inl old => exact old
        | inr same => exact same ▸ listed
    · rw [kept_of_known listed]
      exact stands.values
    · rw [kept_of_known listed]
      exact stands.sorted
    · intro counted
      exact absurd listed (counted_concat_iff.mp counted).1
  · have new := fun listed => again ((stands.known sample.ip).mpr listed)
    rw [if_neg again]
    have input : Stands (samples ++ [sample]) { data with
        setKnown := insert sample.ip data.setKnown
        vTimeOffsets := data.vTimeOffsets.input sample.nOffsetSample } := by
      constructor
      · intro ip
        rw [Finset.mem_insert, stands.known, List.map_append, List.mem_append]
        simp only [List.map_cons, List.map_nil, List.mem_singleton]
        exact or_comm
      · rw [kept_of_new new, CMedianFilter.input, stands.size, stands.values]
      · rw [kept_of_new new, CMedianFilter.input, stands.size, stands.values]
      · exact stands.size
    obtain ⟨after, run, stands, odd, even⟩ := input.adjust
    refine ⟨after, run, stands, ?_, ?_⟩
    · intro counted
      exact odd (counted_concat_iff.mp counted).2
    · intro uncounted
      exact even fun both => uncounted (counted_concat_iff.mpr ⟨new, both⟩)

theorem run_concat (samples : List TimeSample) (sample : TimeSample) :
    run (samples ++ [sample]) = (run samples).bind fun data => addTimeData data sample := by
  rw [run, List.foldlM_append]
  cases started : samples.foldlM TimeData.addTimeData start with
  | none => rw [run, started]; rfl
  | some data =>
      rw [run, started]
      simp

/-- The calls run through, and the offset is 0 or the last median that was found. -/
theorem run_spec (samples : List TimeSample) :
    ∃ data, run samples = some data ∧ Stands samples data ∧ IsOffset samples data.nTimeOffset ∧
      abs64 data.nTimeOffset < 35 * 60 ∧
      (Counted samples → ∃ median, IsMedian samples median ∧ data.nTimeOffset = allowed median) := by
  induction samples using List.reverseRecOn with
  | nil =>
      refine ⟨start, rfl, ⟨?_, rfl, rfl, rfl⟩, Or.inl rfl, by decide, ?_⟩
      · intro ip
        simp [start]
      · intro ⟨before, sample, split, _⟩
        simp at split
  | append_singleton samples sample ih =>
      obtain ⟨data, ran, stands, isOffset, small, -⟩ := ih
      obtain ⟨after, step, stands, odd, even⟩ := stands.addTimeData sample
      have ran' : run (samples ++ [sample]) = some after := by
        rw [run_concat, ran]
        exact step
      by_cases counted : Counted (samples ++ [sample])
      · obtain ⟨median, isMedian, offset⟩ := odd counted
        refine ⟨after, ran', stands, ?_, offset ▸ abs64_allowed median, odd⟩
        rw [offset, allowed]
        split_ifs
        · exact Or.inr ⟨_, List.prefix_refl _, counted, fun other part _ => part.length_le,
            isMedian⟩
        · exact Or.inl rfl
      · refine ⟨after, ran', stands, ?_, even counted ▸ small, odd⟩
        rw [even counted]
        cases isOffset with
        | inl zero => exact Or.inl zero
        | inr found =>
            obtain ⟨last, part, countedLast, latest, isMedian⟩ := found
            refine Or.inr ⟨last, part.trans (List.prefix_append _ _), countedLast, ?_, isMedian⟩
            intro other otherPart countedOther
            cases List.prefix_concat_iff.mp otherPart with
            | inl whole => exact absurd (whole ▸ countedOther) counted
            | inr early => exact latest other early countedOther

/-- The least value is never more than half of the samples at a call that sets the offset. -/
def Tame (samples : List TimeSample) : Prop :=
  ∀ done, done <+: samples → Counted done →
    2 * (kept done).count (-2 ^ 63) ≤ (kept done).length

theorem IsOffset.inInt64 {offset : Int} (isOffset : IsOffset samples offset) : InInt64 offset := by
  cases isOffset with
  | inl zero =>
      rw [zero]
      decide
  | inr found =>
      obtain ⟨_, _, _, _, isMedian⟩ := found
      exact isMedian.inInt64

theorem bounded_of_tame (tame : Tame samples) {offset : Int} (isOffset : IsOffset samples offset)
    (small : abs64 offset < 35 * 60) : offset.natAbs < 35 * 60 := by
  cases (abs64_lt_iff isOffset.inInt64).mp small with
  | inl bounded => exact bounded
  | inr least =>
      cases isOffset with
      | inl zero =>
          rw [zero]
          decide
      | inr found =>
          obtain ⟨last, part, counted, _, isMedian⟩ := found
          have most := (counted.median_eq_least_iff isMedian).mp least
          have half := tame last part counted
          omega

/-- The bound on the offset, and what it is the median of, hold after each call of a run just where
no call finds the least value in more than half of the samples. -/
theorem addTimeData_exact (samples : List TimeSample) :
    (∀ done, done <+: samples → ∃ data, run done = some data ∧ Holds done data) ↔
      Tame samples := by
  constructor
  · intro holds done part counted
    obtain ⟨data, ran, isHeld⟩ := holds done part
    obtain ⟨_, isRun, -, -, -, odd⟩ := run_spec done
    rw [ran] at isRun
    cases isRun
    obtain ⟨median, isMedian, offset⟩ := odd counted
    by_contra most
    have least := (counted.median_eq_least_iff isMedian).mpr (by omega)
    have bounded := isHeld.bounded
    rw [getTimeOffset, offset, least] at bounded
    exact absurd bounded (by decide)
  · intro tame done part
    obtain ⟨data, ran, stands, isOffset, small, -⟩ := run_spec done
    have tameDone : Tame done := fun other early => tame other (early.trans part)
    refine ⟨data, ran, bounded_of_tame tameDone isOffset small, isOffset, ?_, ?_⟩
    · rw [stands.sorted]
      exact List.pairwise_insertionSort (· ≤ ·) _
    · rw [stands.sorted]
      exact List.perm_insertionSort (· ≤ ·) _

end Samples

/-- Three of four peers send the least offset that there is. -/
theorem offset_of_extreme_samples :
    ∃ data, run [⟨⟨1⟩, -2 ^ 63, by decide⟩, ⟨⟨2⟩, -2 ^ 63, by decide⟩, ⟨⟨3⟩, -2 ^ 63, by decide⟩,
      ⟨⟨4⟩, 0, by decide⟩] = some data ∧ ¬ data.getTimeOffset.natAbs < 35 * 60 := by
  refine ⟨_, rfl, ?_⟩
  decide

end TimeData

end Lycancoin
