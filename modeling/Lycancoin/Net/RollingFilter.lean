import Lycancoin.Data.Bloom
import Lycancoin.Net.BloomRun

namespace Lycancoin

open Lycancoin.Data

/-- The filters of a rolling filter: their size and the number of hash functions are computed with
floating point numbers. -/
def CBloomFilter.unused (size : Nat) (nHashFuncs nTweak : UInt32) : CBloomFilter :=
  { vData := List.replicate size 0, isFull := false, isEmpty := true, nHashFuncs, nTweak, nFlags := 0 }

structure CRollingBloomFilter where
  nBloomSize : UInt32
  nInsertions : UInt32
  b1 : CBloomFilter
  b2 : CBloomFilter
deriving DecidableEq, Repr

namespace CRollingBloomFilter

def create (nElements : UInt32) (size : Nat) (nHashFuncs nTweak : UInt32) : CRollingBloomFilter where
  nBloomSize := nElements * 2
  nInsertions := 0
  b1 := CBloomFilter.unused size nHashFuncs nTweak
  b2 := CBloomFilter.unused size nHashFuncs nTweak

def clearTurn (filter : CRollingBloomFilter) : CRollingBloomFilter :=
  if filter.nInsertions = 0 then { filter with b1 := filter.b1.clear }
  else if filter.nInsertions = filter.nBloomSize / 2 then { filter with b2 := filter.b2.clear }
  else filter

def insert (vKey : List UInt8) (filter : CRollingBloomFilter) : Option CRollingBloomFilter := do
  let b1 ← filter.clearTurn.b1.insert vKey
  let b2 ← filter.clearTurn.b2.insert vKey
  let nInsertions := filter.nInsertions + 1
  pure { filter with
    b1
    b2
    nInsertions := if nInsertions = filter.nBloomSize then 0 else nInsertions }

def contains (filter : CRollingBloomFilter) (vKey : List UInt8) : Option Bool :=
  if filter.nInsertions < filter.nBloomSize / 2 then filter.b2.contains vKey
  else filter.b1.contains vKey

def clear (filter : CRollingBloomFilter) : CRollingBloomFilter :=
  { filter with b1 := filter.b1.clear, b2 := filter.b2.clear, nInsertions := 0 }

end CRollingBloomFilter

/-! ## What one filter stands for -/

namespace CBloomFilter

variable {initial filter : CBloomFilter} {keys : List (List UInt8)}

structure Represents (initial filter : CBloomFilter) (keys : List (List UInt8)) : Prop where
  isFull : filter.isFull = false
  isEmpty : filter.isEmpty = keys.isEmpty
  length : filter.vData.length = initial.vData.length
  nHashFuncs : filter.nHashFuncs = initial.nHashFuncs
  nTweak : filter.nTweak = initial.nTweak
  bits : Bloom.bits filter.vData = Bloom.marksOf initial.places keys

theorem Represents.places (represents : Represents initial filter keys) :
    filter.places = initial.places := by
  funext vKey
  have same : filter.place vKey = initial.place vKey := by
    funext i
    simp only [place, represents.length, represents.nTweak]
  rw [CBloomFilter.places, same, represents.nHashFuncs, CBloomFilter.places]

theorem Represents.bytes (represents : Represents initial filter keys)
    (bytes : initial.vData ≠ []) : filter.vData ≠ [] := by
  rw [← List.length_pos_iff, represents.length, List.length_pos_iff]
  exact bytes

theorem bits_replicate (size : Nat) : Bloom.bits (List.replicate size 0) = ∅ :=
  Bloom.bits_of_zero fun _ member => List.eq_of_mem_replicate member

theorem represents_unused (size : Nat) (nHashFuncs nTweak : UInt32) :
    Represents (unused size nHashFuncs nTweak) (unused size nHashFuncs nTweak) [] :=
  ⟨rfl, rfl, rfl, rfl, rfl, by rw [Bloom.marksOf_nil]; exact bits_replicate size⟩

theorem Represents.clear (represents : Represents initial filter keys) :
    Represents initial filter.clear [] where
  isFull := rfl
  isEmpty := rfl
  length := by
    rw [← represents.length]
    exact List.length_replicate
  nHashFuncs := represents.nHashFuncs
  nTweak := represents.nTweak
  bits := by
    rw [Bloom.marksOf_nil]
    exact bits_replicate _

theorem Represents.insert (represents : Represents initial filter keys)
    (bytes : initial.vData ≠ []) (vKey : List UInt8) :
    ∃ after, filter.insert vKey = some after ∧ Represents initial after (keys ++ [vKey]) := by
  obtain ⟨vData, run, length, bits⟩ :=
    insertLoop_spec (represents.bytes bytes) vKey (List.range filter.nHashFuncs.toNat)
  refine ⟨{ filter with vData, isEmpty := false }, ?_, ?_⟩
  · simp only [CBloomFilter.insert, represents.isFull, Bool.false_eq_true, ↓reduceIte, run,
      Option.bind_eq_bind, Option.bind_some]
    rfl
  · constructor
    · exact represents.isFull
    · simp
    · exact length.trans represents.length
    · exact represents.nHashFuncs
    · exact represents.nTweak
    · rw [Bloom.marksOf_concat, ← represents.bits, ← represents.places]
      exact bits

theorem Represents.contains (represents : Represents initial filter keys)
    (bytes : initial.vData ≠ []) (vKey : List UInt8) :
    ∃ answer, filter.contains vKey = some answer ∧ (answer = true ↔
      keys ≠ [] ∧ Bloom.Member initial.places (Bloom.marksOf initial.places keys) vKey) := by
  have sound : filter.Sound := fun nothing => absurd nothing (represents.bytes bytes)
  obtain ⟨answer, run, exact⟩ := contains_spec sound vKey
  refine ⟨answer, run, ?_⟩
  rw [exact, Holds, represents.isFull, represents.isEmpty, represents.places, represents.bits]
  simp

end CBloomFilter

/-! ## Runs -/

inductive RollingCall where
  | insert (vKey : List UInt8)
  | clear
deriving DecidableEq, Repr

namespace RollingCall

def step (filter : CRollingBloomFilter) : RollingCall → Option CRollingBloomFilter
  | .insert vKey => filter.insert vKey
  | .clear => some filter.clear

def run (calls : List RollingCall) (filter : CRollingBloomFilter) : Option CRollingBloomFilter :=
  calls.foldlM step filter

def sinceClearStep (keys : List (List UInt8)) : RollingCall → List (List UInt8)
  | .insert vKey => keys ++ [vKey]
  | .clear => []

def sinceClear (calls : List RollingCall) : List (List UInt8) := calls.foldl sinceClearStep []

end RollingCall

namespace CRollingBloomFilter

/-- After so many insertions the first filter is emptied again; the counter may have to overflow. -/
def period (nElements : UInt32) : Nat := if nElements * 2 = 0 then 2 ^ 32 else (nElements * 2).toNat

def half (nElements : UInt32) : Nat := (nElements * 2).toNat / 2

variable {nElements : UInt32} {initial : CBloomFilter} {filter : CRollingBloomFilter}
  {window : RollingWindow (List UInt8)}

structure Stands (nElements : UInt32) (initial : CBloomFilter) (filter : CRollingBloomFilter)
    (window : RollingWindow (List UInt8)) : Prop where
  nBloomSize : filter.nBloomSize = nElements * 2
  nInsertions : filter.nInsertions.toNat = window.count
  short : window.count < period nElements
  first : CBloomFilter.Represents initial filter.b1 window.first
  second : CBloomFilter.Represents initial filter.b2 window.second

theorem half_eq : (nElements * 2 / 2).toNat = half nElements := by
  rw [UInt32.toNat_div]
  rfl

theorem Stands.clearTurn (stands : Stands nElements initial filter window) :
    CBloomFilter.Represents initial filter.clearTurn.b1
        (if window.count = 0 then [] else window.first) ∧
      CBloomFilter.Represents initial filter.clearTurn.b2
        (if window.count ≠ 0 ∧ window.count = half nElements then [] else window.second) := by
  have zero : filter.nInsertions = 0 ↔ window.count = 0 := by
    rw [← stands.nInsertions, ← UInt32.toNat_inj]
    rfl
  have atHalf : filter.nInsertions = filter.nBloomSize / 2 ↔ window.count = half nElements := by
    rw [← stands.nInsertions, ← UInt32.toNat_inj, stands.nBloomSize, half_eq]
  simp only [CRollingBloomFilter.clearTurn, zero, atHalf]
  by_cases begins : window.count = 0
  · simp only [begins, ↓reduceIte, ne_eq, not_true_eq_false, false_and]
    exact ⟨stands.first.clear, stands.second⟩
  · by_cases middle : window.count = half nElements
    · rw [if_neg begins, if_pos middle, if_neg begins, if_pos ⟨begins, middle⟩]
      exact ⟨stands.first, stands.second.clear⟩
    · rw [if_neg begins, if_neg middle, if_neg begins, if_neg fun both => middle both.2]
      exact ⟨stands.first, stands.second⟩

theorem Stands.insert (stands : Stands nElements initial filter window)
    (bytes : initial.vData ≠ []) (vKey : List UInt8) :
    ∃ after, filter.insert vKey = some after ∧
      Stands nElements initial after (window.push (period nElements) (half nElements) vKey) := by
  obtain ⟨first, second⟩ := stands.clearTurn
  obtain ⟨b1, run, first⟩ := first.insert bytes vKey
  obtain ⟨b2, run', second⟩ := second.insert bytes vKey
  have short := stands.short
  have bound := filter.nInsertions.toNat_lt
  have count := stands.nInsertions
  have next : (filter.nInsertions + 1).toNat = (window.count + 1) % 2 ^ 32 := by
    rw [UInt32.toNat_add, count]
    rfl
  have ends : filter.nInsertions + 1 = filter.nBloomSize ↔ window.count + 1 = period nElements := by
    rw [← UInt32.toNat_inj, next, stands.nBloomSize]
    unfold period at short ⊢
    split at short
    · rename_i wraps
      rw [if_pos wraps, wraps]
      change (window.count + 1) % 2 ^ 32 = 0 ↔ _
      omega
    · rename_i fits
      rw [if_neg fits]
      have size := (nElements * 2).toNat_lt
      omega
  have result : filter.insert vKey = some { filter with
      b1
      b2
      nInsertions := if filter.nInsertions + 1 = filter.nBloomSize then 0
        else filter.nInsertions + 1 } := by
    simp only [CRollingBloomFilter.insert, run, run', Option.bind_eq_bind, Option.bind_some]
    rfl
  refine ⟨_, result, stands.nBloomSize, ?_, ?_, first, second⟩
  · simp only [RollingWindow.push, ends]
    split
    · rfl
    · rename_i more
      rw [next]
      have small : period nElements ≤ 2 ^ 32 := by
        unfold period
        split
        · exact Nat.le_refl _
        · exact Nat.le_of_lt (nElements * 2).toNat_lt
      omega
  · simp only [RollingWindow.push]
    split <;> omega

theorem stands_create (nElements : UInt32) (size : Nat) (nHashFuncs nTweak : UInt32) :
    Stands nElements (CBloomFilter.unused size nHashFuncs nTweak)
      (create nElements size nHashFuncs nTweak) RollingWindow.start where
  nBloomSize := rfl
  nInsertions := rfl
  short := by
    change 0 < period nElements
    unfold period
    split
    · decide
    · rename_i several
      rw [Nat.pos_iff_ne_zero]
      exact fun zero => several (UInt32.toNat_inj.mp zero)
  first := CBloomFilter.represents_unused size nHashFuncs nTweak
  second := CBloomFilter.represents_unused size nHashFuncs nTweak

theorem Stands.clear (stands : Stands nElements initial filter window) :
    Stands nElements initial filter.clear RollingWindow.start where
  nBloomSize := stands.nBloomSize
  nInsertions := rfl
  short := Nat.lt_of_le_of_lt (Nat.zero_le _) stands.short
  first := stands.first.clear
  second := stands.second.clear

theorem Stands.contains (stands : Stands nElements initial filter window)
    (bytes : initial.vData ≠ []) (vKey : List UInt8) :
    ∃ answer, filter.contains vKey = some answer ∧
      (answer = true ↔ window.visible (half nElements) ≠ [] ∧ Bloom.Member initial.places
        (Bloom.marksOf initial.places (window.visible (half nElements))) vKey) := by
  have early : filter.nInsertions < filter.nBloomSize / 2 ↔ window.count < half nElements := by
    rw [UInt32.lt_iff_toNat_lt, stands.nInsertions, stands.nBloomSize, half_eq]
  simp only [CRollingBloomFilter.contains, early, RollingWindow.visible]
  split
  · exact stands.second.contains bytes vKey
  · exact stands.first.contains bytes vKey

open RollingCall

theorem run_stands (bytes : initial.vData ≠ []) {items : List (List UInt8)}
    (stands : Stands nElements initial filter
      (RollingWindow.start.pushAll (period nElements) (half nElements) items))
    (calls : List RollingCall) :
    ∃ after, run calls filter = some after ∧
      Stands nElements initial after (RollingWindow.start.pushAll (period nElements) (half nElements)
        (calls.foldl sinceClearStep items)) := by
  induction calls generalizing filter items with
  | nil => exact ⟨filter, rfl, stands⟩
  | cons call rest ih =>
      have next : ∃ next, step filter call = some next ∧ Stands nElements initial next
          (RollingWindow.start.pushAll (period nElements) (half nElements)
            (sinceClearStep items call)) := by
        cases call with
        | insert vKey =>
            obtain ⟨next, first, stands⟩ := stands.insert bytes vKey
            refine ⟨next, first, ?_⟩
            rw [sinceClearStep, RollingWindow.pushAll, List.foldl_append]
            exact stands
        | clear => exact ⟨filter.clear, rfl, stands.clear⟩
      obtain ⟨next, first, stands⟩ := next
      obtain ⟨after, later, stands⟩ := ih stands
      exact ⟨after, by simpa [run, first] using later, stands⟩

/-! ## The last keys -/

theorem sinceClear_insert (items : List (List UInt8)) :
    sinceClear (items.map .insert) = items := by
  have appended : ∀ keys, (items.map RollingCall.insert).foldl sinceClearStep keys = keys ++ items := by
    induction items with
    | nil => simp
    | cons item rest ih => simp [sinceClearStep, ih]
  exact appended []

/-- Below the overflow the period is twice the number of elements. -/
theorem period_eq (positive : 1 ≤ nElements) (small : nElements < 0x80000000) :
    half nElements = nElements.toNat ∧ period nElements = 2 * nElements.toNat := by
  have some : 1 ≤ nElements.toNat := UInt32.le_iff_toNat_le.mp positive
  have bound : nElements.toNat < 2 ^ 31 := UInt32.lt_iff_toNat_lt.mp small
  have double : (nElements * 2).toNat = nElements.toNat * 2 := by
    rw [UInt32.toNat_mul]
    exact Nat.mod_eq_of_lt (show nElements.toNat * 2 < 2 ^ 32 by omega)
  constructor
  · rw [half, double]
    omega
  · unfold period
    split
    · rename_i zero
      rw [zero] at double
      change 0 = nElements.toNat * 2 at double
      omega
    · rw [double]
      omega

/-- From the overflow on there are keys that come last, and that the filter to ask does not hold. -/
theorem exists_forgotten (large : ¬ nElements < 0x80000000) (x y : List UInt8) :
    ∃ items, x ∈ items.drop (items.length - nElements.toNat) ∧
      ∀ key ∈ (RollingWindow.start.pushAll (period nElements) (half nElements) items).visible
        (half nElements), key = y := by
  have bound := nElements.toNat_lt
  have atLeast : 2 ^ 31 ≤ nElements.toNat := by
    rw [UInt32.lt_iff_toNat_lt] at large
    exact Nat.not_lt.mp large
  obtain ⟨k, split⟩ := Nat.exists_eq_add_of_le atLeast
  have double : (nElements * 2).toNat = 2 * k := by
    rw [UInt32.toNat_mul, split]
    change (2 ^ 31 + k) * 2 % 2 ^ 32 = 2 * k
    omega
  have halfEq : half nElements = k := by
    rw [half, double]
    omega
  have zero : nElements * 2 = 0 ↔ k = 0 := by
    rw [← UInt32.toNat_inj, double]
    change 2 * k = 0 ↔ k = 0
    omega
  rw [halfEq, split]
  by_cases none : k = 0
  · have periodEq : period nElements = 2 ^ 32 := by rw [period, if_pos (zero.mpr none)]
    rw [none, periodEq]
    obtain ⟨ys, length⟩ : ∃ ys : List (List UInt8), ys.length + 1 = 2 ^ 32 :=
      ⟨List.replicate (2 ^ 32 - 1) y, by rw [List.length_replicate, Nat.sub_add_cancel (by omega)]⟩
    have full : (ys ++ [x]).length = 2 ^ 32 := by
      rw [List.length_append, List.length_singleton, length]
    refine ⟨(ys ++ [x]) ++ [y], ?_, ?_⟩
    · rw [List.append_assoc, List.drop_append_of_le_length]
      · simp
      · simp only [List.length_append, List.length_singleton]
        omega
    · rw [RollingWindow.visible_of_half_zero full]
      simp
  · have periodEq : period nElements = 2 * k := by
      rw [period, if_neg fun wraps => none (zero.mp wraps), double]
    have size : (x :: List.replicate (2 * k - 1) y).length = 2 * k := by
      rw [List.length_cons, List.length_replicate]
      omega
    refine ⟨x :: List.replicate (2 * k - 1) y, ?_, ?_⟩
    · rw [size]
      have within : 2 * k - (2 ^ 31 + k) = 0 := by omega
      rw [within]
      exact List.mem_cons_self
    · rw [periodEq, RollingWindow.visible_of_period size none (by omega)]
      obtain ⟨j, rfl⟩ := Nat.exists_eq_succ_of_ne_zero none
      intro key member
      rw [List.drop_succ_cons] at member
      exact List.eq_of_mem_replicate (List.mem_of_mem_drop member)

end CRollingBloomFilter

/-- No two keys can be told apart. -/
def CBloomFilter.Coarse (filter : CBloomFilter) : Prop :=
  ∀ x y, ∀ place ∈ filter.places x, place ∈ filter.places y

open RollingCall CRollingBloomFilter

/-- A rolling filter knows its last keys, where twice their number does not overflow, or its hash
functions tell no keys apart. -/
theorem rollingBloomFilter_exact {nElements : UInt32} (positive : 1 ≤ nElements) {size : Nat}
    (bytes : 1 ≤ size) (nHashFuncs nTweak : UInt32) :
    (∀ calls, ∃ filter, run calls (create nElements size nHashFuncs nTweak) = some filter ∧
      ∀ x ∈ (sinceClear calls).drop ((sinceClear calls).length - nElements.toNat),
        filter.contains x = some true) ↔
    nElements < 0x80000000 ∨ (CBloomFilter.unused size nHashFuncs nTweak).Coarse := by
  have nonempty : (CBloomFilter.unused size nHashFuncs nTweak).vData ≠ [] := by
    rw [← List.length_pos_iff]
    change 0 < (List.replicate size (0 : UInt8)).length
    rw [List.length_replicate]
    exact bytes
  have reach := @run_stands _ _ _ nonempty [] (stands_create nElements size nHashFuncs nTweak)
  constructor
  · intro remembers
    by_cases small : nElements < 0x80000000
    · exact Or.inl small
    · refine Or.inr ?_
      intro x y
      obtain ⟨items, recent, forgotten⟩ := exists_forgotten small x y
      obtain ⟨filter, run, contained⟩ := remembers (items.map .insert)
      obtain ⟨after, run', stands⟩ := reach (items.map .insert)
      rw [run] at run'
      cases run'
      change Stands _ _ _ (RollingWindow.start.pushAll _ _ (sinceClear (items.map .insert))) at stands
      rw [sinceClear_insert] at stands contained
      obtain ⟨answer, asked, exact⟩ := stands.contains nonempty x
      rw [contained x recent] at asked
      cases asked
      exact Bloom.member_marksOf_of_forall_eq forgotten (exact.mp rfl).2
  · intro condition calls
    obtain ⟨filter, run, stands⟩ := reach calls
    refine ⟨filter, run, ?_⟩
    intro x recent
    change Stands _ _ _ (RollingWindow.start.pushAll _ _ (sinceClear calls)) at stands
    obtain ⟨answer, asked, exact⟩ := stands.contains nonempty x
    rw [asked, Option.some.injEq, exact]
    cases condition with
    | inl small =>
        obtain ⟨halfEq, periodEq⟩ := period_eq positive small
        rw [halfEq, periodEq]
        have held := RollingWindow.mem_visible (UInt32.le_iff_toNat_le.mp positive) recent
        exact ⟨List.ne_nil_of_mem held, Bloom.member_marksOf held⟩
    | inr coarse =>
        have visible := @RollingWindow.visible_pushAll_ne_nil _ (period nElements)
          (half nElements) _ (List.ne_nil_of_mem (List.mem_of_mem_drop recent))
        obtain ⟨y, isKey⟩ := List.exists_mem_of_ne_nil _ visible
        exact ⟨visible, fun place isPlace => ⟨y, isKey, coarse x y place isPlace⟩⟩

/-- The known addresses of a peer. -/
theorem rollingBloomFilter_exact_addrKnown :
    ∃ filter, run [.insert [1], .clear, .insert [2]] (create 5000 17971 9 7) = some filter ∧
      filter.contains [2] = some true := by
  have remembers := (@rollingBloomFilter_exact 5000 (by decide) 17971 (by decide) 9 7).mpr
    (Or.inl (by decide))
  obtain ⟨filter, made, recent⟩ := remembers [.insert [1], .clear, .insert [2]]
  exact ⟨filter, made, recent [2] (by simp [sinceClear, sinceClearStep])⟩

/-- Twice the number of elements is 2, so that the second key empties the filter that is asked. -/
theorem rolling_overflow :
    ∃ filter, run [.insert [1], .insert [2]] (create 0x80000001 4 11 0) = some filter ∧
      [1] ∈ (sinceClear [.insert [1], .insert [2]]).drop (2 - (0x80000001 : UInt32).toNat) ∧
      filter.contains [1] = some false := by
  have forgotten : (run [.insert [1], .insert [2]] (create 0x80000001 4 11 0)).any
      (fun filter => filter.contains [1] == some false) = true := by
    decide
  obtain ⟨filter, made, answer⟩ := (Option.any_eq_true _ _).mp forgotten
  refine ⟨filter, made, by simp [sinceClear, sinceClearStep], by simpa using answer⟩

end Lycancoin
