import Lycancoin.Data.StepRuns
import Lycancoin.Data.ValueIndex

namespace Lycancoin

open Lycancoin.Data

/-- `limitedmap`.  An iterator into `map` is its key; `rmap` is in ascending order. -/
structure LimitedMap (K V : Type) [Ord K] where
  map : Std.ExtTreeMap K V
  rmap : List (V × K)
  nMaxSize : Nat

inductive LimitedMapCall (K V : Type) where
  | insert (key : K) (value : V)
  | erase (key : K)
  | update (key : K) (value : V)
  | maxSize (s : Nat)

namespace LimitedMap

variable {K V : Type} [Ord K] [Std.TransOrd K] [Std.LawfulEqOrd K] [DecidableEq K] [LinearOrder V]

def new (nMaxSizeIn : Nat) : LimitedMap K V where
  map := ∅
  rmap := []
  nMaxSize := nMaxSizeIn

variable (limited : LimitedMap K V)

/-- `map.erase(rmap.begin()->second); rmap.erase(rmap.begin())`.  There is no result where `rmap`
is empty or its first iterator is not in the map. -/
def eraseFirst : Option (LimitedMap K V) :=
  match limited.rmap with
  | [] => none
  | (_, key) :: rest =>
      if key ∈ limited.map then
        some { limited with map := limited.map.erase key, rmap := rest }
      else none

/-- `insert`, where the room is made between the insertions into `map` and into `rmap`. -/
def insert (key : K) (value : V) : Option (LimitedMap K V) :=
  if key ∈ limited.map then some limited
  else do
    let inserted := { limited with map := limited.map.insert key value }
    let kept ← if inserted.nMaxSize ≠ 0 ∧ inserted.map.size = inserted.nMaxSize then
        inserted.eraseFirst
      else some inserted
    some { kept with rmap := ValueIndex.place kept.rmap (value, key) }

/-- The loop over `rmap.equal_range` finds the iterator. -/
def inRange (value : V) (key : K) : Bool :=
  (limited.rmap.filter fun entry => entry.1 = value).any fun entry => entry.2 = key

/-- `erase`.  There is no result where the assertion fails. -/
def erase (key : K) : Option (LimitedMap K V) :=
  match limited.map[key]? with
  | none => some limited
  | some value =>
      if limited.inRange value key then
        some { limited with
          rmap := limited.rmap.erase (value, key)
          map := limited.map.erase key }
      else none

/-- `update`.  There is no result where the assertion fails. -/
def update (key : K) (v : V) : Option (LimitedMap K V) :=
  match limited.map[key]? with
  | none => some limited
  | some value =>
      if limited.inRange value key then
        some { limited with
          rmap := ValueIndex.place (limited.rmap.erase (value, key)) (v, key)
          map := limited.map.insert key v }
      else none

/-- The loop of `max_size`, which goes on while there are more than so many. -/
def eraseDownTo (s : Nat) (map : Std.ExtTreeMap K V) :
    List (V × K) → Option (Std.ExtTreeMap K V × List (V × K))
  | [] => if map.size > s then none else some (map, [])
  | (value, key) :: rest =>
      if map.size > s then
        if key ∈ map then eraseDownTo s (map.erase key) rest else none
      else some (map, (value, key) :: rest)

def maxSize (s : Nat) : Option (LimitedMap K V) :=
  if s = 0 then some { limited with nMaxSize := s }
  else (eraseDownTo s limited.map limited.rmap).map fun (map, rmap) =>
    { map := map, rmap := rmap, nMaxSize := s }

def call : LimitedMapCall K V → Option (LimitedMap K V)
  | .insert key value => limited.insert key value
  | .erase key => limited.erase key
  | .update key value => limited.update key value
  | .maxSize s => limited.maxSize s

/-- `rmap` has one entry for each entry of `map`. -/
def Linked : Prop := ValueIndex.Indexes limited.map limited.rmap

/-- The map has just the highest of the entries that were inserted. -/
def HoldsHighest (count : Nat) (entries : List (V × K)) : Prop :=
  ∀ value key, limited.map[key]? = some value ↔ (value, key) ∈ ValueIndex.highest count entries

def insertions (entries : List (V × K)) : List (LimitedMapCall K V) :=
  entries.map fun entry => .insert entry.2 entry.1

/-- A new key does not go into an empty map of size one. -/
def Roomy (limited : LimitedMap K V) : LimitedMapCall K V → Prop
  | .insert _ _ => ¬(limited.nMaxSize = 1 ∧ limited.map.size = 0)
  | _ => True

section Steps

variable {limited : LimitedMap K V} {key : K} {value : V}

omit [Std.LawfulEqOrd K] in
theorem Linked.inRange (linked : limited.Linked) (present : limited.map[key]? = some value) :
    limited.inRange value key = true := by
  have member := (linked.entries value key).mpr present
  simp only [LimitedMap.inRange, List.any_eq_true, List.mem_filter, decide_eq_true_eq]
  exact ⟨(value, key), ⟨member, rfl⟩, rfl⟩

/-- Two iterators are never of one key, so an update is an erasure and an insertion. -/
theorem Linked.update (linked : limited.Linked) (key : K) (value : V) :
    ∃ next, limited.update key value = some next ∧ next.Linked := by
  unfold LimitedMap.update
  split
  · exact ⟨limited, rfl, linked⟩
  · rename_i old present
    rw [if_pos (linked.inRange present)]
    have gone : (limited.map.erase key)[key]? = none := by
      rw [KeyedBatch.getElem?_erase_eq, if_pos rfl]
    have placed := (linked.erase present).insert gone value
    have same : (limited.map.erase key).insert key value = limited.map.insert key value := by
      apply Std.ExtTreeMap.ext_getElem?
      intro place
      simp only [KeyedBatch.getElem?_insert_eq, KeyedBatch.getElem?_erase_eq]
      split_ifs <;> rfl
    rw [same] at placed
    exact ⟨_, rfl, placed⟩

theorem Linked.erase (linked : limited.Linked) (key : K) :
    ∃ next, limited.erase key = some next ∧ next.Linked := by
  unfold LimitedMap.erase
  split
  · exact ⟨limited, rfl, linked⟩
  · rename_i value present
    rw [if_pos (linked.inRange present)]
    exact ⟨_, rfl, ValueIndex.Indexes.erase linked present⟩

theorem eraseDownTo_spec (s : Nat) {map : Std.ExtTreeMap K V} {rmap : List (V × K)}
    (indexes : ValueIndex.Indexes map rmap) :
    ∃ mapLeft rmapLeft, eraseDownTo s map rmap = some (mapLeft, rmapLeft) ∧
      ValueIndex.Indexes mapLeft rmapLeft := by
  induction rmap generalizing map with
  | nil =>
      have none : ¬map.size > s := by
        rw [← indexes.length_eq]
        exact Nat.not_lt_zero s
      exact ⟨map, [], by rw [eraseDownTo, if_neg none], indexes⟩
  | cons first rest ih =>
      obtain ⟨present, left⟩ := indexes.tail
      rw [eraseDownTo]
      split_ifs with more member
      · exact ih left
      · exact absurd (Std.ExtTreeMap.mem_iff_isSome_getElem?.mpr (by rw [present]; rfl)) member
      · exact ⟨map, first :: rest, rfl, indexes⟩

theorem Linked.maxSize (linked : limited.Linked) (s : Nat) :
    ∃ next, limited.maxSize s = some next ∧ next.Linked := by
  unfold LimitedMap.maxSize
  split_ifs with unlimited
  · exact ⟨_, rfl, linked⟩
  · obtain ⟨map, rmap, left, indexes⟩ := eraseDownTo_spec s linked
    exact ⟨⟨map, rmap, s⟩, by rw [left]; rfl, indexes⟩

omit [Std.LawfulEqOrd K] [DecidableEq K] [LinearOrder V] in
theorem size_insert (fresh : key ∉ limited.map) (value : V) :
    (limited.map.insert key value).size = limited.map.size + 1 := by
  rw [Std.ExtTreeMap.size_insert, if_neg (by simpa using fresh)]

omit [Std.LawfulEqOrd K] [DecidableEq K] in
theorem insert_of_spare (fresh : key ∉ limited.map)
    (spare : ¬(limited.nMaxSize ≠ 0 ∧ limited.map.size + 1 = limited.nMaxSize)) :
    limited.insert key value = some { limited with
      map := limited.map.insert key value
      rmap := ValueIndex.place limited.rmap (value, key) } := by
  rw [LimitedMap.insert, if_neg fresh]
  simp only [size_insert fresh]
  rw [if_neg spare]
  rfl

/-- The victim is the lowest of the entries before. -/
theorem Linked.insert_of_full (linked : limited.Linked) (fresh : key ∉ limited.map)
    (full : limited.nMaxSize ≠ 0 ∧ limited.map.size + 1 = limited.nMaxSize) {victim : V × K}
    {rest : List (V × K)} (first : limited.rmap = victim :: rest) :
    limited.insert key value = some { limited with
      map := (limited.map.erase victim.2).insert key value
      rmap := ValueIndex.place rest (value, key) } := by
  have present : limited.map[victim.2]? = some victim.1 := by
    rw [← linked.entries, first]
    exact List.mem_cons_self
  have member : victim.2 ∈ limited.map :=
    Std.ExtTreeMap.mem_iff_isSome_getElem?.mpr (by rw [present]; rfl)
  have other : victim.2 ≠ key := fun same => fresh (same ▸ member)
  have there : victim.2 ∈ limited.map.insert key value :=
    Std.ExtTreeMap.mem_insert.mpr (Or.inr member)
  have commute : (limited.map.insert key value).erase victim.2 =
      (limited.map.erase victim.2).insert key value := by
    apply Std.ExtTreeMap.ext_getElem?
    intro place
    simp only [KeyedBatch.getElem?_insert_eq, KeyedBatch.getElem?_erase_eq]
    split_ifs with atVictim atKey
    · exact absurd (atVictim.symm.trans atKey) other
    · rfl
    · rfl
    · rfl
  rw [LimitedMap.insert, if_neg fresh]
  simp only [size_insert fresh]
  rw [if_pos full]
  simp only [eraseFirst, first, if_pos there, commute]
  rfl

omit [Std.LawfulEqOrd K] [DecidableEq K] in
theorem insert_of_none (fresh : key ∉ limited.map)
    (full : limited.nMaxSize ≠ 0 ∧ limited.map.size + 1 = limited.nMaxSize)
    (nothing : limited.rmap = []) : limited.insert key value = none := by
  rw [LimitedMap.insert, if_neg fresh]
  simp only [size_insert fresh]
  rw [if_pos full]
  simp only [eraseFirst, nothing]
  rfl

theorem Linked.insert_new (linked : limited.Linked) (fresh : key ∉ limited.map) (value : V) :
    (limited.nMaxSize = 1 ∧ limited.map.size = 0 ∧ limited.insert key value = none) ∨
    ∃ next, limited.insert key value = some next ∧ next.Linked ∧
      next.nMaxSize = limited.nMaxSize ∧
      (limited.nMaxSize ≠ 1 ∨ limited.map.size ≠ 0) ∧
      next.map.size = if limited.nMaxSize ≠ 0 ∧ limited.map.size + 1 = limited.nMaxSize then
        limited.map.size else limited.map.size + 1 := by
  have absent : limited.map[key]? = none := Std.ExtTreeMap.getElem?_eq_none fresh
  have length : limited.rmap.length = limited.map.size := linked.length_eq
  by_cases full : limited.nMaxSize ≠ 0 ∧ limited.map.size + 1 = limited.nMaxSize
  · cases entries : limited.rmap with
    | nil =>
        have size : limited.map.size = 0 := by rw [← length, entries]; rfl
        exact Or.inl ⟨by omega, size, insert_of_none fresh full entries⟩
    | cons victim rest =>
        have size : rest.length + 1 = limited.map.size := by rw [← length, entries]; rfl
        have left := (show ValueIndex.Indexes limited.map (victim :: rest) from entries ▸ linked).tail.2
        have gone : (limited.map.erase victim.2)[key]? = none := by
          rw [KeyedBatch.getElem?_erase_eq, absent, ite_self]
        have placed := left.insert gone value
        refine Or.inr ⟨_, linked.insert_of_full fresh full entries, placed, rfl, by omega, ?_⟩
        rw [if_pos full, ← placed.length_eq, (ValueIndex.place_perm _ _).length_eq]
        exact size
  · refine Or.inr ⟨_, insert_of_spare fresh full, ValueIndex.Indexes.insert linked absent value,
      rfl, by omega, ?_⟩
    rw [if_neg full]
    exact size_insert fresh value

theorem Linked.insert (linked : limited.Linked) (key : K) (value : V) {next : LimitedMap K V}
    (inserted : limited.insert key value = some next) : next.Linked := by
  by_cases known : key ∈ limited.map
  · rw [LimitedMap.insert, if_pos known] at inserted
    cases inserted
    exact linked
  · obtain ⟨-, -, failed⟩ | ⟨other, here, linked, -⟩ := linked.insert_new known value
    · rw [failed] at inserted
      cases inserted
    · rw [here] at inserted
      cases inserted
      exact linked

theorem Linked.insert_iff (linked : limited.Linked) (key : K) (value : V) :
    (∃ next, limited.insert key value = some next) ↔
      ¬(limited.nMaxSize = 1 ∧ limited.map.size = 0) := by
  by_cases known : key ∈ limited.map
  · obtain ⟨old, present⟩ := Option.isSome_iff_exists.mp
      (Std.ExtTreeMap.mem_iff_isSome_getElem?.mp known)
    have some := List.length_pos_of_mem ((linked.entries old key).mpr present)
    rw [linked.length_eq] at some
    rw [LimitedMap.insert, if_pos known]
    exact iff_of_true ⟨limited, rfl⟩ fun full => some.ne' full.2
  · obtain ⟨one, empty, failed⟩ | ⟨next, here, -, -, room, -⟩ := linked.insert_new known value
    · rw [failed]
      simp [one, empty]
    · exact iff_of_true ⟨next, here⟩ (by omega)

theorem call_iff_roomy (linked : limited.Linked) (action : LimitedMapCall K V) :
    (∃ next, limited.call action = some next) ↔ limited.Roomy action := by
  cases action with
  | insert key value => exact linked.insert_iff key value
  | erase key =>
      obtain ⟨next, here, -⟩ := linked.erase key
      exact iff_of_true ⟨next, here⟩ trivial
  | update key value =>
      obtain ⟨next, here, -⟩ := linked.update key value
      exact iff_of_true ⟨next, here⟩ trivial
  | maxSize s =>
      obtain ⟨next, here, -⟩ := linked.maxSize s
      exact iff_of_true ⟨next, here⟩ trivial

theorem Linked.call (linked : limited.Linked) (action : LimitedMapCall K V) {next : LimitedMap K V}
    (called : limited.call action = some next) : next.Linked := by
  cases action with
  | insert key value => exact linked.insert key value called
  | erase key =>
      obtain ⟨other, here, kept⟩ := linked.erase key
      exact Option.some.inj (here.symm.trans called) ▸ kept
  | update key value =>
      obtain ⟨other, here, kept⟩ := linked.update key value
      exact Option.some.inj (here.symm.trans called) ▸ kept
  | maxSize s =>
      obtain ⟨other, here, kept⟩ := linked.maxSize s
      exact Option.some.inj (here.symm.trans called) ▸ kept

/-! ## Insertions of distinct keys -/

theorem insert_few {done entries : List (V × K)} (linked : limited.Linked)
    (holds : ∀ value key, limited.map[key]? = some value ↔ (value, key) ∈ done)
    (distinct : ((done ++ entries).map Prod.snd).Nodup)
    (few : limited.map.size + entries.length < limited.nMaxSize) :
    ∃ last, StepRuns.finish call (insertions entries) limited = some last ∧
      ∀ value key, last.map[key]? = some value ↔ (value, key) ∈ done ++ entries := by
  induction entries generalizing done limited with
  | nil => exact ⟨limited, rfl, by simpa using holds⟩
  | cons entry entries ih =>
      rw [List.length_cons] at few
      have fresh : entry.2 ∉ limited.map := by
        intro known
        obtain ⟨old, present⟩ := Option.isSome_iff_exists.mp
          (Std.ExtTreeMap.mem_iff_isSome_getElem?.mp known)
        rw [List.map_append, List.nodup_append] at distinct
        exact distinct.2.2 _ (List.mem_map_of_mem ((holds old entry.2).mp present))
          _ (List.mem_map_of_mem List.mem_cons_self) rfl
      have absent : limited.map[entry.2]? = none := Std.ExtTreeMap.getElem?_eq_none fresh
      have inserted : limited.insert entry.2 entry.1 = some _ := insert_of_spare fresh (by omega)
      have kept := linked.insert _ _ inserted
      have size := size_insert fresh entry.1
      have holds' : ∀ value key, (limited.map.insert entry.2 entry.1)[key]? = some value ↔
          (value, key) ∈ done ++ [entry] := by
        intro value key
        rw [KeyedBatch.getElem?_insert_eq, List.mem_append, List.mem_singleton, ← holds]
        split_ifs with here
        · rw [here, absent]
          simp [Prod.ext_iff, eq_comm]
        · simp [Prod.ext_iff, here]
      obtain ⟨last, ends, content⟩ := ih kept holds' (by simpa using distinct)
        (by simp only [size]; omega)
      refine ⟨last, ?_, by simpa using content⟩
      rw [insertions, List.map_cons, StepRuns.finish, call, inserted]
      exact ends

/-- The room is made before the map is full, so that it never gets full. -/
theorem size_lt_of_finish {entries : List (V × K)} (linked : limited.Linked)
    (below : limited.map.size < limited.nMaxSize) {last : LimitedMap K V}
    (ends : StepRuns.finish call (insertions entries) limited = some last) :
    last.map.size < limited.nMaxSize := by
  induction entries generalizing limited with
  | nil =>
      obtain rfl := Option.some.inj ends
      exact below
  | cons entry entries ih =>
      obtain ⟨next, inserted, rest⟩ := Option.bind_eq_some_iff.mp ends
      have kept := linked.insert entry.2 entry.1 inserted
      have still : next.nMaxSize = limited.nMaxSize ∧ next.map.size < next.nMaxSize := by
        by_cases known : entry.2 ∈ limited.map
        · rw [call, LimitedMap.insert, if_pos known] at inserted
          cases inserted
          exact ⟨rfl, below⟩
        · obtain ⟨-, -, failed⟩ | ⟨other, here, -, same, -, size⟩ :=
            linked.insert_new known entry.1
          · cases failed.symm.trans inserted
          · obtain rfl := Option.some.inj (here.symm.trans inserted)
            refine ⟨same, ?_⟩
            rw [size, same]
            split_ifs <;> omega
      rw [← still.1]
      exact ih kept still.2 rest

theorem holdsHighest_iff {N : Nat} (positive : 0 < N) {entries : List (V × K)}
    (distinct : (entries.map Prod.snd).Nodup) :
    (∃ last, StepRuns.finish call (insertions entries) (new N : LimitedMap K V) = some last ∧
      last.HoldsHighest N entries) ↔ entries.length < N := by
  have start : (new N : LimitedMap K V).Linked := ValueIndex.Indexes.empty
  constructor
  · rintro ⟨last, ends, holds⟩
    have below := size_lt_of_finish start (by simpa [new] using positive) ends
    have length := ValueIndex.length_eq_size
      (ValueIndex.highest_nodup (List.Nodup.of_map _ distinct) N) fun value key =>
        (holds value key).symm
    rw [ValueIndex.length_highest] at length
    simp only [new] at below
    omega
  · intro few
    have nothing : ∀ value key, (new N : LimitedMap K V).map[key]? = some value ↔
        (value, key) ∈ ([] : List (V × K)) := by simp [new]
    obtain ⟨last, ends, content⟩ := insert_few start nothing (by simpa using distinct)
      (by simpa [new] using few)
    refine ⟨last, ends, fun value key => ?_⟩
    rw [content, List.nil_append, ValueIndex.mem_highest_of_length_le few.le]

/-- The map and its index go together, and no call fails, in just the runs without an insertion
into an empty map of size one; the highest are held just while there are fewer than the size. -/
theorem calls_exact {N : Nat} (positive : 0 < N) :
    (∀ calls : List (LimitedMapCall K V),
      (∃ last, StepRuns.finish call calls (new N : LimitedMap K V) = some last ∧ last.Linked) ↔
        StepRuns.Meets call Roomy calls (new N)) ∧
    ∀ entries : List (V × K), (entries.map Prod.snd).Nodup →
      ((∃ last, StepRuns.finish call (insertions entries) (new N : LimitedMap K V) = some last ∧
        last.HoldsHighest N entries) ↔ entries.length < N) :=
  ⟨fun _ => StepRuns.finish_iff_meets (fun _ action linked => call_iff_roomy linked action)
      (fun _ action _ linked called => linked.call action called) ValueIndex.Indexes.empty,
    fun _ distinct => holdsHighest_iff positive distinct⟩

end Steps

theorem calls_exact_two :
    (∃ last, StepRuns.finish call [.insert 7 3, .erase 7, .maxSize 1] (new 2 : LimitedMap Nat Int) =
      some last ∧ last.Linked) ∧
    ¬∃ last, StepRuns.finish call (insertions [(3, 7), (4, 8)]) (new 2 : LimitedMap Nat Int) =
      some last ∧ last.HoldsHighest 2 [(3, 7), (4, 8)] := by
  obtain ⟨linked, highest⟩ := @calls_exact Nat Int _ _ _ _ _ 2 (by decide)
  constructor
  · exact (linked _).mpr ⟨fun full => absurd full.1 (by decide),
      fun _ _ => ⟨trivial, fun _ _ => ⟨trivial, fun _ _ => trivial⟩⟩⟩
  · exact fun held => absurd ((highest _ (by decide)).mp held) (by decide)

/-- The first entry of a map of size one has no victim, and the second of two is the only one. -/
theorem insert_makes_room_early :
    StepRuns.finish call [.insert 7 3] (new 1 : LimitedMap Nat Int) = none ∧
    ¬∃ last, StepRuns.finish call (insertions [(3, 7), (4, 8)]) (new 2 : LimitedMap Nat Int) =
      some last ∧ last.HoldsHighest 2 [(3, 7), (4, 8)] := by
  constructor
  · have failed : (new 1 : LimitedMap Nat Int).insert 7 3 = none :=
      insert_of_none (by simp [new]) (by simp [new]) rfl
    rw [StepRuns.finish, call, failed]
    rfl
  · intro held
    exact absurd ((holdsHighest_iff (by decide) (by decide)).mp held) (by decide)

end LimitedMap

end Lycancoin
