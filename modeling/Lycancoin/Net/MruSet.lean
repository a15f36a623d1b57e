import Lycancoin.Data.Latest
import Lycancoin.Data.RingBuffer
import Lycancoin.Data.StepRuns
import Lycancoin.Data.ValueIndex

namespace Lycancoin

open Lycancoin.Data

/-- `mruset`.  An iterator is the number of its node and the element there; `set` has the node of
each element, and `set.end()` is `none`. -/
structure MruSet (T : Type) [Ord T] where
  set : Std.ExtTreeMap T Nat
  nodes : Nat
  order : List (Option (Nat × T))
  firstUsed : Nat
  firstUnused : Nat
  nMaxSize : Nat

inductive MruSetCall (T : Type) where
  | insert (x : T)
  | clear

namespace MruSet

variable {T : Type} [Ord T] [Std.TransOrd T] [Std.LawfulEqOrd T] [DecidableEq T]

def new (nMaxSizeIn : Nat) : MruSet T where
  set := ∅
  nodes := 0
  order := List.replicate nMaxSizeIn none
  firstUsed := 0
  firstUnused := 0
  nMaxSize := nMaxSizeIn

variable (mru : MruSet T)

def clear : MruSet T :=
  { mru with
    set := ∅
    order := List.replicate mru.nMaxSize none
    firstUsed := 0
    firstUnused := 0 }

def Live (iterator : Nat × T) : Prop := mru.set[iterator.2]? = some iterator.1

/-- `if (++index == nMaxSize) index = 0`. -/
def advance (index : Nat) : Nat := if index + 1 = mru.nMaxSize then 0 else index + 1

/-- `set.erase(order[first_used])` and the two lines behind it.  There is no result where the
place is outside of `order` or its iterator is not one of an element. -/
def eraseFirst : Option (MruSet T) :=
  match mru.order[mru.firstUsed]? with
  | some (some iterator) =>
      if mru.set[iterator.2]? = some iterator.1 then
        some { mru with
          set := mru.set.erase iterator.2
          order := mru.order.set mru.firstUsed none
          firstUsed := mru.advance mru.firstUsed }
      else none
  | _ => none

/-- `insert`, with the iterator that it returns and whether the element is a new one. -/
def insert (x : T) : Option (MruSet T × (Nat × T) × Bool) :=
  match mru.set[x]? with
  | some node => some (mru, (node, x), false)
  | none => do
      let inserted := { mru with set := mru.set.insert x mru.nodes, nodes := mru.nodes + 1 }
      let kept ← if inserted.set.size = inserted.nMaxSize + 1 then inserted.eraseFirst
        else some inserted
      if kept.firstUnused < kept.order.length then
        some ({ kept with
          order := kept.order.set kept.firstUnused (some (mru.nodes, x))
          firstUnused := kept.advance kept.firstUnused }, (mru.nodes, x), true)
      else none

/-- The set after a call, and the elements whose insertions have found them absent since the set
was cleared. -/
def record : MruSet T × List T → MruSetCall T → Option (MruSet T × List T)
  | (mru, added), .insert x => (mru.insert x).map fun result =>
      (result.1, if x ∈ mru.set then added else added ++ [x])
  | (mru, _), .clear => some (mru.clear, [])

/-- The set has the latest of the nodes, and `order` has their iterators. -/
structure Holds (size : Nat) (added : List (Nat × T)) : Prop where
  positive : 0 < size
  nMaxSize : mru.nMaxSize = size
  length : mru.order.length = size
  firstUnused : mru.firstUnused = added.length % size
  firstUsed : mru.firstUsed = (added.length - size) % size
  ring : RingHolds mru.order (added.map some) (added.map some).length
  spare : ∀ i, added.length ≤ i → i < size → mru.order[i]? = some none
  live : ∀ node x, (node, x) ∈ latest size added ↔ mru.set[x]? = some node
  distinct : ((latest size added).map Prod.snd).Nodup

section Steps

variable {mru : MruSet T} {size : Nat} {added : List (Nat × T)} {x : T}

omit [Std.LawfulEqOrd T] [DecidableEq T] in
theorem Holds.empty (positive : 0 < size) (nodes : Nat) :
    Holds ⟨∅, nodes, List.replicate size none, 0, 0, size⟩ size ([] : List (Nat × T)) where
  positive := positive
  nMaxSize := rfl
  length := List.length_replicate
  firstUnused := by simp
  firstUsed := by simp
  ring := fun i before => absurd before (Nat.not_lt_zero i)
  spare := by
    intro i _ inside
    rw [List.getElem?_replicate, if_pos inside]
  live := by simp [latest]
  distinct := by simp [latest]

omit [Std.LawfulEqOrd T] [DecidableEq T] in
theorem Holds.advance (holds : mru.Holds size added) (count : Nat) :
    mru.advance (count % size) = (count + 1) % size := by
  have below := Nat.mod_lt count holds.positive
  rw [MruSet.advance, holds.nMaxSize, ← Nat.mod_add_mod count size 1]
  split_ifs with last
  · rw [last, Nat.mod_self]
  · rw [Nat.mod_eq_of_lt (by omega : count % size + 1 < size)]

omit [DecidableEq T] in
theorem Holds.size_eq (holds : mru.Holds size added) : mru.set.size = min size added.length := by
  rw [← length_latest]
  exact (ValueIndex.length_eq_size holds.distinct.of_map holds.live).symm

omit [Std.LawfulEqOrd T] [DecidableEq T] in
/-- The slots that are used are those with the iterators of the elements. -/
theorem Holds.mem_order_iff (holds : mru.Holds size added) (iterator : Nat × T) :
    some iterator ∈ mru.order ↔ mru.Live iterator := by
  have length := holds.length
  rw [Live, ← holds.live iterator.1 iterator.2, latest]
  constructor
  · intro used
    obtain ⟨place, inside, here⟩ := List.mem_iff_getElem.mp used
    have found : mru.order[place]? = some (some iterator) := by
      rw [List.getElem?_eq_getElem inside, here]
    rcases Nat.lt_or_ge place added.length with written | spare
    · obtain ⟨i, before, recent, there⟩ := holds.ring.exists_recent inside
        (by rwa [List.length_map])
      rw [List.length_map] at before recent
      rw [found, List.getElem?_map, List.getElem?_eq_getElem before] at there
      have same : iterator = added[i] := by simpa using there
      apply List.mem_iff_getElem.mpr
      refine ⟨i - (added.length - size), by rw [List.length_drop]; omega, ?_⟩
      rw [List.getElem_drop, same]
      congr 1
      omega
    · rw [holds.spare place spare (by omega)] at found
      cases found
  · intro recent
    obtain ⟨i, inside, here⟩ := List.mem_iff_getElem.mp recent
    rw [List.length_drop] at inside
    rw [List.getElem_drop] at here
    have before : added.length - size + i < added.length := by omega
    have there := holds.ring (added.length - size + i) (by rwa [List.length_map])
      (by rw [List.length_map]; omega)
    rw [List.getElem?_map, List.getElem?_eq_getElem before, here] at there
    exact List.mem_of_getElem? there

omit [Std.LawfulEqOrd T] [DecidableEq T] in
theorem insert_of_mem {node : Nat} (present : mru.set[x]? = some node) :
    mru.insert x = some (mru, (node, x), false) := by
  rw [MruSet.insert, present]

omit [Std.LawfulEqOrd T] [DecidableEq T] in
/-- The iterator of a new element takes the first unused slot. -/
theorem Holds.place (holds : mru.Holds size added) {iterator : Nat × T}
    {set : Std.ExtTreeMap T Nat}
    (live : ∀ node x, (node, x) ∈ latest size (added ++ [iterator]) ↔ set[x]? = some node)
    (distinct : ((latest size (added ++ [iterator])).map Prod.snd).Nodup) :
    Holds
      { mru with
        set := set
        nodes := mru.nodes + 1
        order := mru.order.set mru.firstUnused (some iterator)
        firstUsed := (added.length + 1 - size) % size
        firstUnused := mru.advance mru.firstUnused } size (added ++ [iterator]) where
  positive := holds.positive
  nMaxSize := holds.nMaxSize
  length := by rw [List.length_set, holds.length]
  firstUnused := by
    rw [List.length_append, List.length_singleton, ← holds.advance, ← holds.firstUnused]
  firstUsed := by rw [List.length_append, List.length_singleton]
  ring := by
    have written := holds.ring.set (by rw [holds.length]; exact holds.positive) (some iterator)
    rw [holds.length, List.length_map, ← holds.firstUnused] at written
    rw [List.map_append, List.length_append, List.length_map]
    exact written
  spare := by
    intro i after inside
    rw [List.length_append, List.length_singleton] at after
    have other : mru.firstUnused ≠ i := by
      rw [holds.firstUnused, Nat.mod_eq_of_lt (by omega)]
      omega
    rw [List.getElem?_set_ne other, holds.spare i (by omega) inside]
  live := live
  distinct := distinct

omit [Std.LawfulEqOrd T] [DecidableEq T] in
theorem Holds.absent (holds : mru.Holds size added) (absent : mru.set[x]? = none) :
    x ∉ (latest size added).map Prod.snd := by
  intro known
  obtain ⟨⟨node, _⟩, member, rfl⟩ := List.mem_map.mp known
  rw [holds.live, absent] at member
  cases member

theorem Holds.insert_of_room (holds : mru.Holds size added) (absent : mru.set[x]? = none)
    (room : added.length < size) :
    ∃ next, mru.insert x = some (next, (mru.nodes, x), true) ∧
      next.Holds size (added ++ [(mru.nodes, x)]) := by
  have fresh := holds.absent absent
  have all : latest size added = added := latest_of_length_le room.le
  have more : latest size (added ++ [(mru.nodes, x)]) = added ++ [(mru.nodes, x)] :=
    latest_of_length_le (by rw [List.length_append, List.length_singleton]; exact room)
  have live : ∀ node y, (node, y) ∈ latest size (added ++ [(mru.nodes, x)]) ↔
      (mru.set.insert x mru.nodes)[y]? = some node := by
    intro node y
    rw [more, List.mem_append, ← all, holds.live, List.mem_singleton,
      KeyedBatch.getElem?_insert_eq, Prod.mk.injEq]
    split_ifs with here
    · subst here
      simp [absent, eq_comm]
    · simp [here]
  have distinct : ((latest size (added ++ [(mru.nodes, x)])).map Prod.snd).Nodup := by
    rw [more, List.map_append, List.map_singleton, List.nodup_append]
    rw [all] at fresh
    refine ⟨all ▸ holds.distinct, List.nodup_singleton x, ?_⟩
    rintro known member other same rfl
    rw [List.mem_singleton.mp same] at member
    exact fresh member
  have placed := holds.place live distinct
  refine ⟨_, ?_, placed⟩
  have spare : ¬(mru.set.insert x mru.nodes).size = mru.nMaxSize + 1 := by
    rw [Std.ExtTreeMap.size_insert, if_neg (by simpa using absent), holds.size_eq, holds.nMaxSize]
    omega
  have inside : mru.firstUnused < mru.order.length := by
    rw [holds.firstUnused, holds.length]
    exact Nat.mod_lt _ holds.positive
  have used : (added.length + 1 - size) % size = mru.firstUsed := by
    rw [holds.firstUsed, Nat.sub_eq_zero_of_le room.le, Nat.sub_eq_zero_of_le room]
  rw [MruSet.insert, absent]
  simp only [if_neg spare, bind, Option.bind, if_pos inside, used]
  rfl

omit [Std.LawfulEqOrd T] [DecidableEq T] in
theorem Holds.oldest (holds : mru.Holds size added) (full : size ≤ added.length)
    {oldest : Nat × T} {rest : List (Nat × T)} (split : latest size added = oldest :: rest) :
    mru.order[mru.firstUsed]? = some (some oldest) := by
  have first : added[added.length - size]? = some oldest := by
    have head := congrArg (fun items => items[0]?) split
    simpa only [latest, List.getElem?_drop, Nat.add_zero, List.getElem?_cons_zero] using head
  have positive := holds.positive
  have there := holds.ring (added.length - size) (by rw [List.length_map]; omega)
    (by rw [List.length_map, holds.length]; omega)
  rw [holds.length, List.getElem?_map, first] at there
  rw [holds.firstUsed, there]
  rfl

/-- A new element takes the place of the oldest one. -/
theorem Holds.insert_of_full (holds : mru.Holds size added) (absent : mru.set[x]? = none)
    (full : size ≤ added.length) :
    ∃ next, mru.insert x = some (next, (mru.nodes, x), true) ∧
      next.Holds size (added ++ [(mru.nodes, x)]) := by
  have fresh := holds.absent absent
  have positive := holds.positive
  have length : (latest size added).length = size := by
    rw [length_latest, Nat.min_eq_left full]
  obtain ⟨oldest, rest, split⟩ := List.exists_cons_of_length_pos
    (by omega : 0 < (latest size added).length)
  have more : latest size (added ++ [(mru.nodes, x)]) = rest ++ [(mru.nodes, x)] := by
    rw [← pushLatest_latest positive, pushLatest, if_pos length, split, List.drop_one,
      List.tail_cons]
  have old := holds.distinct
  rw [split, List.map_cons, List.nodup_cons] at old
  rw [split, List.map_cons, List.mem_cons, not_or] at fresh
  have present : mru.set[oldest.2]? = some oldest.1 := by
    rw [← holds.live, split]
    exact List.mem_cons_self
  have live : ∀ node y, (node, y) ∈ latest size (added ++ [(mru.nodes, x)]) ↔
      ((mru.set.insert x mru.nodes).erase oldest.2)[y]? = some node := by
    intro node y
    have known := holds.live node y
    rw [split, List.mem_cons] at known
    rw [more, List.mem_append, List.mem_singleton, KeyedBatch.getElem?_erase_eq,
      KeyedBatch.getElem?_insert_eq, Prod.mk.injEq]
    split_ifs with gone here
    · subst gone
      have out : (node, oldest.2) ∉ rest := fun member =>
        old.1 (List.mem_map.mpr ⟨_, member, rfl⟩)
      simp [out, Ne.symm fresh.1]
    · subst here
      have out : (node, y) ∉ rest := fun member =>
        fresh.2 (List.mem_map.mpr ⟨_, member, rfl⟩)
      simp [out, eq_comm]
    · rw [← known]
      have other : (node, y) ≠ oldest := fun same => gone (by rw [← same])
      simp [here, other]
  have distinct : ((latest size (added ++ [(mru.nodes, x)])).map Prod.snd).Nodup := by
    rw [more, List.map_append, List.map_singleton, List.nodup_append]
    refine ⟨old.2, List.nodup_singleton x, ?_⟩
    rintro known member other same rfl
    rw [List.mem_singleton.mp same] at member
    exact fresh.2 member
  have placed := holds.place live distinct
  refine ⟨_, ?_, placed⟩
  have none : (mru.set.insert x mru.nodes).size = mru.nMaxSize + 1 := by
    rw [Std.ExtTreeMap.size_insert, if_neg (by simpa using absent), holds.size_eq, holds.nMaxSize]
    omega
  have there : (mru.set.insert x mru.nodes)[oldest.2]? = some oldest.1 := by
    rw [KeyedBatch.getElem?_insert_eq, if_neg (Ne.symm fresh.1), present]
  have inside : mru.firstUnused < mru.order.length := by
    rw [holds.firstUnused, holds.length]
    exact Nat.mod_lt _ positive
  have same : mru.firstUsed = mru.firstUnused := by
    rw [holds.firstUsed, holds.firstUnused, ← Nat.mod_eq_sub_mod full]
  have used : mru.advance mru.firstUsed = (added.length + 1 - size) % size := by
    rw [holds.firstUsed, holds.advance, Nat.sub_add_comm full]
  have first := holds.oldest full split
  rw [same] at first used
  rw [MruSet.insert, absent]
  simp only [if_pos none, eraseFirst, same, first, if_pos there, bind, Option.bind,
    List.length_set, if_pos inside, List.set_set, ← used]
  rfl

theorem Holds.insert (holds : mru.Holds size added) (absent : mru.set[x]? = none) :
    ∃ next, mru.insert x = some (next, (mru.nodes, x), true) ∧
      next.Holds size (added ++ [(mru.nodes, x)]) := by
  rcases Nat.lt_or_ge added.length size with room | full
  · exact holds.insert_of_room absent room
  · exact holds.insert_of_full absent full

/-- The node that an insertion returns is in the set behind it. -/
theorem Holds.live_insert (holds : mru.Holds size added) (x : T) :
    ∃ next iterator inserted, mru.insert x = some (next, iterator, inserted) ∧
      iterator.2 = x ∧ next.Live iterator := by
  cases known : mru.set[x]? with
  | some node => exact ⟨mru, (node, x), false, insert_of_mem known, rfl, known⟩
  | none =>
      obtain ⟨next, inserted, kept⟩ := holds.insert known
      refine ⟨next, _, true, inserted, rfl, (kept.live _ _).mp ?_⟩
      rw [← pushLatest_latest holds.positive, pushLatest]
      exact List.mem_append_right _ List.mem_cons_self

/-- The elements are those of the nodes in the order in which they were made. -/
def Recorded (size : Nat) (state : MruSet T × List T) : Prop :=
  ∃ added : List (Nat × T), state.1.Holds size added ∧ state.2 = added.map Prod.snd

theorem Recorded.record {state : MruSet T × List T} (recorded : Recorded size state)
    (call : MruSetCall T) : ∃ next, record state call = some next ∧ Recorded size next := by
  obtain ⟨mru, history⟩ := state
  obtain ⟨added, holds, same⟩ := recorded
  cases call with
  | insert x =>
      cases known : mru.set[x]? with
      | some node =>
          have member : x ∈ mru.set := Std.ExtTreeMap.mem_iff_isSome_getElem?.mpr (by rw [known]; rfl)
          exact ⟨(mru, history), by simp [MruSet.record, insert_of_mem known, member],
            added, holds, same⟩
      | none =>
          obtain ⟨next, inserted, kept⟩ := holds.insert known
          have absent : x ∉ mru.set := by simpa using known
          refine ⟨(next, history ++ [x]), by simp [MruSet.record, inserted, absent], _, kept, ?_⟩
          simp only at same
          rw [same, List.map_append, List.map_singleton]
  | clear =>
      have cleared : mru.clear.Holds size [] := by
        rw [MruSet.clear, holds.nMaxSize]
        exact Holds.empty holds.positive mru.nodes
      exact ⟨(mru.clear, []), rfl, [], cleared, rfl⟩

/-- After any calls the set has just the latest of the elements whose insertions have found them
absent, and the slots that are used have just the iterators of its elements; the element of an
insertion is in the set behind it. -/
theorem elements_exact {N : Nat} (positive : 0 < N) (calls : List (MruSetCall T)) :
    ∃ (mru : MruSet T) (added : List T),
      StepRuns.finish record calls (new N, []) = some (mru, added) ∧
      (∀ x, x ∈ mru.set ↔ x ∈ latest N added) ∧
      (∀ iterator, some iterator ∈ mru.order ↔ mru.Live iterator) ∧
      ∀ x, ∃ next iterator inserted, mru.insert x = some (next, iterator, inserted) ∧
        iterator.2 = x ∧ next.Live iterator := by
  have start : Recorded N (new N, ([] : List T)) := ⟨[], Holds.empty positive 0, rfl⟩
  obtain ⟨⟨mru, history⟩, ends, added, holds, same⟩ :=
    StepRuns.finish_of_total (fun state call (recorded : Recorded N state) => recorded.record call)
      calls start
  refine ⟨mru, history, ends, ?_, holds.mem_order_iff, holds.live_insert⟩
  intro x
  have recent : latest N history = (latest N added).map Prod.snd := by
    simp only at same
    rw [latest, latest, same, List.length_map, List.map_drop]
  rw [recent, Std.ExtTreeMap.mem_iff_isSome_getElem?, Option.isSome_iff_exists, List.mem_map]
  constructor
  · rintro ⟨node, present⟩
    exact ⟨(node, x), (holds.live node x).mpr present, rfl⟩
  · rintro ⟨⟨node, _⟩, member, rfl⟩
    exact ⟨node, (holds.live node _).mp member⟩

end Steps

theorem elements_exact_two :
    ∃ mru added, StepRuns.finish record [.insert 5, .insert 5, .insert 7, .clear, .insert 9]
        (new 2, []) = some ((mru : MruSet Nat), added) ∧
      (∀ x, x ∈ mru.set ↔ x ∈ latest 2 added) ∧
      (∀ iterator, some iterator ∈ mru.order ↔ mru.Live iterator) ∧
      ∀ x, ∃ next iterator inserted, mru.insert x = some (next, iterator, inserted) ∧
        iterator.2 = x ∧ next.Live iterator :=
  elements_exact (by decide) _

end MruSet

end Lycancoin
