import Mathlib

namespace Lycancoin.Data

/-! Insertions and erasures of a whole list of keys. -/

namespace KeyedBatch

variable {Key Value Item : Type} [DecidableEq Key] [Ord Key] [Std.TransOrd Key]
  [Std.LawfulEqOrd Key] (key : Item → Key) (value : Item → Value)

theorem getElem?_insert_eq (map : Std.ExtTreeMap Key Value) (key place : Key)
    (value : Value) :
    (map.insert key value)[place]? = if place = key then some value else map[place]? := by
  by_cases here : place = key
  · rw [here, if_pos rfl, Std.ExtTreeMap.getElem?_insert_self]
  · rw [if_neg here, Std.ExtTreeMap.getElem?_insert,
      if_neg (by simpa using fun equal => here equal.symm)]

theorem getElem?_erase_eq (map : Std.ExtTreeMap Key Value) (key place : Key) :
    (map.erase key)[place]? = if place = key then none else map[place]? := by
  by_cases here : place = key
  · rw [here, if_pos rfl, Std.ExtTreeMap.getElem?_erase_self]
  · rw [if_neg here, Std.ExtTreeMap.getElem?_erase,
      if_neg (by simpa using fun equal => here equal.symm)]

theorem toList_eq_singleton_iff (map : Std.ExtTreeMap Key Value) (key : Key) (value : Value) :
    map.toList = [(key, value)] ↔ map = (∅ : Std.ExtTreeMap Key Value).insert key value := by
  have listed : ∀ (map : Std.ExtTreeMap Key Value) (item : Key × Value),
      item ∈ map.toList ↔ map[item.1]? = some item.2 := by
    intro map item
    exact Std.ExtTreeMap.mem_toList_iff_getElem?_eq_some
  constructor
  · intro single
    apply Std.ExtTreeMap.ext_getElem?
    intro place
    apply Option.ext
    intro found
    rw [← listed map (place, found), single, getElem?_insert_eq]
    by_cases here : place = key
    · subst here
      simp [eq_comm]
    · simp [here]
  · rintro rfl
    have distinct : ((∅ : Std.ExtTreeMap Key Value).insert key value).toList.Nodup := by
      have keys := Std.ExtTreeMap.nodup_keys
        (t := (∅ : Std.ExtTreeMap Key Value).insert key value)
      rw [← Std.ExtTreeMap.map_fst_toList_eq_keys] at keys
      exact List.Nodup.of_map _ keys
    have members : ∀ item, item ∈ ((∅ : Std.ExtTreeMap Key Value).insert key value).toList ↔
        item = (key, value) := by
      rintro ⟨place, found⟩
      rw [listed, getElem?_insert_eq]
      by_cases here : place = key
      · subst here
        simp [eq_comm]
      · simp [here]
    have same := (List.perm_ext_iff_of_nodup distinct (List.nodup_singleton (key, value))).2
      fun item => (members item).trans List.mem_singleton.symm
    exact List.perm_singleton.1 same

theorem getElem?_foldl_erase (map : Std.ExtTreeMap Key Value) (items : List Item) (place : Key) :
    (items.foldl (fun map item => map.erase (key item)) map)[place]? =
      if place ∈ items.map key then none else map[place]? := by
  induction items generalizing map with
  | nil => simp
  | cons item rest ih =>
      rw [List.foldl_cons, ih, List.map_cons]
      by_cases later : place ∈ rest.map key
      · rw [if_pos later, if_pos (List.mem_cons_of_mem _ later)]
      · rw [if_neg later]
        by_cases here : key item = place
        · subst here
          rw [Std.ExtTreeMap.getElem?_erase_self, if_pos List.mem_cons_self]
        · rw [Std.ExtTreeMap.getElem?_erase, if_neg (by simpa using here), if_neg]
          simp only [List.mem_cons, not_or]
          exact ⟨Ne.symm here, later⟩

theorem getElem?_foldl_insert (map : Std.ExtTreeMap Key Value) {items : List Item}
    (distinct : (items.map key).Nodup) (place : Key) (found : Value) :
    (items.foldl (fun map item => map.insert (key item) (value item)) map)[place]? = some found ↔
      (∃ item ∈ items, key item = place ∧ value item = found) ∨
        place ∉ items.map key ∧ map[place]? = some found := by
  induction items generalizing map with
  | nil => simp
  | cons item rest ih =>
      rw [List.map_cons, List.nodup_cons] at distinct
      rw [List.foldl_cons, ih _ distinct.2, List.map_cons]
      by_cases here : key item = place
      · subst here
        simp [distinct.1, or_comm]
      · have other : (map.insert (key item) (value item))[place]? = map[place]? := by
          rw [Std.ExtTreeMap.getElem?_insert, if_neg (by simpa using here)]
        simp [other, here, Ne.symm here]

theorem getElem?_foldl_insert_graph (map : Std.ExtTreeMap Key Value) (items : List Item)
    (found : Key → Option Value) (graph : ∀ item ∈ items, found (key item) = some (value item))
    (place : Key) :
    (items.foldl (fun map item => map.insert (key item) (value item)) map)[place]? =
      if place ∈ items.map key then found place else map[place]? := by
  induction items generalizing map with
  | nil => simp
  | cons item rest ih =>
      obtain ⟨first, others⟩ := List.forall_mem_cons.mp graph
      rw [List.foldl_cons, ih _ others, List.map_cons, getElem?_insert_eq]
      by_cases later : place ∈ rest.map key
      · rw [if_pos later, if_pos (List.mem_cons_of_mem _ later)]
      · rw [if_neg later]
        by_cases here : place = key item
        · rw [if_pos here, if_pos (here ▸ List.mem_cons_self), here, first]
        · rw [if_neg here, if_neg (fun member => (List.mem_cons.mp member).elim here later)]

end KeyedBatch

end Lycancoin.Data

/-! # Merging one keyed map into another

A merge visits the entries of a map one after another, and each entry decides
what the target holds under its key.  An entry may refuse what it finds there;
the merge then has no result.  Keys are distinct, so a merge acts on each key
by itself, in whatever order the entries come.
-/

namespace Lycancoin.Data

open Std

variable {Key Entry Value : Type} [LinearOrder Key]

namespace KeyedMerge

local instance transOrdOfLinear (α : Type) [LinearOrder α] : TransOrd α := inferInstance

/-- Replace what a map holds under a key. -/
def set (target : ExtTreeMap Key Value) (key : Key) : Option Value → ExtTreeMap Key Value
  | none => target.erase key
  | some value => target.insert key value

/-- Let one entry update the target, unless it refuses. -/
def step? (update : Key → Entry → Option Value → Option (Option Value))
    (target : ExtTreeMap Key Value) (item : Key × Entry) : Option (ExtTreeMap Key Value) :=
  (update item.1 item.2 target[item.1]?).map (set target item.1)

def merge? (update : Key → Entry → Option Value → Option (Option Value))
    (entries : ExtTreeMap Key Entry) (target : ExtTreeMap Key Value) :
    Option (ExtTreeMap Key Value) :=
  entries.toList.foldlM (step? update) target

variable {update : Key → Entry → Option Value → Option (Option Value)}
  {target : ExtTreeMap Key Value}

theorem getElem?_set (target : ExtTreeMap Key Value) (key other : Key) (value : Option Value) :
    (set target key value)[other]? = if key = other then value else target[other]? := by
  cases value <;> simp only [set, ExtTreeMap.getElem?_erase, ExtTreeMap.getElem?_insert,
    Std.compare_eq_iff_eq]

@[simp] theorem getElem?_set_self (target : ExtTreeMap Key Value) (key : Key)
    (value : Option Value) : (set target key value)[key]? = value := by
  rw [getElem?_set, if_pos rfl]

theorem getElem?_set_of_ne {key other : Key} (different : key ≠ other) (value : Option Value) :
    (set target key value)[other]? = target[other]? := by
  rw [getElem?_set, if_neg different]

/-- A walk over items with distinct keys that nobody refuses. -/
theorem foldlM_step? {items : List (Key × Entry)}
    (distinct : items.Pairwise fun first second => first.1 ≠ second.1)
    (accepted : ∀ item ∈ items, (update item.1 item.2 target[item.1]?).isSome) :
    ∃ merged : ExtTreeMap Key Value, items.foldlM (step? update) target = some merged ∧
      (∀ item ∈ items, update item.1 item.2 target[item.1]? = some merged[item.1]?) ∧
      ∀ key, (∀ item ∈ items, item.1 ≠ key) → merged[key]? = target[key]? := by
  induction items generalizing target with
  | nil => exact ⟨target, rfl, by simp, fun _ _ => rfl⟩
  | cons item rest ih =>
      obtain ⟨apart, restDistinct⟩ := List.pairwise_cons.mp distinct
      obtain ⟨value, updated⟩ := Option.isSome_iff_exists.mp (accepted item (by simp))
      -- The later items find under their keys what was there before.
      have untouched : ∀ other ∈ rest, (set target item.1 value)[other.1]? = target[other.1]? :=
        fun other member => getElem?_set_of_ne (apart other member) value
      obtain ⟨merged, walked, changed, kept⟩ := ih restDistinct fun other member => by
        rw [untouched other member]
        exact accepted other (List.mem_cons_of_mem _ member)
      refine ⟨merged, ?_, ?_, ?_⟩
      · rw [List.foldlM_cons, step?, updated]
        exact walked
      · intro other member
        cases member with
        | head =>
            rw [kept item.1 fun later member => (apart later member).symm, getElem?_set_self]
            exact updated
        | tail _ member =>
            rw [← untouched other member]
            exact changed other member
      · intro key absent
        rw [kept key fun later member => absent later (List.mem_cons_of_mem _ member),
          getElem?_set_of_ne (absent item (by simp))]

/-- A merge that no entry refuses sets each key of the entries to what its
entry makes of the old value, and keeps every other key. -/
theorem merge?_eq_some {entries : ExtTreeMap Key Entry}
    (accepted : ∀ key entry, entries[key]? = some entry → (update key entry target[key]?).isSome) :
    ∃ merged : ExtTreeMap Key Value, merge? update entries target = some merged ∧
      (∀ key entry, entries[key]? = some entry → update key entry target[key]? = some merged[key]?) ∧
      ∀ key : Key, entries[key]? = none → merged[key]? = target[key]? := by
  have distinct : entries.toList.Pairwise fun first second => first.1 ≠ second.1 :=
    entries.distinct_keys_toList.imp fun apart same => apart (by rw [same]; exact Std.compare_self)
  obtain ⟨merged, walked, changed, kept⟩ := foldlM_step? distinct
    fun item member => accepted item.1 item.2 (ExtTreeMap.mem_toList_iff_getElem?_eq_some.mp member)
  refine ⟨merged, walked, ?_, ?_⟩
  · intro key entry found
    exact changed (key, entry) (ExtTreeMap.mem_toList_iff_getElem?_eq_some.mpr found)
  · intro key absent
    apply kept key
    rintro ⟨other, entry⟩ member rfl
    rw [ExtTreeMap.mem_toList_iff_getElem?_eq_some.mp member] at absent
    contradiction

end KeyedMerge

end Lycancoin.Data
