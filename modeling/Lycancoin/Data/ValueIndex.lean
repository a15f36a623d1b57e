import Mathlib
import Lycancoin.Data.KeyedBatch

namespace Lycancoin.Data

/-! A map beside the list of its entries in the order of their values, where an entry comes after
those of its own value. -/

namespace ValueIndex

variable {K V : Type} [LinearOrder V]

def place (index : List (V × K)) (entry : V × K) : List (V × K) :=
  index.orderedInsert (fun new old => new.1 < old.1) entry

/-- The entries in ascending order of their values, the later after the earlier. -/
def ascending (entries : List (V × K)) : List (V × K) := entries.foldl place []

/-- The entries with the highest values, where the later goes before the earlier. -/
def highest (count : Nat) (entries : List (V × K)) : List (V × K) :=
  (ascending entries).drop (entries.length - count)

theorem place_perm (index : List (V × K)) (entry : V × K) :
    (place index entry).Perm (entry :: index) :=
  List.perm_orderedInsert _ entry index

theorem place_sorted {index : List (V × K)}
    (sorted : index.Pairwise fun left right => left.1 ≤ right.1) (entry : V × K) :
    (place index entry).Pairwise fun left right => left.1 ≤ right.1 := by
  induction index with
  | nil => simp [place]
  | cons head rest ih =>
      obtain ⟨least, sorted⟩ := List.pairwise_cons.mp sorted
      have kept : (rest.orderedInsert (fun new old => new.1 < old.1) entry).Pairwise
          fun left right => left.1 ≤ right.1 := ih sorted
      rw [place, List.orderedInsert_cons]
      split_ifs with lower
      · apply List.pairwise_cons.mpr ⟨?_, List.pairwise_cons.mpr ⟨least, sorted⟩⟩
        intro other member
        rcases List.mem_cons.mp member with rfl | member
        · exact le_of_lt lower
        · exact le_trans (le_of_lt lower) (least other member)
      · apply List.pairwise_cons.mpr ⟨?_, kept⟩
        intro other member
        rcases List.mem_cons.mp ((place_perm rest entry).mem_iff.mp member) with rfl | member
        · exact not_lt.mp lower
        · exact least other member

theorem ascending_perm (entries : List (V × K)) : (ascending entries).Perm entries := by
  induction entries using List.reverseRecOn with
  | nil => exact List.Perm.nil
  | append_singleton entries entry ih =>
      rw [ascending, List.foldl_append, List.foldl_cons, List.foldl_nil]
      exact ((place_perm _ entry).trans (ih.cons entry)).trans
        (List.perm_append_singleton entry entries).symm

theorem length_highest (count : Nat) (entries : List (V × K)) :
    (highest count entries).length = min count entries.length := by
  rw [highest, List.length_drop, (ascending_perm entries).length_eq]
  omega

theorem highest_nodup {entries : List (V × K)} (distinct : entries.Nodup) (count : Nat) :
    (highest count entries).Nodup :=
  ((ascending_perm entries).nodup_iff.mpr distinct).sublist (List.drop_sublist _ _)

theorem mem_highest_of_length_le {count : Nat} {entries : List (V × K)}
    (few : entries.length ≤ count) {entry : V × K} :
    entry ∈ highest count entries ↔ entry ∈ entries := by
  rw [highest, Nat.sub_eq_zero_of_le few, List.drop_zero]
  exact (ascending_perm entries).mem_iff

variable [Ord K] [Std.TransOrd K] {map : Std.ExtTreeMap K V} {index : List (V × K)}

/-- The list has just the entries of the map, each once and in order. -/
structure Indexes (map : Std.ExtTreeMap K V) (index : List (V × K)) : Prop where
  sorted : index.Pairwise fun left right => left.1 ≤ right.1
  distinct : index.Nodup
  entries : ∀ value key, (value, key) ∈ index ↔ map[key]? = some value

variable [Std.LawfulEqOrd K]

omit [LinearOrder V] in
/-- A list without repetition of just the entries of a map is as long as the map. -/
theorem length_eq_size (distinct : index.Nodup)
    (entries : ∀ value key, (value, key) ∈ index ↔ map[key]? = some value) :
    index.length = map.size := by
  have nodup : map.toList.Nodup := by
    have keys := Std.ExtTreeMap.nodup_keys (t := map)
    rw [← Std.ExtTreeMap.map_fst_toList_eq_keys] at keys
    exact List.Nodup.of_map _ keys
  have swapped : (index.map Prod.swap).Nodup := distinct.map Prod.swap_injective
  have same : (index.map Prod.swap).Perm map.toList := by
    apply (List.perm_ext_iff_of_nodup swapped nodup).mpr
    rintro ⟨key, value⟩
    rw [Std.ExtTreeMap.mem_toList_iff_getElem?_eq_some, ← entries value key, List.mem_map]
    constructor
    · rintro ⟨⟨_, _⟩, member, same⟩
      cases same
      exact member
    · intro member
      exact ⟨(value, key), member, rfl⟩
  rw [← Std.ExtTreeMap.length_toList, ← same.length_eq, List.length_map]

namespace Indexes

omit [Std.LawfulEqOrd K] in
theorem empty : Indexes (∅ : Std.ExtTreeMap K V) [] where
  sorted := List.Pairwise.nil
  distinct := List.nodup_nil
  entries := by simp

theorem length_eq (indexes : Indexes map index) : index.length = map.size :=
  length_eq_size indexes.distinct indexes.entries

variable [DecidableEq K] {key : K} {value : V}

theorem insert (indexes : Indexes map index) (fresh : map[key]? = none) (value : V) :
    Indexes (map.insert key value) (place index (value, key)) where
  sorted := place_sorted indexes.sorted _
  distinct := by
    rw [(place_perm index (value, key)).nodup_iff, List.nodup_cons]
    refine ⟨?_, indexes.distinct⟩
    rw [indexes.entries, fresh]
    exact nofun
  entries := by
    intro other place
    rw [(place_perm index _).mem_iff, List.mem_cons, indexes.entries,
      KeyedBatch.getElem?_insert_eq, Prod.mk.injEq]
    split_ifs with here
    · subst here
      simp [fresh, eq_comm]
    · simp [here]

theorem erase (indexes : Indexes map index) (present : map[key]? = some value) :
    Indexes (map.erase key) (index.erase (value, key)) where
  sorted := indexes.sorted.sublist List.erase_sublist
  distinct := indexes.distinct.erase _
  entries := by
    intro other place
    rw [indexes.distinct.mem_erase_iff, indexes.entries, KeyedBatch.getElem?_erase_eq]
    split_ifs with here
    · subst here
      rw [present]
      simp [eq_comm]
    · simp [here]

/-- Without its first entry the list goes with the map without that key. -/
theorem tail {entry : V × K} {rest : List (V × K)} (indexes : Indexes map (entry :: rest)) :
    map[entry.2]? = some entry.1 ∧ Indexes (map.erase entry.2) rest := by
  have present := (indexes.entries entry.1 entry.2).mp List.mem_cons_self
  have erased := indexes.erase present
  rw [Prod.mk.eta, List.erase_cons_head] at erased
  exact ⟨present, erased⟩

end Indexes

end ValueIndex

end Lycancoin.Data
