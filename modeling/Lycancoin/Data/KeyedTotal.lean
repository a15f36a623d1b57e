import Mathlib

namespace Lycancoin.Data

/-! Totals over threads that take their steps one at a time. -/

variable {Thread State M : Type} [Fintype Thread] [DecidableEq Thread] [AddCommMonoid M]
  {threads : Thread → State}

def threadTotal (held : State → M) (threads : Thread → State) : M :=
  ∑ thread, held (threads thread)

/-- A step of one thread moves the total by that thread's own change. -/
theorem threadTotal_update (held : State → M) (threads : Thread → State) (thread : Thread)
    (next : State) :
    threadTotal held (Function.update threads thread next) + held (threads thread) =
      threadTotal held threads + held next := by
  have rest : ∑ other ∈ Finset.univ.erase thread, held (Function.update threads thread next other) =
      ∑ other ∈ Finset.univ.erase thread, held (threads other) := by
    apply Finset.sum_congr rfl
    intro other member
    rw [Function.update_of_ne (Finset.ne_of_mem_erase member)]
  rw [threadTotal, threadTotal, ← Finset.add_sum_erase _ _ (Finset.mem_univ thread), rest,
    ← Finset.add_sum_erase _ (fun other => held (threads other)) (Finset.mem_univ thread),
    Function.update_self]
  abel

omit [DecidableEq Thread] in
theorem threadTotal_eq_zero {held : State → M} (nothing : ∀ thread, held (threads thread) = 0) :
    threadTotal held threads = 0 := by
  rw [threadTotal]
  exact Finset.sum_eq_zero fun thread _ => nothing thread

omit [DecidableEq Thread] in
theorem eq_zero_of_threadTotal {held : State → Nat} (zero : threadTotal held threads = 0)
    (thread : Thread) : held (threads thread) = 0 := by
  rw [threadTotal, Finset.sum_eq_zero_iff] at zero
  exact zero thread (Finset.mem_univ thread)

end Lycancoin.Data

namespace Lycancoin.Data

/-! Totals over the values of an ordered map. -/

namespace KeyedTotal

variable {Key Value : Type} [DecidableEq Key] [Ord Key] [Std.TransOrd Key] [Std.LawfulEqOrd Key]
  {weight : Value → Int} {map : Std.ExtTreeMap Key Value}

def total (weight : Value → Int) (map : Std.ExtTreeMap Key Value) : Int :=
  ∑ key ∈ map.keys.toFinset, map[key]?.elim 0 weight

theorem total_eq_sum (map : Std.ExtTreeMap Key Value) {places : Finset Key}
    (covers : map.keys.toFinset ⊆ places) :
    total weight map = ∑ key ∈ places, map[key]?.elim 0 weight := by
  refine Finset.sum_subset covers fun key _ absent => ?_
  rw [List.mem_toFinset, Std.ExtTreeMap.mem_keys] at absent
  rw [Std.ExtTreeMap.getElem?_eq_none absent, Option.elim_none]

theorem sum_toList (map : Std.ExtTreeMap Key Value) :
    (map.toList.map fun item => weight item.2).sum = total weight map := by
  rw [total, List.sum_toFinset _ map.nodup_keys, ← Std.ExtTreeMap.map_fst_toList_eq_keys,
    List.map_map]
  refine congrArg List.sum (List.map_congr_left fun item member => ?_)
  rw [Function.comp_apply, Std.ExtTreeMap.mem_toList_iff_getElem?_eq_some.mp member,
    Option.elim_some]

theorem total_of_differ_at (map : Std.ExtTreeMap Key Value) {other : Std.ExtTreeMap Key Value}
    (key : Key)
    (same : ∀ place : Key, place ≠ key → other[place]? = map[place]?) :
    total weight other =
      total weight map - map[key]?.elim 0 weight + other[key]?.elim 0 weight := by
  have inside : key ∈ insert key (map.keys.toFinset ∪ other.keys.toFinset) :=
    Finset.mem_insert_self _ _
  have mapCovers : map.keys.toFinset ⊆ insert key (map.keys.toFinset ∪ other.keys.toFinset) :=
    Finset.subset_union_left.trans (Finset.subset_insert _ _)
  have otherCovers : other.keys.toFinset ⊆ insert key (map.keys.toFinset ∪ other.keys.toFinset) :=
    Finset.subset_union_right.trans (Finset.subset_insert _ _)
  rw [total_eq_sum map mapCovers, total_eq_sum other otherCovers, ← Finset.add_sum_erase _ _ inside,
    ← Finset.add_sum_erase _ (fun place => map[place]?.elim 0 weight) inside]
  have rest : ∑ place ∈ (insert key (map.keys.toFinset ∪ other.keys.toFinset)).erase key,
      other[place]?.elim 0 weight =
      ∑ place ∈ (insert key (map.keys.toFinset ∪ other.keys.toFinset)).erase key,
        map[place]?.elim 0 weight := by
    refine Finset.sum_congr rfl fun place member => ?_
    rw [same place (Finset.ne_of_mem_erase member)]
  rw [rest]
  omega

theorem total_insert (map : Std.ExtTreeMap Key Value) (key : Key) (value : Value) :
    total weight (map.insert key value) =
      total weight map - map[key]?.elim 0 weight + weight value := by
  rw [total_of_differ_at map key, Std.ExtTreeMap.getElem?_insert_self, Option.elim_some]
  intro place different
  rw [Std.ExtTreeMap.getElem?_insert, if_neg]
  rw [Std.compare_eq_iff_eq]
  exact fun equal => different equal.symm

theorem total_erase (map : Std.ExtTreeMap Key Value) (key : Key) :
    total weight (map.erase key) = total weight map - map[key]?.elim 0 weight := by
  rw [total_of_differ_at map key, Std.ExtTreeMap.getElem?_erase_self, Option.elim_none,
    Int.add_zero]
  intro place different
  rw [Std.ExtTreeMap.getElem?_erase, if_neg]
  rw [Std.compare_eq_iff_eq]
  exact fun equal => different equal.symm

theorem total_congr {map other : Std.ExtTreeMap Key Value}
    (same : ∀ key : Key, other[key]?.map weight = map[key]?.map weight) :
    total weight other = total weight map := by
  have covers : map.keys.toFinset ⊆ map.keys.toFinset ∪ other.keys.toFinset :=
    Finset.subset_union_left
  have otherCovers : other.keys.toFinset ⊆ map.keys.toFinset ∪ other.keys.toFinset :=
    Finset.subset_union_right
  rw [total_eq_sum map covers, total_eq_sum other otherCovers]
  refine Finset.sum_congr rfl fun key _ => ?_
  have sameHere := same key
  cases found : map[key]? with
  | none =>
      rw [found, Option.map_none, Option.map_eq_none_iff] at sameHere
      rw [sameHere]
  | some value =>
      rw [found, Option.map_some, Option.map_eq_some_iff] at sameHere
      obtain ⟨value', found', sameWeight⟩ := sameHere
      rw [found', Option.elim_some, Option.elim_some, sameWeight]

theorem total_indicator (holds : Value → Bool) (map : Std.ExtTreeMap Key Value) :
    total (fun value => if holds value then 1 else 0) map =
      ({key | ∃ value, map[key]? = some value ∧ holds value = true} : Set Key).ncard := by
  have counted : ({key | ∃ value, map[key]? = some value ∧ holds value = true} : Set Key) =
      ((map.keys.toFinset.filter fun key => map[key]?.any holds : Finset Key) : Set Key) := by
    ext key
    rw [Finset.coe_filter, Set.mem_ofPred_eq, Set.mem_ofPred_eq, List.mem_toFinset,
      Std.ExtTreeMap.mem_keys, Option.any_eq_true]
    constructor
    · intro ⟨value, found, holding⟩
      exact ⟨Std.ExtTreeMap.mem_iff_isSome_getElem?.mpr (by rw [found]; rfl), value, found, holding⟩
    · exact fun member => member.2
  rw [counted, Set.ncard_coe_finset, total, Finset.card_filter, Nat.cast_sum]
  refine Finset.sum_congr rfl fun key _ => ?_
  cases map[key]? with
  | none => rfl
  | some value =>
      rw [Option.elim_some, Option.any_some]
      split_ifs <;> rfl

/-- Where two weights add up to one, their totals add up to the number of keys. -/
theorem total_add_total {other : Value → Int} (unit : ∀ value, weight value + other value = 1)
    (map : Std.ExtTreeMap Key Value) :
    total weight map + total other map = map.keys.toFinset.card := by
  rw [total, total, ← Finset.sum_add_distrib, Finset.card_eq_sum_ones, Nat.cast_sum]
  refine Finset.sum_congr rfl fun key member => ?_
  rw [List.mem_toFinset, Std.ExtTreeMap.mem_keys] at member
  rw [Std.ExtTreeMap.getElem?_eq_some_getElem member]
  exact unit _

omit [Std.LawfulEqOrd Key] in
theorem total_nonneg (nonneg : ∀ value, 0 ≤ weight value) (map : Std.ExtTreeMap Key Value) :
    0 ≤ total weight map := by
  refine Finset.sum_nonneg fun key _ => ?_
  cases map[key]? with
  | none => exact le_refl 0
  | some value => exact nonneg value

omit [Std.LawfulEqOrd Key] in
@[simp] theorem total_empty : total weight (∅ : Std.ExtTreeMap Key Value) = 0 := by
  simp [total]

end KeyedTotal

end Lycancoin.Data
