import Mathlib

/-! # Inverse indexes

An inverse index maps an attribute to the set of keys that carry it.  Adding
and removing a key walk its attributes one at a time.  A removal drops the
entry of an attribute when its last key goes, so a walk that meets the same
attribute again may find no entry; `removeKeys?_isSome_iff` says when it does.
-/

namespace Lycancoin.Data

open Std

variable {Key Attr : Type} [LinearOrder Key] [LinearOrder Attr]

abbrev InverseIndex (Key Attr : Type) [LinearOrder Key] [LinearOrder Attr] :=
  ExtTreeMap Attr (ExtTreeSet Key)

namespace InverseIndex

local instance transOrdOfLinear (α : Type) [LinearOrder α] : TransOrd α := inferInstance

def holders (index : InverseIndex Key Attr) (attr : Attr) : Set Key :=
  { key | ∃ keys, index[attr]? = some keys ∧ key ∈ keys }

/-- The index lists exactly the keys that carry an attribute, and keeps no
entry without keys. -/
structure Exact (index : InverseIndex Key Attr) (carries : Key → Attr → Prop) : Prop where
  mem_holders : ∀ key attr, key ∈ index.holders attr ↔ carries key attr
  nonempty : ∀ (attr : Attr) (keys : ExtTreeSet Key), index[attr]? = some keys → ∃ key, key ∈ keys

/-- List one more key under an attribute. -/
def addKey (key : Key) (index : InverseIndex Key Attr) (attr : Attr) : InverseIndex Key Attr :=
  index.insert attr ((index[attr]?.getD ∅).insert key)

/-- Stop listing a key under an attribute, dropping the entry with its last
key.  There is no result when the attribute has no entry. -/
def removeKey? (key : Key) (index : InverseIndex Key Attr) (attr : Attr) :
    Option (InverseIndex Key Attr) :=
  match index[attr]? with
  | none => none
  | some keys =>
      let rest := keys.erase key
      if rest.isEmpty then some (index.erase attr) else some (index.insert attr rest)

def removeKeys? (key : Key) (attrs : List Attr) (index : InverseIndex Key Attr) :
    Option (InverseIndex Key Attr) :=
  attrs.foldlM (removeKey? key) index

variable {index : InverseIndex Key Attr} {carries : Key → Attr → Prop}

theorem exact_empty : Exact (∅ : InverseIndex Key Attr) fun _ _ => False where
  mem_holders key attr := by simp [holders]
  nonempty attr keys found := by simp at found

theorem Exact.congr {other : Key → Attr → Prop} (exact : index.Exact carries)
    (same : ∀ key attr, carries key attr ↔ other key attr) : index.Exact other where
  mem_holders key attr := (exact.mem_holders key attr).trans (same key attr)
  nonempty := exact.nonempty

theorem Exact.getElem?_isSome_iff (exact : index.Exact carries) (attr : Attr) :
    index[attr]?.isSome ↔ ∃ key, carries key attr := by
  constructor
  · intro present
    obtain ⟨keys, found⟩ := Option.isSome_iff_exists.mp present
    obtain ⟨key, member⟩ := exact.nonempty attr keys found
    exact ⟨key, (exact.mem_holders key attr).mp ⟨keys, found, member⟩⟩
  · rintro ⟨key, carried⟩
    obtain ⟨keys, found, _⟩ := (exact.mem_holders key attr).mpr carried
    simp [found]

theorem Exact.addKey (exact : index.Exact carries) (key : Key) (attr : Attr) :
    (addKey key index attr).Exact fun other a => carries other a ∨ other = key ∧ a = attr where
  mem_holders other a := by
    rw [← exact.mem_holders other a]
    simp only [holders, InverseIndex.addKey, Set.mem_ofPred_eq, ExtTreeMap.getElem?_insert]
    by_cases same : attr = a
    · subst same
      cases found : index[attr]? with
      | none => simp [eq_comm (a := key)]
      | some keys => simp [eq_comm (a := key), or_comm]
    · have different : compare attr a ≠ .eq := by simpa using same
      simp [different, Ne.symm same]
  nonempty a keys found := by
    simp only [InverseIndex.addKey, ExtTreeMap.getElem?_insert] at found
    split at found
    · cases found
      exact ⟨key, by simp⟩
    · exact exact.nonempty a keys found

theorem Exact.foldl_addKey (exact : index.Exact carries) (key : Key) (attrs : List Attr) :
    (attrs.foldl (InverseIndex.addKey key) index).Exact
      fun other a => carries other a ∨ other = key ∧ a ∈ attrs := by
  induction attrs generalizing index carries with
  | nil => exact exact.congr (by simp)
  | cons attr rest ih =>
      exact (ih (exact.addKey key attr)).congr fun other a => by
        simp only [List.mem_cons]
        tauto

theorem removeKey?_isSome (key : Key) (attr : Attr) :
    (removeKey? key index attr).isSome = index[attr]?.isSome := by
  cases found : index[attr]? with
  | none => simp [removeKey?, found]
  | some keys =>
      simp only [removeKey?, found]
      split <;> rfl

theorem Exact.removeKey? {after : InverseIndex Key Attr} (exact : index.Exact carries)
    {key : Key} {attr : Attr} (removed : removeKey? key index attr = some after) :
    after.Exact fun other a => carries other a ∧ ¬ (other = key ∧ a = attr) := by
  cases found : index[attr]? with
  | none => simp [InverseIndex.removeKey?, found] at removed
  | some keys =>
      have listed : ∀ other, other ∈ keys ↔ carries other attr := by
        intro other
        rw [← exact.mem_holders other attr]
        simp [holders, found]
      simp only [InverseIndex.removeKey?, found] at removed
      split at removed
      · rename_i emptied
        cases removed
        rw [ExtTreeSet.isEmpty_iff, ExtTreeSet.eq_empty_iff_forall_not_mem] at emptied
        have only : ∀ other, carries other attr → other = key := by
          intro other carried
          have absent := emptied other
          rw [ExtTreeSet.mem_erase] at absent
          by_contra different
          exact absent ⟨by simpa using Ne.symm different, (listed other).mpr carried⟩
        constructor
        · intro other a
          rw [← exact.mem_holders other a]
          simp only [holders, Set.mem_ofPred_eq, ExtTreeMap.getElem?_erase]
          by_cases same : attr = a
          · subst same
            simp only [Std.compare_self, ↓reduceIte, reduceCtorEq, false_and, exists_false,
              and_true, false_iff, not_and, not_not]
            rintro ⟨keys', found', member⟩
            exact only other ((exact.mem_holders other attr).mp ⟨keys', found', member⟩)
          · have different : compare attr a ≠ .eq := by simpa using same
            simp [different, Ne.symm same]
        · intro a keys' found'
          simp only [ExtTreeMap.getElem?_erase] at found'
          split at found'
          · contradiction
          · exact exact.nonempty a keys' found'
      · rename_i remaining
        cases removed
        constructor
        · intro other a
          rw [← exact.mem_holders other a]
          simp only [holders, Set.mem_ofPred_eq, ExtTreeMap.getElem?_insert]
          by_cases same : attr = a
          · subst same
            simp [found, ExtTreeSet.mem_erase, and_comm, eq_comm (a := key)]
          · have different : compare attr a ≠ .eq := by simpa using same
            simp [different, Ne.symm same]
        · intro a keys' found'
          simp only [ExtTreeMap.getElem?_insert] at found'
          split at found'
          · cases found'
            by_contra none
            exact remaining (by
              rw [ExtTreeSet.isEmpty_iff, ExtTreeSet.eq_empty_iff_forall_not_mem]
              exact fun other member => none ⟨other, member⟩)
          · exact exact.nonempty a keys' found'

theorem Exact.removeKeys? {after : InverseIndex Key Attr} (exact : index.Exact carries)
    {key : Key} {attrs : List Attr} (removed : removeKeys? key attrs index = some after) :
    after.Exact fun other a => carries other a ∧ ¬ (other = key ∧ a ∈ attrs) := by
  induction attrs generalizing index carries with
  | nil =>
      cases removed
      exact exact.congr (by simp)
  | cons attr rest ih =>
      obtain ⟨next, first, remaining⟩ := Option.bind_eq_some_iff.mp
        (show (InverseIndex.removeKey? key index attr).bind (InverseIndex.removeKeys? key rest) =
          some after from removed)
      exact (ih (exact.removeKey? first) remaining).congr fun other a => by
        simp only [List.mem_cons]
        tauto

/-- A removal walk finds every entry it looks for exactly when each attribute
is indexed and each attribute met twice is carried by some other key. -/
theorem Exact.removeKeys?_isSome_iff (exact : index.Exact carries) (key : Key)
    (attrs : List Attr) :
    (InverseIndex.removeKeys? key attrs index).isSome ↔
      ∀ attr ∈ attrs, (∃ other, carries other attr) ∧
        (2 ≤ attrs.count attr → ∃ other, other ≠ key ∧ carries other attr) := by
  induction attrs generalizing index carries with
  | nil => simp [InverseIndex.removeKeys?]
  | cons attr rest ih =>
      have step : InverseIndex.removeKeys? key (attr :: rest) index =
          (InverseIndex.removeKey? key index attr).bind (InverseIndex.removeKeys? key rest) := rfl
      rw [step]
      cases first : InverseIndex.removeKey? key index attr with
      | none =>
          have absent : ¬ ∃ other, carries other attr := by
            rw [← exact.getElem?_isSome_iff, ← removeKey?_isSome key attr, first]
            simp
          simp only [Option.bind_none, Option.isSome_none, Bool.false_eq_true, false_iff]
          intro every
          exact absent (every attr (by simp)).1
      | some next =>
          have present : ∃ other, carries other attr := by
            rw [← exact.getElem?_isSome_iff, ← removeKey?_isSome key attr, first]
            rfl
          rw [Option.bind_some, ih (exact.removeKey? first)]
          constructor
          · intro walk a member
            by_cases same : a = attr
            · subst same
              refine ⟨present, fun twice => ?_⟩
              -- The second visit to `a` comes later in the walk.
              have later : a ∈ rest := by
                rw [List.count_cons_self] at twice
                exact List.count_pos_iff.mp (by omega)
              obtain ⟨other, carried, distinct⟩ := (walk a later).1
              exact ⟨other, fun equal => distinct ⟨equal, rfl⟩, carried⟩
            · have later : a ∈ rest := by simpa [same] using member
              obtain ⟨⟨other, carried, _⟩, repeated⟩ := walk a later
              refine ⟨⟨other, carried⟩, fun twice => ?_⟩
              rw [List.count_cons_of_ne (Ne.symm same)] at twice
              obtain ⟨other, distinct, carried, _⟩ := repeated twice
              exact ⟨other, distinct, carried⟩
          · intro walk a later
            have whole := walk a (List.mem_cons_of_mem _ later)
            by_cases same : a = attr
            · subst same
              have twice : 2 ≤ (a :: rest).count a := by
                rw [List.count_cons_self]
                have := List.count_pos_iff.mpr later
                omega
              obtain ⟨other, distinct, carried⟩ := whole.2 twice
              have still : carries other a ∧ ¬ (other = key ∧ a = a) :=
                ⟨carried, fun both => distinct both.1⟩
              exact ⟨⟨other, still⟩, fun _ => ⟨other, distinct, still⟩⟩
            · obtain ⟨⟨other, carried⟩, repeated⟩ := whole
              refine ⟨⟨other, carried, fun both => same both.2⟩, fun twice => ?_⟩
              rw [List.count_cons_of_ne (Ne.symm same)] at repeated
              obtain ⟨other, distinct, carried⟩ := repeated twice
              exact ⟨other, distinct, carried, fun both => same both.2⟩

end InverseIndex

end Lycancoin.Data
