import Mathlib.Data.Set.Insert
import Mathlib.Logic.Function.Basic

namespace Lycancoin.Data

/-! Items that are kept under indexes, and are lent to one holder at a time until they
are gone for good. -/

variable {Index Item Holder : Type} {record : Index → Option Item} {free : Set Index}
  {holder : Holder → Option Index} {gone : Set Item} {place : Index} {item : Item} {who : Holder}

/-- What is free or lent has a record, no two records are of one item, and no record is
of an item that is gone. -/
structure Leased (record : Index → Option Item) (free : Set Index)
    (holder : Holder → Option Index) (gone : Set Item) : Prop where
  listed : ∀ i ∈ free, ∃ item, record i = some item
  held : ∀ who i, holder who = some i → ∃ item, record i = some item
  notFree : ∀ who i, holder who = some i → i ∉ free
  apart : ∀ who other i, holder who = some i → holder other = some i → who = other
  distinct : ∀ i j item, record i = some item → record j = some item → i = j
  notGone : ∀ i item, record i = some item → item ∉ gone

theorem Leased.of_records (distinct : ∀ i j item, record i = some item → record j = some item → i = j)
    (notGone : ∀ i item, record i = some item → item ∉ gone)
    (listed : ∀ i ∈ free, ∃ item, record i = some item) :
    Leased record free (fun _ : Holder => none) gone where
  listed := listed
  held := nofun
  notFree := nofun
  apart := nofun
  distinct := distinct
  notGone := notGone

theorem Leased.withhold (leased : Leased record free holder gone) {fewer : Set Index}
    (subset : fewer ⊆ free) : Leased record fewer holder gone where
  listed := fun i member => leased.listed i (subset member)
  held := leased.held
  notFree := fun who i holds member => leased.notFree who i holds (subset member)
  apart := leased.apart
  distinct := leased.distinct
  notGone := leased.notGone

theorem Leased.list (leased : Leased record free holder gone)
    (unheld : ∀ who, holder who ≠ some place) (known : ∃ item, record place = some item) :
    Leased record (insert place free) holder gone where
  listed := by
    rintro i (rfl | member)
    · exact known
    · exact leased.listed i member
  held := leased.held
  notFree := by
    rintro who i holds (rfl | member)
    · exact unheld who holds
    · exact leased.notFree who i holds member
  apart := leased.apart
  distinct := leased.distinct
  notGone := leased.notGone

theorem Leased.erase (leased : Leased record free holder gone) {erased : Index → Prop}
    [DecidablePred erased] (unheld : ∀ who i, holder who = some i → ¬erased i)
    (notFree : ∀ i ∈ free, ¬erased i) :
    Leased (fun i => if erased i then none else record i) free holder gone where
  listed := by
    intro i member
    rw [if_neg (notFree i member)]
    exact leased.listed i member
  held := by
    intro who i holds
    rw [if_neg (unheld who i holds)]
    exact leased.held who i holds
  notFree := leased.notFree
  apart := leased.apart
  distinct := by
    intro i j item first second
    split_ifs at first second
    exact leased.distinct i j item first second
  notGone := by
    intro i item known
    split_ifs at known
    exact leased.notGone i item known

theorem Leased.lose (leased : Leased record free holder gone) (unknown : ∀ i, record i ≠ some item) :
    Leased record free holder (insert item gone) where
  listed := leased.listed
  held := leased.held
  notFree := leased.notFree
  apart := leased.apart
  distinct := leased.distinct
  notGone := by
    rintro i other known (rfl | before)
    · exact unknown i known
    · exact leased.notGone i other known before

section Records

variable [DecidableEq Index]

/-- A new item under an index that nobody holds. -/
theorem Leased.add (leased : Leased record free holder gone)
    (unheld : ∀ who, holder who ≠ some place) (unknown : ∀ i, record i ≠ some item)
    (present : item ∉ gone) :
    Leased (Function.update record place (some item)) (insert place free) holder gone where
  listed := by
    intro i member
    rcases eq_or_ne i place with rfl | other
    · exact ⟨item, Function.update_self _ _ _⟩
    · rw [Function.update_of_ne other]
      exact leased.listed i (member.resolve_left other)
  held := by
    intro who i holds
    have other : i ≠ place := by
      rintro rfl
      exact unheld who holds
    rw [Function.update_of_ne other]
    exact leased.held who i holds
  notFree := by
    rintro who i holds (rfl | member)
    · exact unheld who holds
    · exact leased.notFree who i holds member
  apart := leased.apart
  distinct := by
    intro i j item' first second
    rw [Function.update_apply] at first second
    split_ifs at first second with atFirst atSecond atSecond
    · exact atFirst.trans atSecond.symm
    · exact absurd (second.trans first.symm) (unknown j)
    · exact absurd (first.trans second.symm) (unknown i)
    · exact leased.distinct i j item' first second
  notGone := by
    intro i item' known
    rw [Function.update_apply] at known
    split_ifs at known
    · exact Option.some.inj known ▸ present
    · exact leased.notGone i item' known

theorem Leased.spend (leased : Leased record free holder gone)
    (unheld : ∀ who, holder who ≠ some place) (notFree : place ∉ free)
    (known : record place = some item) :
    Leased (Function.update record place none) free holder (insert item gone) where
  listed := by
    intro i member
    have other : i ≠ place := by
      rintro rfl
      exact notFree member
    rw [Function.update_of_ne other]
    exact leased.listed i member
  held := by
    intro who i holds
    have other : i ≠ place := by
      rintro rfl
      exact unheld who holds
    rw [Function.update_of_ne other]
    exact leased.held who i holds
  notFree := leased.notFree
  apart := leased.apart
  distinct := by
    intro i j item' first second
    rw [Function.update_apply] at first second
    split_ifs at first second
    exact leased.distinct i j item' first second
  notGone := by
    intro i item' record
    rw [Function.update_apply] at record
    split_ifs at record with other
    rintro (rfl | spent)
    · exact other (leased.distinct i place item' record known)
    · exact leased.notGone i item' record spent

end Records

section Holders

variable [DecidableEq Holder]

theorem Leased.lend (leased : Leased record free holder gone)
    (unheld : ∀ who, holder who ≠ some place) (notFree : place ∉ free)
    (known : record place = some item) (who : Holder) :
    Leased record free (Function.update holder who (some place)) gone where
  listed := leased.listed
  held := by
    intro other i holds
    rw [Function.update_apply] at holds
    split_ifs at holds
    · exact Option.some.inj holds ▸ ⟨item, known⟩
    · exact leased.held other i holds
  notFree := by
    intro other i holds
    rw [Function.update_apply] at holds
    split_ifs at holds
    · exact Option.some.inj holds ▸ notFree
    · exact leased.notFree other i holds
  apart := by
    intro first second i holds holdsToo
    rw [Function.update_apply] at holds holdsToo
    split_ifs at holds holdsToo with isFirst isSecond isSecond
    · exact isFirst.trans isSecond.symm
    · exact absurd (holdsToo.trans holds.symm) (unheld second)
    · exact absurd (holds.trans holdsToo.symm) (unheld first)
    · exact leased.apart first second i holds holdsToo
  distinct := leased.distinct
  notGone := leased.notGone

/-- A holder that lets its index go. -/
theorem Leased.release (leased : Leased record free holder gone) (who : Holder) :
    Leased record free (Function.update holder who none) gone where
  listed := leased.listed
  held := by
    intro other i holds
    rw [Function.update_apply] at holds
    split_ifs at holds
    exact leased.held other i holds
  notFree := by
    intro other i holds
    rw [Function.update_apply] at holds
    split_ifs at holds
    exact leased.notFree other i holds
  apart := by
    intro first second i holds holdsToo
    rw [Function.update_apply] at holds holdsToo
    split_ifs at holds holdsToo
    exact leased.apart first second i holds holdsToo
  distinct := leased.distinct
  notGone := leased.notGone

end Holders

end Lycancoin.Data
