import Mathlib.Data.List.Infix
import Mathlib.Data.List.TakeDrop
import Mathlib.Data.Nat.Bitwise
import Mathlib.Data.Set.Lattice

namespace Lycancoin.Data

/-! Sets that are kept by marks only.

Every key has its places.  To insert a key marks its places, and a key is taken for a member when
all its places are marked, whoever marked them.
-/

namespace Bloom

variable {κ : Type*} {places : κ → List Nat} {marks more : Set Nat} {key other : κ}

def Member (places : κ → List Nat) (marks : Set Nat) (key : κ) : Prop :=
  ∀ place ∈ places key, place ∈ marks

def insert (places : κ → List Nat) (marks : Set Nat) (key : κ) : Set Nat :=
  marks ∪ {place | place ∈ places key}

theorem member_mono (grows : marks ⊆ more) (member : Member places marks key) :
    Member places more key :=
  fun place isPlace => grows (member place isPlace)

theorem member_insert_self : Member places (insert places marks key) key :=
  fun _ isPlace => Or.inr isPlace

def marksOf (places : κ → List Nat) (keys : List κ) : Set Nat :=
  {place | ∃ key ∈ keys, place ∈ places key}

@[simp] theorem marksOf_nil : marksOf places ([] : List κ) = ∅ := by
  simp [marksOf]

theorem marksOf_concat (keys : List κ) :
    marksOf places (keys ++ [key]) = insert places (marksOf places keys) key := by
  ext place
  simp [marksOf, insert, or_and_right, exists_or]

theorem member_marksOf {keys : List κ} (isKey : key ∈ keys) :
    Member places (marksOf places keys) key :=
  fun _ isPlace => ⟨key, isKey, isPlace⟩

theorem member_marksOf_of_forall_eq {keys : List κ} (same : ∀ key ∈ keys, key = other)
    (member : Member places (marksOf places keys) key) :
    ∀ place ∈ places key, place ∈ places other := by
  intro place isPlace
  obtain ⟨first, isFirst, marked⟩ := member place isPlace
  rw [same first isFirst] at marked
  exact marked

/-! ## Marks as the bits of bytes -/

/-- The bits that are set, counted from the lowest bit of the first byte. -/
def bits (bytes : List UInt8) : Set Nat :=
  {place | ∃ byte, bytes[place / 8]? = some byte ∧ byte.toNat.testBit (place % 8) = true}

variable {bytes : List UInt8} {byte : UInt8} {place : Nat}

theorem bits_of_zero (zero : ∀ byte ∈ bytes, byte = 0) : bits bytes = ∅ := by
  rw [Set.eq_empty_iff_forall_notMem]
  intro place marked
  obtain ⟨byte, found, set⟩ := marked
  rw [zero byte (List.mem_of_getElem? found)] at set
  simp at set

theorem and_mask_eq_zero_iff {i : Nat} (small : i < 8) :
    byte &&& UInt8.ofNat (1 <<< i) = 0 ↔ byte.toNat.testBit i = false := by
  have table : ∀ (byte : Fin 256) (i : Fin 8),
      UInt8.ofNat byte &&& UInt8.ofNat (1 <<< i.val) = 0 ↔ byte.val.testBit i.val = false := by
    decide +kernel
  have entry := table ⟨byte.toNat, byte.toNat_lt⟩ ⟨i, small⟩
  rwa [UInt8.ofNat_toNat] at entry

theorem mem_bits_iff (found : bytes[place / 8]? = some byte) :
    place ∈ bits bytes ↔ byte &&& UInt8.ofNat (1 <<< (place % 8)) ≠ 0 := by
  have small : place % 8 < 8 := Nat.mod_lt _ (by decide)
  rw [ne_eq, and_mask_eq_zero_iff small, Bool.not_eq_false]
  constructor
  · intro marked
    obtain ⟨own, found', set⟩ := marked
    rw [found] at found'
    cases found'
    exact set
  · intro set
    exact ⟨byte, found, set⟩

theorem toNat_or_mask {i : Nat} (small : i < 8) (j : Nat) :
    (byte ||| UInt8.ofNat (1 <<< i)).toNat.testBit j = (byte.toNat.testBit j || decide (i = j)) := by
  have fits : 1 <<< i < UInt8.size := by
    rw [Nat.one_shiftLeft]
    exact Nat.pow_lt_pow_right (by decide) small
  have mask : (UInt8.ofNat (1 <<< i)).toNat = 2 ^ i := by
    rw [UInt8.toNat_ofNat_of_lt' fits, Nat.one_shiftLeft]
  rw [UInt8.toNat_or, mask, Nat.testBit_or, Nat.testBit_two_pow]

theorem bits_set (found : bytes[place / 8]? = some byte) :
    bits (bytes.set (place / 8) (byte ||| UInt8.ofNat (1 <<< (place % 8)))) =
      bits bytes ∪ {place} := by
  have small : place % 8 < 8 := Nat.mod_lt _ (by decide)
  have within := (List.getElem?_eq_some_iff.mp found).1
  ext target
  by_cases here : place / 8 = target / 8
  · have read : (bytes.set (place / 8) (byte ||| UInt8.ofNat (1 <<< (place % 8))))[target / 8]? =
        some (byte ||| UInt8.ofNat (1 <<< (place % 8))) := by
      rw [← here, List.getElem?_set_self within]
    have own : bytes[target / 8]? = some byte := by rw [← here, found]
    have same : place % 8 = target % 8 ↔ target = place := by omega
    change (∃ byte, _ = some byte ∧ _) ↔ (∃ byte, _ = some byte ∧ _) ∨ target = place
    rw [read, own]
    simp only [Option.some.injEq, exists_eq_left', toNat_or_mask small, Bool.or_eq_true,
      decide_eq_true_eq, same]
  · have read : (bytes.set (place / 8) (byte ||| UInt8.ofNat (1 <<< (place % 8))))[target / 8]? =
        bytes[target / 8]? := List.getElem?_set_ne here
    have apart : target ≠ place := fun same => here (by rw [same])
    simp [bits, read, apart]

end Bloom

/-! Two collections that take the same items and are emptied in turn.

The first is emptied at the start of every period, the second at its half, and the one that was
not emptied last is the one to ask.
-/

/-- What each collection holds, and how many items of the period have come. -/
structure RollingWindow (κ : Type*) where
  first : List κ
  second : List κ
  count : Nat

namespace RollingWindow

variable {κ : Type*} {period half : Nat} {window : RollingWindow κ}

def start : RollingWindow κ := ⟨[], [], 0⟩

def push (period half : Nat) (window : RollingWindow κ) (item : κ) : RollingWindow κ where
  first := (if window.count = 0 then [] else window.first) ++ [item]
  second := (if window.count ≠ 0 ∧ window.count = half then [] else window.second) ++ [item]
  count := if window.count + 1 = period then 0 else window.count + 1

def pushAll (period half : Nat) (items : List κ) (window : RollingWindow κ) : RollingWindow κ :=
  items.foldl (push period half) window

def visible (half : Nat) (window : RollingWindow κ) : List κ :=
  if window.count < half then window.second else window.first

/-- Both collections hold the last items, so many of them at least. -/
structure Covers (half : Nat) (items : List κ) (window : RollingWindow κ) : Prop where
  count : window.count < 2 * half
  first : window.first <:+ items
  second : window.second <:+ items
  firstLength : min items.length window.count ≤ window.first.length
  secondEarly : window.count ≤ half → min items.length (window.count + half) ≤ window.second.length
  secondLate : half < window.count → min items.length (window.count - half) ≤ window.second.length

theorem covers_start (positive : 0 < half) : Covers half [] (start : RollingWindow κ) where
  count := by
    change 0 < 2 * half
    omega
  first := List.suffix_rfl
  second := List.suffix_rfl
  firstLength := Nat.le_of_eq (Nat.zero_min _)
  secondEarly := fun _ => Nat.le_of_eq (Nat.zero_min _)
  secondLate := fun _ => Nat.le_of_eq (Nat.zero_min _)

theorem suffix_concat {held items : List κ} (suffix : held <:+ items) (item : κ) :
    held ++ [item] <:+ items ++ [item] := by
  obtain ⟨before, rfl⟩ := suffix
  exact ⟨before, by rw [List.append_assoc]⟩

/-- One more item, in the middle of a half, at the half, and at the end of the period. -/
theorem Covers.push {items : List κ} (covers : Covers half items window) (item : κ) :
    Covers half (items ++ [item]) (window.push (2 * half) half item) := by
  have bound := covers.count
  have firstLength := covers.firstLength
  have secondEarly := covers.secondEarly
  have secondLate := covers.secondLate
  have size : (items ++ [item]).length = items.length + 1 := by simp
  have nothing : [] <:+ items := List.nil_suffix
  constructor
  · simp only [RollingWindow.push]
    split <;> omega
  · simp only [RollingWindow.push]
    split
    · exact suffix_concat nothing item
    · exact suffix_concat covers.first item
  · simp only [RollingWindow.push]
    split
    · exact suffix_concat nothing item
    · exact suffix_concat covers.second item
  · simp only [RollingWindow.push, size, List.length_append, List.length_singleton,
      apply_ite List.length, List.length_nil]
    split_ifs <;> omega
  · simp only [RollingWindow.push, size, List.length_append, List.length_singleton,
      apply_ite List.length, List.length_nil]
    split_ifs <;> omega
  · simp only [RollingWindow.push, size, List.length_append, List.length_singleton,
      apply_ite List.length, List.length_nil]
    split_ifs <;> omega

theorem covers_pushAll (positive : 0 < half) (items : List κ) :
    Covers half items (start.pushAll (2 * half) half items) := by
  induction items using List.reverseRecOn with
  | nil => exact covers_start positive
  | append_singleton items item ih =>
      rw [pushAll, List.foldl_append]
      exact ih.push item

/-- The collection to ask holds the last items of half a period. -/
theorem mem_visible (positive : 0 < half) {items : List κ} {item : κ}
    (recent : item ∈ items.drop (items.length - half)) :
    item ∈ (start.pushAll (2 * half) half items).visible half := by
  have covers := covers_pushAll positive items
  generalize start.pushAll (2 * half) half items = window at covers
  have enough : ∀ held : List κ, held <:+ items → min items.length half ≤ held.length →
      item ∈ held := by
    intro held suffix long
    obtain ⟨before, rfl⟩ := suffix
    rw [List.length_append] at recent long
    rw [List.drop_append, List.drop_eq_nil_of_le (by omega), List.nil_append] at recent
    exact List.mem_of_mem_drop recent
  unfold visible
  split
  · rename_i early
    have long := covers.secondEarly (by omega)
    exact enough _ covers.second (by omega)
  · rename_i late
    have long := covers.firstLength
    exact enough _ covers.first (by omega)

/-! ## One period -/

/-- Over one period the first collection holds what came in it, and the second what came from its
half on. -/
theorem pushAll_period {items : List κ} (nonempty : items ≠ []) (short : items.length ≤ period) :
    (start.pushAll period half items).first = items ∧
      (start.pushAll period half items).count = (if items.length = period then 0 else items.length) ∧
      (start.pushAll period half items).second =
        (if half ≠ 0 ∧ half < items.length then items.drop half else items) := by
  induction items using List.reverseRecOn with
  | nil => contradiction
  | append_singleton items item ih =>
      have size : (items ++ [item]).length = items.length + 1 := by simp
      rw [size] at short
      have step : start.pushAll period half (items ++ [item]) =
          push period half (start.pushAll period half items) item := by
        rw [pushAll, List.foldl_append]
        rfl
      rw [step]
      by_cases empty : items = []
      · subst empty
        simp [pushAll, push, start, eq_comm]
      · obtain ⟨first, count, second⟩ := ih empty (by omega)
        have positive := List.length_pos_iff.mpr empty
        rw [if_neg (by omega)] at count
        simp only [push, first, count, second, size]
        rw [if_neg (by omega)]
        refine ⟨rfl, trivial, ?_⟩
        by_cases atHalf : items.length = half
        · rw [if_pos (by omega), if_pos (by omega), ← atHalf, List.drop_append, List.drop_length,
            Nat.sub_self, List.drop_zero]
        · rw [if_neg (by omega)]
          by_cases late : half ≠ 0 ∧ half < items.length
          · rw [if_pos late, if_pos (by omega), List.drop_append_of_le_length (by omega)]
          · rw [if_neg late, if_neg (by omega)]

/-- At the end of a period the collection to ask holds what came from the half on. -/
theorem visible_of_period {items : List κ} (size : items.length = period) (positive : half ≠ 0)
    (within : half < period) : (start.pushAll period half items).visible half = items.drop half := by
  have nonempty : items ≠ [] := by
    rw [← List.length_pos_iff]
    omega
  obtain ⟨-, count, second⟩ := @pushAll_period _ period half items nonempty (Nat.le_of_eq size)
  rw [visible, count, if_pos size, if_pos (Nat.pos_of_ne_zero positive), second,
    if_pos ⟨positive, by omega⟩]

theorem visible_of_half_zero {items : List κ} (size : items.length = period) (item : κ) :
    (start.pushAll period 0 (items ++ [item])).visible 0 = [item] := by
  have begins : (start.pushAll period 0 items).count = 0 := by
    by_cases nonempty : items = []
    · rw [nonempty]
      rfl
    · rw [(@pushAll_period _ period 0 items nonempty (Nat.le_of_eq size)).2.1, if_pos size]
  have step : start.pushAll period 0 (items ++ [item]) =
      push period 0 (start.pushAll period 0 items) item := by
    rw [pushAll, List.foldl_append]
    rfl
  rw [step, visible, if_neg (by omega)]
  simp only [push, begins, ↓reduceIte, List.nil_append]

theorem visible_pushAll_ne_nil {items : List κ} (nonempty : items ≠ []) :
    (start.pushAll period half items).visible half ≠ [] := by
  obtain ⟨before, item, rfl⟩ := (List.eq_nil_or_concat' items).resolve_left nonempty
  rw [pushAll, List.foldl_append, List.foldl_cons, List.foldl_nil, visible]
  split
  · simp [push]
  · simp [push]

end RollingWindow

end Lycancoin.Data
