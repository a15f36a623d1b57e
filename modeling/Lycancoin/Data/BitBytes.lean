import Mathlib

namespace Lycancoin.Data

/-! Lists of bits that are packed into bytes, the lowest bit first. -/

def byteOf (bit : Nat → Bool) : UInt8 :=
  (List.range 8).foldl (fun byte i => if bit i then byte ||| UInt8.ofNat (1 <<< i) else byte) 0

def bitsOf (byte : UInt8) : List Bool :=
  (List.range 8).map fun i => byte &&& UInt8.ofNat (1 <<< i) != 0

variable {bit other : Nat → Bool}

theorem byteOf_bools (b₀ b₁ b₂ b₃ b₄ b₅ b₆ b₇ : Bool) :
    bitsOf (byteOf fun i => [b₀, b₁, b₂, b₃, b₄, b₅, b₆, b₇].getD i false) =
        [b₀, b₁, b₂, b₃, b₄, b₅, b₆, b₇] ∧
      ((byteOf fun i => [b₀, b₁, b₂, b₃, b₄, b₅, b₆, b₇].getD i false) = 0 ↔
        [b₀, b₁, b₂, b₃, b₄, b₅, b₆, b₇].all (! ·) = true) := by
  revert b₀ b₁ b₂ b₃ b₄ b₅ b₆ b₇
  decide

theorem byteOf_congr (same : ∀ i < 8, bit i = other i) : byteOf bit = byteOf other := by
  unfold byteOf
  apply List.foldl_ext
  intro byte i member
  rw [same i (List.mem_range.mp member)]

theorem byteOf_eq (bit : Nat → Bool) :
    byteOf bit = byteOf fun i => ((List.range 8).map bit).getD i false :=
  byteOf_congr fun i small => by rw [List.getD_eq_getElem?_getD, List.getElem?_map,
    List.getElem?_range small, Option.map_some, Option.getD_some]

@[simp] theorem bitsOf_byteOf (bit : Nat → Bool) : bitsOf (byteOf bit) = (List.range 8).map bit := by
  rw [byteOf_eq]
  exact (byteOf_bools _ _ _ _ _ _ _ _).1

theorem byteOf_eq_zero_iff : byteOf bit = 0 ↔ ∀ i < 8, bit i = false := by
  have zero : byteOf bit = 0 ↔ ((List.range 8).map bit).all (! ·) = true := by
    rw [byteOf_eq]
    exact (byteOf_bools _ _ _ _ _ _ _ _).2
  simp [zero, List.all_map]

@[simp] theorem length_bitsOf (byte : UInt8) : (bitsOf byte).length = 8 := by
  rw [bitsOf, List.length_map, List.length_range]

/-- The bits of bytes that stand in a row. -/
theorem flatMap_range_eight {α : Type} (value : Nat → α) (count : Nat) :
    ((List.range count).flatMap fun b => (List.range 8).map fun i => value (b * 8 + i)) =
      (List.range (count * 8)).map value := by
  induction count with
  | zero => rfl
  | succ count ih =>
      rw [@List.range_succ count, List.flatMap_append, ih, Nat.succ_mul, List.range_add, List.map_append,
        List.map_map]
      simp

def packBits (bits : List Bool) : List UInt8 :=
  (List.range ((bits.length + 7) / 8)).map fun b => byteOf fun i => bits.getD (b * 8 + i) false

@[simp] theorem length_packBits (bits : List Bool) :
    (packBits bits).length = (bits.length + 7) / 8 := by
  rw [packBits, List.length_map, List.length_range]

/-- The last byte is filled up. -/
theorem flatMap_packBits (bits : List Bool) :
    (packBits bits).flatMap bitsOf =
      bits ++ List.replicate ((bits.length + 7) / 8 * 8 - bits.length) false := by
  have unpacked : (packBits bits).flatMap bitsOf =
      (List.range ((bits.length + 7) / 8 * 8)).map fun p => bits.getD p false := by
    rw [packBits, List.flatMap_map, ← flatMap_range_eight]
    simp only [bitsOf_byteOf]
  rw [unpacked]
  apply List.ext_getElem?
  intro p
  by_cases inside : p < bits.length
  · rw [List.getElem?_append_left inside, List.getElem?_map, List.getElem?_range (by omega),
      Option.map_some, List.getD_eq_getElem?_getD, List.getElem?_eq_getElem inside,
      Option.getD_some]
  · have past := Nat.le_of_not_lt inside
    rw [List.getElem?_append_right past, List.getElem?_replicate, List.getElem?_map]
    by_cases padding : p < (bits.length + 7) / 8 * 8
    · rw [List.getElem?_range padding, Option.map_some, List.getD_eq_getElem?_getD,
        List.getElem?_eq_none past, Option.getD_none, if_pos (by omega)]
    · rw [List.getElem?_eq_none (by rw [List.length_range]; omega), Option.map_none,
        if_neg (by omega)]

end Lycancoin.Data
