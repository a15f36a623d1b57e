import Mathlib

namespace Lycancoin.Data

variable {α : Type} {fill : α} {file written : List α} {offset i : Nat}

/-- A file that is written to from an offset on.  Room between its end and the
offset is filled up. -/
def overwrite (fill : α) (file : List α) (offset : Nat) (written : List α) : List α :=
  file.take offset ++ List.replicate (offset - file.length) fill ++ written ++
    file.drop (offset + written.length)

theorem length_front (fill : α) (file : List α) (offset : Nat) :
    (file.take offset ++ List.replicate (offset - file.length) fill).length = offset := by
  rw [List.length_append, List.length_take, List.length_replicate]
  omega

theorem drop_overwrite (fill : α) (file : List α) (offset : Nat) (written : List α) :
    (overwrite fill file offset written).drop offset =
      written ++ file.drop (offset + written.length) := by
  rw [overwrite, List.append_assoc]
  exact List.drop_left' (length_front fill file offset)

theorem take_drop_overwrite (fill : α) (file : List α) (offset : Nat) (written : List α) :
    ((overwrite fill file offset written).drop offset).take written.length = written := by
  rw [drop_overwrite]
  exact List.take_left

theorem getElem?_overwrite_outside (outside : i < offset ∨ offset + written.length ≤ i)
    (inside : i < file.length) : (overwrite fill file offset written)[i]? = file[i]? := by
  rcases outside with before | behind
  · have front : i < (file.take offset).length := by
      rw [List.length_take]
      omega
    rw [overwrite, List.append_assoc, List.append_assoc, List.getElem?_append_left front,
      List.getElem?_take_of_lt before]
  · have whole : (file.take offset ++ List.replicate (offset - file.length) fill ++
        written).length = offset + written.length := by
      rw [List.length_append, length_front]
    rw [overwrite, List.getElem?_append_right (by rw [whole]; exact behind), whole,
      List.getElem?_drop, Nat.add_sub_cancel' behind]

end Lycancoin.Data

namespace Lycancoin.Data

/-! A buffer that is written to round and round. -/

variable {α : Type} {ring stream : List α} {count i size position : Nat}

/-- The ring holds as many of the first `count` items of the stream as it has room
for, the latest ones. -/
def RingHolds (ring stream : List α) (count : Nat) : Prop :=
  ∀ i, i < count → count ≤ i + ring.length → ring[i % ring.length]? = stream[i]?

theorem add_mod_of_lt {ringSize : Nat} (inside : position % ringSize + i < ringSize) :
    (position + i) % ringSize = position % ringSize + i := by
  rw [Nat.add_mod, Nat.mod_eq_of_lt (by omega : i < ringSize), Nat.mod_eq_of_lt inside]

/-- A place shortly before another one, less than a whole round away. -/
theorem mod_of_before (position size : Nat) {ringSize back : Nat} (some : 0 < back) (round : back + size ≤ ringSize)
    (enough : back ≤ position) :
    (position - back) % ringSize < position % ringSize ∨
      position % ringSize + size ≤ (position - back) % ringSize := by
  have bound := Nat.mod_lt position (by omega : 0 < ringSize)
  have split := Nat.div_add_mod position ringSize
  generalize position / ringSize = rounds at split
  generalize position % ringSize = place at *
  rcases Nat.lt_or_ge place back with wraps | stays
  · cases rounds with
    | zero =>
        rw [Nat.mul_zero] at split
        omega
    | succ rounds =>
        right
        rw [Nat.mul_succ] at split
        have known : position - back = ringSize * rounds + (ringSize + place - back) := by omega
        rw [known, Nat.mul_add_mod, Nat.mod_eq_of_lt (by omega)]
        omega
  · left
    have known : position - back = ringSize * rounds + (place - back) := by omega
    rw [known, Nat.mul_add_mod, Nat.mod_eq_of_lt (by omega)]
    omega

theorem getElem?_overwrite_inside {fill : α} {file written : List α} {offset : Nat}
    (inside : i < written.length) : (overwrite fill file offset written)[offset + i]? = written[i]? := by
  have there := congrArg (fun items => items[i]?) (drop_overwrite fill file offset written)
  simp only [List.getElem?_drop] at there
  rw [there, List.getElem?_append_left inside]

theorem length_overwrite (fill : α) {file written : List α} {offset : Nat}
    (fits : offset + written.length ≤ file.length) :
    (overwrite fill file offset written).length = file.length := by
  rw [overwrite, List.length_append, List.length_append, length_front, List.length_drop]
  omega

/-- The next items of the stream are written behind the ones before. -/
theorem RingHolds.write (holds : RingHolds ring stream count) (fill : α)
    (fits : count % ring.length + size ≤ ring.length) (enough : count + size ≤ stream.length) :
    RingHolds (overwrite fill ring (count % ring.length) ((stream.drop count).take size)) stream
      (count + size) := by
  have written : ((stream.drop count).take size).length = size := by
    rw [List.length_take, List.length_drop]
    omega
  have inRing : count % ring.length + ((stream.drop count).take size).length ≤ ring.length := by
    rw [written]
    exact fits
  have sameLength := length_overwrite fill inRing
  intro i earlier recent
  rw [sameLength] at recent ⊢
  rcases Nat.lt_or_ge i count with old | new
  · have outside := mod_of_before count size (by omega : 0 < count - i)
      (by omega : count - i + size ≤ ring.length) (by omega)
    rw [Nat.sub_sub_self old.le] at outside
    rw [getElem?_overwrite_outside (by rw [written]; exact outside)
      (Nat.mod_lt i (by omega)), holds i old (by omega)]
  · obtain ⟨ahead, rfl⟩ := Nat.exists_eq_add_of_le new
    rw [add_mod_of_lt (by omega), getElem?_overwrite_inside (by omega),
      List.getElem?_take_of_lt (by omega), List.getElem?_drop]

/-- One item more takes the next place. -/
theorem RingHolds.set (holds : RingHolds ring stream stream.length) (nonempty : 0 < ring.length)
    (item : α) :
    RingHolds (ring.set (stream.length % ring.length) item) (stream ++ [item])
      (stream.length + 1) := by
  intro i earlier recent
  rw [List.length_set] at recent ⊢
  rcases Nat.lt_or_ge i stream.length with old | new
  · have outside := mod_of_before stream.length 1 (by omega : 0 < stream.length - i)
      (by omega : stream.length - i + 1 ≤ ring.length) (by omega)
    rw [Nat.sub_sub_self old.le] at outside
    rw [List.getElem?_set_ne (by omega), holds i old (by omega), List.getElem?_append_left old]
  · obtain rfl : i = stream.length := by omega
    rw [List.getElem?_set_self (Nat.mod_lt _ nonempty), List.getElem?_concat_length]

theorem RingHolds.exists_recent (holds : RingHolds ring stream count) {place : Nat}
    (inside : place < ring.length) (written : place < count) :
    ∃ i, i < count ∧ count ≤ i + ring.length ∧ ring[place]? = stream[i]? := by
  have split := Nat.div_add_mod (count - 1 - place) ring.length
  have bound := Nat.mod_lt (count - 1 - place) (by omega : 0 < ring.length)
  have wraps : (place + ring.length * ((count - 1 - place) / ring.length)) % ring.length = place := by
    rw [Nat.add_mul_mod_self_left, Nat.mod_eq_of_lt inside]
  generalize ring.length * ((count - 1 - place) / ring.length) = rounds at split wraps
  have recent : count ≤ place + rounds + ring.length := by omega
  have here := holds (place + rounds) (by omega) recent
  rw [wraps] at here
  exact ⟨place + rounds, by omega, recent, here⟩

/-- Items that are still held are read. -/
theorem RingHolds.read (holds : RingHolds ring stream count)
    (fits : position % ring.length + size ≤ ring.length) (written : position + size ≤ count)
    (recent : count ≤ position + ring.length) :
    (ring.drop (position % ring.length)).take size = (stream.drop position).take size := by
  apply List.ext_getElem?
  intro i
  rcases Nat.lt_or_ge i size with inside | outside
  · rw [List.getElem?_take_of_lt inside, List.getElem?_take_of_lt inside, List.getElem?_drop,
      List.getElem?_drop, ← add_mod_of_lt (by omega)]
    exact holds (position + i) (by omega) (by omega)
  · rw [List.getElem?_take_eq_none outside, List.getElem?_take_eq_none outside]

end Lycancoin.Data
