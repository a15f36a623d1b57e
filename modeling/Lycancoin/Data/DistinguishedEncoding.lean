import Mathlib.Data.Nat.Digits.Lemmas

namespace Lycancoin.Data.DistinguishedEncoding

variable {bytes rest : List UInt8} {first : UInt8}

/-- The digits of a number to the base 256, the highest first. -/
def digits (number : Nat) : List UInt8 := ((Nat.digits 256 number).map UInt8.ofNat).reverse

/-- The bytes of an INTEGER that is not negative: as few as leave the top bit free. -/
def contents (number : Nat) : List UInt8 :=
  match digits number with
  | [] => [0]
  | first :: rest => if first.toNat < 128 then first :: rest else 0 :: first :: rest

/-- An INTEGER whose length fits the short form. -/
def integer (number : Nat) : List UInt8 :=
  0x02 :: UInt8.ofNat (contents number).length :: contents number

/-- A SEQUENCE whose length fits the short form. -/
def sequenceOf (items : List UInt8) : List UInt8 := 0x30 :: UInt8.ofNat items.length :: items

def value (bytes : List UInt8) : Nat := Nat.ofDigits 256 (bytes.reverse.map UInt8.toNat)

theorem digits_value (nonzero : first ≠ 0) : digits (value (first :: rest)) = first :: rest := by
  have identity : UInt8.ofNat ∘ UInt8.toNat = id := by
    funext byte
    simp
  rw [digits, value, Nat.digits_ofDigits 256 (by decide), List.map_map, identity, List.map_id,
    List.reverse_reverse]
  · intro digit member
    obtain ⟨byte, -, rfl⟩ := List.mem_map.1 member
    exact byte.toNat_lt
  · intro nonempty
    simpa [← UInt8.toNat_inj] using nonzero

/-- No byte less would do for the number, and its top bit is free. -/
def Shortest : List UInt8 → Prop
  | [] => False
  | [byte] => byte.toNat < 128
  | first :: second :: _ => first.toNat < 128 ∧ (first = 0 → 128 ≤ second.toNat)

theorem Shortest.length_pos (shortest : Shortest bytes) : 0 < bytes.length := by
  cases bytes with
  | nil => exact shortest.elim
  | cons first rest => exact Nat.succ_pos _

theorem head_digits {number : Nat} (split : digits number = first :: rest) : first ≠ 0 := by
  have nonzero : number ≠ 0 := by
    rintro rfl
    simp [digits] at split
  have top := Nat.getLast_digit_ne_zero 256 nonzero
  have bound := Nat.digits_lt_base (b := 256) (m := number) (by decide)
    (List.getLast_mem (Nat.digits_ne_nil_iff_ne_zero.2 nonzero))
  have head : (digits number).head? =
      some (UInt8.ofNat ((Nat.digits 256 number).getLast
        (Nat.digits_ne_nil_iff_ne_zero.2 nonzero))) := by
    simp only [digits, List.head?_reverse, List.getLast?_map,
      List.getLast?_eq_some_getLast (Nat.digits_ne_nil_iff_ne_zero.2 nonzero), Option.map_some]
  rw [split, List.head?_cons, Option.some.injEq] at head
  rw [head, ne_eq, ← UInt8.toNat_inj, UInt8.toNat_ofNat', Nat.mod_eq_of_lt bound]
  exact top

theorem shortest_contents (number : Nat) : Shortest (contents number) := by
  unfold contents
  cases split : digits number with
  | nil => simp [Shortest]
  | cons first rest =>
      have nonzero := head_digits split
      by_cases free : first.toNat < 128
      · cases rest with
        | nil => simp [free, Shortest]
        | cons second rest => simp [free, Shortest, nonzero]
      · simp [free, Shortest, not_lt.1 free]

theorem shortest_iff : Shortest bytes ↔ ∃ number, bytes = contents number := by
  constructor
  · intro shortest
    cases bytes with
    | nil => exact shortest.elim
    | cons first rest =>
        by_cases zero : first = 0
        · subst zero
          cases rest with
          | nil => exact ⟨0, by simp [contents, digits]⟩
          | cons second rest =>
              have large : 128 ≤ second.toNat := shortest.2 rfl
              have nonzero : second ≠ 0 := by
                rintro rfl
                simp at large
              refine ⟨value (second :: rest), ?_⟩
              simp only [contents, digits_value nonzero, if_neg (not_lt.2 large)]
        · have free : first.toNat < 128 := by
            cases rest with
            | nil => exact shortest
            | cons second rest => exact shortest.1
          exact ⟨value (first :: rest), by simp only [contents, digits_value zero, if_pos free]⟩
  · rintro ⟨number, rfl⟩
    exact shortest_contents number

end Lycancoin.Data.DistinguishedEncoding
