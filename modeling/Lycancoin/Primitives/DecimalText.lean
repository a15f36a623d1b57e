import Lycancoin.Primitives.Amount
import Mathlib

namespace Lycancoin

def hexDigit (c : Char) : Option Nat :=
  if '0' ≤ c ∧ c ≤ '9' then some (c.toNat - '0'.toNat)
  else if 'a' ≤ c ∧ c ≤ 'f' then some (c.toNat - 'a'.toNat + 0xa)
  else if 'A' ≤ c ∧ c ≤ 'F' then some (c.toNat - 'A'.toNat + 0xa)
  else none

def hexByte (val : UInt8) : List Char :=
  [Nat.digitChar (val.toNat / 16), Nat.digitChar (val.toNat % 16)]

def hexStr (bytes : List UInt8) : List Char := bytes.flatMap hexByte

def isHex (str : List Char) : Bool :=
  str.all (fun c => (hexDigit c).isSome) && decide (str.length > 0) && decide (str.length % 2 = 0)

/-- `isspace`. -/
def isSpace (c : Char) : Bool := c = ' ' || (decide ('\t' ≤ c) && decide (c ≤ '\r'))

def parseHex : List Char → List UInt8
  | [] => []
  | [_] => []
  | c :: d :: rest =>
      if isSpace c then parseHex (d :: rest)
      else
        match hexDigit c, hexDigit d with
        | some high, some low => UInt8.ofNat (16 * high + low) :: parseHex rest
        | _, _ => []

theorem hexByte_spec (val : UInt8) :
    ∃ c d high low, hexByte val = [c, d] ∧ isSpace c = false ∧ hexDigit c = some high ∧
      hexDigit d = some low ∧ UInt8.ofNat (16 * high + low) = val := by
  have all : ∀ n < 16, isSpace (Nat.digitChar n) = false ∧ hexDigit (Nat.digitChar n) = some n := by
    decide
  have bound := val.toNat_lt
  obtain ⟨notSpace, high⟩ := all (val.toNat / 16) (by omega)
  obtain ⟨-, low⟩ := all (val.toNat % 16) (Nat.mod_lt _ (by decide))
  refine ⟨_, _, _, _, rfl, notSpace, high, low, ?_⟩
  rw [Nat.div_add_mod]
  exact UInt8.ofNat_toNat

/-- What is written in front is read in front. -/
theorem parseHex_hexStr_append (bytes : List UInt8) (text : List Char) :
    parseHex (hexStr bytes ++ text) = bytes ++ parseHex text := by
  induction bytes with
  | nil => rfl
  | cons val rest ih =>
      obtain ⟨c, d, high, low, written, notSpace, isHigh, isLow, same⟩ := hexByte_spec val
      simp only [hexStr, List.flatMap_cons, written, List.cons_append, List.nil_append, parseHex,
        notSpace, isHigh, isLow, same, Bool.false_eq_true, if_false]
      exact congrArg (val :: ·) ih

theorem parseHex_hexStr (bytes : List UInt8) : parseHex (hexStr bytes) = bytes := by
  simpa [parseHex] using parseHex_hexStr_append bytes []

theorem length_hexStr (bytes : List UInt8) : (hexStr bytes).length = 2 * bytes.length := by
  induction bytes with
  | nil => rfl
  | cons val rest ih =>
      simp only [hexStr, List.flatMap_cons, List.length_append, List.length_cons] at ih ⊢
      rw [ih]
      simp only [hexByte, List.length_cons, List.length_nil]
      omega

theorem hexDigit_of_mem_hexStr {bytes : List UInt8} {c : Char} (member : c ∈ hexStr bytes) :
    (hexDigit c).isSome = true := by
  obtain ⟨val, -, place⟩ := List.mem_flatMap.1 member
  obtain ⟨c', d', high, low, written, -, isHigh, isLow, -⟩ := hexByte_spec val
  rw [written] at place
  simp only [List.mem_cons, List.not_mem_nil, or_false] at place
  cases place with
  | inl first => simp [first, isHigh]
  | inr second => simp [second, isLow]

theorem isHex_hexStr_append {bytes : List UInt8} {text : List Char} (nonempty : bytes ≠ []) :
    isHex (hexStr bytes ++ text) = true ↔
      (∀ c ∈ text, (hexDigit c).isSome = true) ∧ text.length % 2 = 0 := by
  have length := length_hexStr bytes
  have positive := List.length_pos_iff.2 nonempty
  simp only [isHex, Bool.and_eq_true, List.all_eq_true, List.mem_append, decide_eq_true_eq,
    List.length_append, length]
  constructor
  · intro whole
    exact ⟨fun c member => whole.1.1 c (Or.inr member), by omega⟩
  · intro behind
    apply And.intro
    · apply And.intro
      · intro c member
        cases member with
        | inl front => exact hexDigit_of_mem_hexStr front
        | inr back => exact behind.1 c back
      · omega
    · omega

theorem isHex_hexStr {bytes : List UInt8} (nonempty : bytes ≠ []) : isHex (hexStr bytes) = true := by
  simpa using (@isHex_hexStr_append bytes [] nonempty).2 ⟨by simp, rfl⟩

/-- The `%d` of `strprintf`. -/
def intText (n : Int) : List Char :=
  if n < 0 then '-' :: Nat.toDigits 10 n.natAbs else Nat.toDigits 10 n.natAbs

/-- `atoi64`, which is `strtoll`: space, a sign and digits, as far as they go.  A value out of range
becomes the nearest in range. -/
def atoi64 (str : List Char) : Int :=
  let body := str.dropWhile isSpace
  let (negative, digits) :=
    match body with
    | '-' :: digits => (true, digits)
    | '+' :: digits => (false, digits)
    | _ => (false, body)
  let value : Int := Nat.ofDigitChars 10 (digits.takeWhile Char.isDigit) 0
  max (-2 ^ 63) (min (if negative then -value else value) (2 ^ 63 - 1))

theorem isDigit_of_mem_toDigits {n : Nat} {c : Char} (member : c ∈ Nat.toDigits 10 n) :
    c.isDigit = true :=
  Nat.isDigit_of_mem_toDigits (by decide) (by decide) member

theorem takeWhile_isDigit_toDigits (n : Nat) :
    (Nat.toDigits 10 n).takeWhile Char.isDigit = Nat.toDigits 10 n :=
  List.takeWhile_eq_self_iff.2 fun _ member => isDigit_of_mem_toDigits member

theorem isSpace_of_isDigit {c : Char} (digit : c.isDigit = true) : isSpace c = false := by
  by_contra space
  simp only [Bool.not_eq_false, isSpace, Bool.or_eq_true, Bool.and_eq_true, decide_eq_true_eq]
    at space
  simp only [Char.isDigit, Bool.and_eq_true, decide_eq_true_eq] at digit
  cases space with
  | inl blank =>
      rw [blank] at digit
      exact absurd digit (by decide)
  | inr control =>
      have high : c ≤ '\r' := control.2
      have low : '0' ≤ c := digit.1
      exact absurd (le_trans low high) (by decide)

theorem exists_cons_toDigits (n : Nat) :
    ∃ c rest, Nat.toDigits 10 n = c :: rest ∧ isSpace c = false ∧ c ≠ '-' ∧ c ≠ '+' := by
  obtain ⟨c, rest, digits⟩ := List.exists_cons_of_ne_nil (Nat.toDigits_ne_nil (n := n) (b := 10))
  have digit : c.isDigit = true := isDigit_of_mem_toDigits (n := n) (by simp [digits])
  refine ⟨c, rest, digits, isSpace_of_isDigit digit, ?_, ?_⟩
  · rintro rfl
    cases digit
  · rintro rfl
    cases digit

/-- A decimal number is read back. -/
theorem atoi64_intText {n : Int} (range : InInt64 n) : atoi64 (intText n) = n := by
  have value := @Nat.ofDigitChars_ten_toDigits n.natAbs
  have digits := takeWhile_isDigit_toDigits n.natAbs
  unfold InInt64 at range
  by_cases negative : n < 0
  · have text : intText n = '-' :: Nat.toDigits 10 n.natAbs := if_pos negative
    have body : ('-' :: Nat.toDigits 10 n.natAbs).dropWhile isSpace =
        '-' :: Nat.toDigits 10 n.natAbs := rfl
    simp only [atoi64, text, body, digits, value, if_true]
    omega
  · have text : intText n = Nat.toDigits 10 n.natAbs := if_neg negative
    obtain ⟨c, rest, isText, notSpace, notMinus, notPlus⟩ := exists_cons_toDigits n.natAbs
    have body : (Nat.toDigits 10 n.natAbs).dropWhile isSpace = Nat.toDigits 10 n.natAbs := by
      rw [isText, List.dropWhile_cons_of_neg (by simp [notSpace])]
    have unsigned : (match Nat.toDigits 10 n.natAbs with
        | '-' :: digits => (true, digits)
        | '+' :: digits => (false, digits)
        | _ => (false, Nat.toDigits 10 n.natAbs)) = (false, Nat.toDigits 10 n.natAbs) := by
      rw [isText]
      split
      · rename_i same
        exact absurd (List.cons.inj same).1 notMinus
      · rename_i same
        exact absurd (List.cons.inj same).1 notPlus
      · rfl
    simp only [atoi64, text, body, unsigned, digits, value, Bool.false_eq_true, if_false]
    omega

end Lycancoin
