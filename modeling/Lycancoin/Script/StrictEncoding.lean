import Lycancoin.Data.DistinguishedEncoding
import Lycancoin.Script.MinimalNumber

namespace Lycancoin

open Lycancoin.Data.DistinguishedEncoding

variable {sig R S : Valtype} {tagAt len : Nat}

/-- The tests of R and of S, none where a read is outside of the string. -/
def readIntegerEncoding (sig : Valtype) (tagAt len : Nat) : Option Bool := do
  let tag ← sig[tagAt]?
  if tag != 0x02 then some false
  else if len == 0 then some false
  else do
    let first ← sig[tagAt + 2]?
    if first &&& 0x80 != 0 then some false
    else if len > 1 && first == 0 then (sig[tagAt + 3]?).map fun second => second &&& 0x80 != 0
    else some true

/-- `IsValidSignatureEncoding` read by read, none where one is outside of the string. -/
def readSignatureEncoding (sig : Valtype) : Option Bool :=
  if sig.length < 9 then some false
  else if sig.length > 73 then some false
  else do
    let tag ← sig[0]?
    if tag != 0x30 then some false else do
    let size ← sig[1]?
    if size.toNat != sig.length - 3 then some false else do
    let lenR ← (sig[3]?).map UInt8.toNat
    if 5 + lenR ≥ sig.length then some false else do
    let lenS ← (sig[5 + lenR]?).map UInt8.toNat
    if lenR + lenS + 7 != sig.length then some false else do
    let validR ← readIntegerEncoding sig 2 lenR
    if validR then readIntegerEncoding sig (lenR + 4) lenS else some false

/-- The same tests with no read outside. -/
def isIntegerEncoding (sig : Valtype) (tagAt len : Nat) : Bool :=
  sig.getD tagAt 0 == 0x02 && len != 0 && sig.getD (tagAt + 2) 0 &&& 0x80 == 0 &&
    !(len > 1 && sig.getD (tagAt + 2) 0 == 0 && sig.getD (tagAt + 3) 0 &&& 0x80 == 0)

theorem isValidSignatureEncoding_eq (sig : Valtype) :
    isValidSignatureEncoding sig =
      (decide (9 ≤ sig.length) && decide (sig.length ≤ 73) && sig.getD 0 0 == 0x30 &&
        (sig.getD 1 0).toNat == sig.length - 3 &&
        decide (5 + (sig.getD 3 0).toNat < sig.length) &&
        (sig.getD 3 0).toNat + (sig.getD (5 + (sig.getD 3 0).toNat) 0).toNat + 7 == sig.length &&
        isIntegerEncoding sig 2 (sig.getD 3 0).toNat &&
        isIntegerEncoding sig ((sig.getD 3 0).toNat + 4)
          (sig.getD (5 + (sig.getD 3 0).toNat) 0).toNat) := by
  simp only [isValidSignatureEncoding, isIntegerEncoding, Bool.if_false_left, Bool.if_true_right,
    Bool.and_assoc, bne, Bool.decide_eq_true, Bool.not_not, Bool.or_false, ← decide_not,
    Nat.not_lt, gt_iff_lt, ge_iff_le, Nat.not_le, Nat.add_assoc, Nat.reduceAdd]

theorem getElem?_eq_getD {index : Nat} (inside : index < sig.length) :
    sig[index]? = some (sig.getD index 0) := by
  simp [inside]

theorem readIntegerEncoding_eq (inside : tagAt + 2 + len < sig.length) :
    readIntegerEncoding sig tagAt len = some (isIntegerEncoding sig tagAt len) := by
  unfold readIntegerEncoding isIntegerEncoding
  rw [getElem?_eq_getD (by omega), Option.bind_eq_bind, Option.bind_some]
  generalize sig.getD tagAt 0 = tag
  by_cases tagged : tag = 0x02
  · by_cases empty : len = 0
    · simp [tagged, empty]
    · rw [getElem?_eq_getD (by omega), Option.bind_some]
      generalize sig.getD (tagAt + 2) 0 = first
      by_cases more : 1 < len
      · rw [getElem?_eq_getD (by omega)]
        generalize sig.getD (tagAt + 3) 0 = second
        by_cases negative : first &&& 0x80 = 0 <;> by_cases zero : first = 0 <;>
          simp [tagged, empty, more, negative, zero, bne]
      · by_cases negative : first &&& 0x80 = 0 <;> simp [tagged, empty, more, negative]
  · simp [tagged]

theorem readSignatureEncoding_eq (sig : Valtype) :
    readSignatureEncoding sig = some (isValidSignatureEncoding sig) := by
  rw [isValidSignatureEncoding_eq, readSignatureEncoding]
  by_cases long : 9 ≤ sig.length
  · by_cases short : sig.length ≤ 73
    · rw [if_neg (by omega), if_neg (by omega), getElem?_eq_getD (by omega),
        getElem?_eq_getD (by omega), getElem?_eq_getD (by omega)]
      simp only [Option.bind_eq_bind, Option.bind_some, Option.map_some, long, short, decide_true,
        Bool.true_and]
      generalize (sig.getD 3 0).toNat = lenR
      generalize sig.getD 0 0 = tag
      generalize (sig.getD 1 0).toNat = size
      by_cases inside : 5 + lenR < sig.length
      · rw [getElem?_eq_getD inside]
        simp only [Option.bind_some, Option.map_some, inside]
        generalize (sig.getD (5 + lenR) 0).toNat = lenS
        by_cases whole : lenR + lenS + 7 = sig.length
        · simp only [readIntegerEncoding_eq (show 2 + 2 + lenR < sig.length by omega),
            readIntegerEncoding_eq (show lenR + 4 + 2 + lenS < sig.length by omega)]
          by_cases tagged : tag = 0x30 <;> by_cases sized : size = sig.length - 3 <;>
            cases isIntegerEncoding sig 2 lenR <;> simp [tagged, sized, whole, not_le.2 inside]
        · by_cases tagged : tag = 0x30 <;> by_cases sized : size = sig.length - 3 <;>
            simp [tagged, sized, whole, not_le.2 inside]
      · by_cases tagged : tag = 0x30 <;> by_cases sized : size = sig.length - 3 <;>
          simp [tagged, sized, inside, not_lt.1 inside]
    · rw [if_neg (by omega), if_pos (by omega)]
      simp [short]
  · rw [if_pos (by omega)]
    simp [long]

section Parts

variable {front rest : Valtype} {tag size : UInt8}

theorem getD_append_right (front rest : Valtype) (index : Nat) :
    (front ++ rest).getD (front.length + index) 0 = rest.getD index 0 := by
  rw [List.getD_eq_getElem?_getD, List.getElem?_append_right (by omega),
    List.getD_eq_getElem?_getD, Nat.add_sub_cancel_left]

theorem isIntegerEncoding_iff :
    isIntegerEncoding (front ++ tag :: size :: (R ++ rest)) front.length R.length = true ↔
      tag = 0x02 ∧ Shortest R := by
  have start := getD_append_right front (tag :: size :: (R ++ rest)) 0
  rw [Nat.add_zero] at start
  simp only [isIntegerEncoding, getD_append_right, start]
  cases R with
  | nil => simp [Shortest]
  | cons byte R =>
      cases R with
      | nil => simp [Shortest, (CScriptNum.signBit_spec byte).1]
      | cons other R =>
          simp only [Shortest, List.cons_append, List.getD_cons_zero, List.getD_cons_succ,
            List.length_cons, Bool.and_eq_true, beq_iff_eq, bne_iff_ne, Bool.not_eq_true',
            Bool.and_eq_false_iff, (CScriptNum.signBit_spec byte).1]
          simp only [Nat.add_eq_zero_iff, Nat.one_ne_zero, and_false, ne_eq, not_false_eq_true,
            and_true, gt_iff_lt, decide_eq_false_iff_not, beq_eq_false_iff_ne,
            (CScriptNum.signBit_spec other).1, not_lt]
          constructor
          · rintro ⟨⟨tagged, free⟩, (few | nonzero) | large⟩
            · omega
            · exact ⟨tagged, free, fun zero => absurd zero nonzero⟩
            · exact ⟨tagged, free, fun _ => large⟩
          · rintro ⟨tagged, free, padded⟩
            refine ⟨⟨tagged, free⟩, ?_⟩
            by_cases zero : byte = 0
            · exact .inr (padded zero)
            · exact .inl (.inr zero)

/-- Lengths that add up split the string. -/
theorem exists_parts (inside : 5 + (sig.getD 3 0).toNat < sig.length)
    (whole : (sig.getD 3 0).toNat + (sig.getD (5 + (sig.getD 3 0).toNat) 0).toNat + 7 =
      sig.length) :
    ∃ tag size tagR lenR R tagS lenS S hashType,
      sig = tag :: size :: tagR :: lenR :: (R ++ tagS :: lenS :: (S ++ [hashType])) ∧
        R.length = lenR.toNat ∧ S.length = lenS.toNat := by
  match sig with
  | [] | [_] | [_, _] | [_, _, _] => simp at inside
  | tag :: size :: tagR :: lenR :: rest =>
      simp only [List.getD_cons_succ, List.getD_cons_zero, List.length_cons] at inside whole
      have split := List.take_append_drop lenR.toNat rest
      have length : (rest.take lenR.toNat).length = lenR.toNat := by
        rw [List.length_take]
        omega
      generalize rest.take lenR.toNat = R at split length
      cases after : rest.drop lenR.toNat with
      | nil =>
          have := congrArg List.length after
          simp at this
          omega
      | cons tagS after' =>
          cases after' with
          | nil =>
              have := congrArg List.length after
              simp at this
              omega
          | cons lenS tail =>
              rw [after] at split
              subst split
              have found : (tag :: size :: tagR :: lenR :: (R ++ tagS :: lenS :: tail)).getD
                  (5 + lenR.toNat) 0 = lenS := by
                rw [← length, Nat.add_comm]
                exact getD_append_right R (tagS :: lenS :: tail) 1
              rw [found] at whole
              simp only [List.length_append, List.length_cons] at whole
              obtain rfl | ⟨S, hashType, rfl⟩ := List.eq_nil_or_concat' tail
              · simp at whole
                omega
              · refine ⟨tag, size, tagR, lenR, R, tagS, lenS, S, hashType, rfl, length, ?_⟩
                simp at whole
                omega

theorem isValidSignatureEncoding_parts {tagR lenR tagS lenS hashType : UInt8}
    (length : R.length = lenR.toNat) (length' : S.length = lenS.toNat) :
    isValidSignatureEncoding
        (tag :: size :: tagR :: lenR :: (R ++ tagS :: lenS :: (S ++ [hashType]))) = true ↔
      R.length + S.length + 7 ≤ 73 ∧ tag = 0x30 ∧ size.toNat = R.length + S.length + 4 ∧
        (tagR = 0x02 ∧ Shortest R) ∧ tagS = 0x02 ∧ Shortest S := by
  have size' : (tag :: size :: tagR :: lenR :: (R ++ tagS :: lenS :: (S ++ [hashType]))).length =
      R.length + S.length + 7 := by
    simp
    omega
  have found : (tag :: size :: tagR :: lenR :: (R ++ tagS :: lenS :: (S ++ [hashType]))).getD
      (5 + R.length) 0 = lenS := by
    rw [Nat.add_comm]
    exact getD_append_right R (tagS :: lenS :: (S ++ [hashType])) 1
  have first := @isIntegerEncoding_iff R [tag, size] (tagS :: lenS :: (S ++ [hashType])) tagR lenR
  have second := @isIntegerEncoding_iff S (tag :: size :: tagR :: lenR :: R) [hashType] tagS lenS
  simp only [List.length_cons, List.length_nil, List.cons_append, List.nil_append] at first second
  have start : (tag :: size :: tagR :: lenR :: (R ++ tagS :: lenS :: (S ++ [hashType]))).getD 3 0 =
      lenR := rfl
  rw [isValidSignatureEncoding_eq, size', start, ← length, found, ← length']
  simp only [Bool.and_eq_true, decide_eq_true_eq, beq_iff_eq, List.getD_cons_zero,
    List.getD_cons_succ, first, second]
  constructor
  · rintro ⟨⟨⟨⟨⟨⟨⟨-, short⟩, tagged⟩, sized⟩, -⟩, -⟩, integerR⟩, integerS⟩
    exact ⟨short, tagged, by omega, integerR, integerS⟩
  · rintro ⟨short, tagged, sized, integerR, integerS⟩
    have := integerR.2.length_pos
    have := integerS.2.length_pos
    exact ⟨⟨⟨⟨⟨⟨⟨by omega, short⟩, tagged⟩, by omega⟩, by omega⟩, trivial⟩, integerR⟩, integerS⟩

end Parts

/-- The valid strings are the DER encodings of two numbers that are not negative, with one byte
after them, of at most 73 bytes. -/
theorem isValidSignatureEncoding_iff :
    isValidSignatureEncoding sig = true ↔
      ∃ r s hashType, sig = sequenceOf (integer r ++ integer s) ++ [hashType] ∧
        9 ≤ sig.length ∧ sig.length ≤ 73 := by
  constructor
  · intro valid
    have checks := valid
    rw [isValidSignatureEncoding_eq] at checks
    simp only [Bool.and_eq_true, decide_eq_true_eq, beq_iff_eq] at checks
    obtain ⟨⟨⟨⟨⟨⟨⟨long, short⟩, -⟩, -⟩, inside⟩, whole⟩, -⟩, -⟩ := checks
    obtain ⟨tag, size, tagR, lenR, R, tagS, lenS, S, hashType, rfl, length, length'⟩ :=
      exists_parts inside whole
    obtain ⟨few, rfl, sized, ⟨rfl, integerR⟩, rfl, integerS⟩ :=
      (isValidSignatureEncoding_parts length length').1 valid
    obtain ⟨r, rfl⟩ := shortest_iff.1 integerR
    obtain ⟨s, rfl⟩ := shortest_iff.1 integerS
    refine ⟨r, s, hashType, ?_, long, short⟩
    have byteR : UInt8.ofNat (Data.DistinguishedEncoding.contents r).length = lenR := by
      simp [length]
    have byteS : UInt8.ofNat (Data.DistinguishedEncoding.contents s).length = lenS := by
      simp [length']
    have byte : UInt8.ofNat (integer r ++ integer s).length = size := by
      rw [← UInt8.toNat_inj, sized, UInt8.toNat_ofNat']
      simp only [integer, List.length_append, List.length_cons]
      omega
    rw [sequenceOf, byte]
    simp [integer, byteR, byteS]
  · rintro ⟨r, s, hashType, rfl, long, short⟩
    have size : (sequenceOf (integer r ++ integer s) ++ [hashType]).length =
        (Data.DistinguishedEncoding.contents r).length +
          (Data.DistinguishedEncoding.contents s).length + 7 := by
      simp [sequenceOf, integer]
      omega
    have whole : sequenceOf (integer r ++ integer s) ++ [hashType] =
        0x30 :: UInt8.ofNat (integer r ++ integer s).length :: 0x02 ::
          UInt8.ofNat (Data.DistinguishedEncoding.contents r).length ::
            (Data.DistinguishedEncoding.contents r ++ 0x02 ::
              UInt8.ofNat (Data.DistinguishedEncoding.contents s).length ::
                (Data.DistinguishedEncoding.contents s ++ [hashType])) := by
      simp only [sequenceOf, integer, List.cons_append, List.append_assoc]
    rw [size] at short
    rw [whole, isValidSignatureEncoding_parts (by rw [UInt8.toNat_ofNat']; omega)
      (by rw [UInt8.toNat_ofNat']; omega)]
    refine ⟨short, rfl, ?_, ⟨rfl, shortest_contents r⟩, rfl, shortest_contents s⟩
    rw [UInt8.toNat_ofNat']
    simp only [integer, List.length_append, List.length_cons]
    omega

/-- No read of the check is outside of the string, and it accepts the strict encodings only. -/
theorem signatureEncoding_exact (sig : Valtype) :
    ∃ valid, readSignatureEncoding sig = some valid ∧
      (valid = true ↔
        ∃ r s hashType, sig = sequenceOf (integer r ++ integer s) ++ [hashType] ∧
          9 ≤ sig.length ∧ sig.length ≤ 73) :=
  ⟨isValidSignatureEncoding sig, readSignatureEncoding_eq sig, isValidSignatureEncoding_iff⟩

end Lycancoin
