import Lycancoin.Data.BaseChange
import Lycancoin.Primitives.DecimalText
import Lycancoin.Primitives.Serialize

namespace Lycancoin

open Lycancoin.Data

def pszBase58 : List Char := "123456789ABCDEFGHJKLMNPQRSTUVWXYZabcdefghijkmnopqrstuvwxyz".toList

/-- The loop of `DecodeBase58` over the characters, with `b256` from its end on: what is left of
the text, and the number.  There is no outer result where the assertion fails, and no inner one
where a character is not allowed. -/
def decodeLoop : List Char → List Nat → Option (Option (List Char × List Nat))
  | [], b256 => some (some ([], b256))
  | c :: psz, b256 =>
      if isSpace c then some (some (c :: psz, b256))
      else
        match pszBase58.idxOf? c with
        | none => some none
        | some ch =>
            let (b256, carry) := BaseChange.mulAdd 256 58 b256 ch
            if carry = 0 then decodeLoop psz b256 else none

/-- The end of `DecodeBase58`. -/
def finishDecode (zeroes : Nat) (psz : List Char) (b256 : List Nat) : Option (List UInt8) :=
  if psz.dropWhile isSpace = [] then
    some (List.replicate zeroes 0 ++ (b256.reverse.dropWhile (· == 0)).map UInt8.ofNat)
  else none

def decodeBase58 (psz : List Char) : Option (Option (List UInt8)) := do
  let psz := psz.dropWhile isSpace
  let zeroes := (psz.takeWhile (· == '1')).length
  let psz := psz.dropWhile (· == '1')
  let decoded ← decodeLoop psz (List.replicate (psz.length * 733 / 1000 + 1) 0)
  pure (decoded.bind fun decoded => finishDecode zeroes decoded.1 decoded.2)

/-- The loop of `EncodeBase58` over the bytes, with `b58` from its end on. -/
def encodeLoop : List UInt8 → List Nat → Option (List Nat)
  | [], b58 => some b58
  | byte :: bytes, b58 =>
      let (b58, carry) := BaseChange.mulAdd 58 256 b58 byte.toNat
      if carry = 0 then encodeLoop bytes b58 else none

def encodeBase58 (bytes : List UInt8) : Option (List Char) := do
  let zeroes := (bytes.takeWhile (· == 0)).length
  let bytes := bytes.dropWhile (· == 0)
  let b58 ← encodeLoop bytes (List.replicate (bytes.length * 138 / 100 + 1) 0)
  let str ← (b58.reverse.dropWhile (· == 0)).mapM (pszBase58[·]?)
  pure (List.replicate zeroes '1' ++ str)

def checksum (hash : List UInt8 → Uint256) (vch : List UInt8) : List UInt8 :=
  (hash vch).serialize.take 4

def encodeBase58Check (hash : List UInt8 → Uint256) (vchIn : List UInt8) : Option (List Char) :=
  encodeBase58 (vchIn ++ checksum hash vchIn)

/-- What `DecodeBase58Check` does with the bytes. -/
def verifyChecksum (hash : List UInt8 → Uint256) (vchRet : List UInt8) : Option (List UInt8) :=
  if vchRet.length < 4 then none
  else if checksum hash (vchRet.take (vchRet.length - 4)) ≠ vchRet.drop (vchRet.length - 4) then none
  else some (vchRet.take (vchRet.length - 4))

def decodeBase58Check (hash : List UInt8 → Uint256) (psz : List Char) :
    Option (Option (List UInt8)) := do
  let vchRet ← decodeBase58 psz
  pure (vchRet.bind (verifyChecksum hash))

/-! ## Characters -/

def base58Char (digit : Nat) : Char := pszBase58.getD digit '1'

theorem pszBase58_table : ∀ digit : Fin 58, pszBase58[digit.val]? = some (base58Char digit) ∧
    pszBase58.idxOf? (base58Char digit) = some digit.val ∧ isSpace (base58Char digit) = false ∧
      (base58Char digit = '1' ↔ digit.val = 0) := by
  decide +kernel

theorem idxOf_eq_some {c : Char} {digit : Nat} (found : pszBase58.idxOf? c = some digit) :
    digit < 58 ∧ c = base58Char digit := by
  rw [List.idxOf?, List.findIdx?_eq_some_iff_getElem] at found
  obtain ⟨within, same, -⟩ := found
  have small : digit < 58 := within
  rw [beq_iff_eq] at same
  rw [base58Char, List.getD_eq_getElem?_getD, List.getElem?_eq_getElem within, Option.getD_some, same]
  exact ⟨small, rfl⟩

theorem mapM_chars {digits : List Nat} (small : ∀ digit ∈ digits, digit < 58) :
    digits.mapM (pszBase58[·]?) = some (digits.map base58Char) := by
  induction digits with
  | nil => rfl
  | cons digit rest ih =>
      obtain ⟨first, others⟩ := List.forall_mem_cons.mp small
      have char := (pszBase58_table ⟨digit, first⟩).1
      simp only at char
      simp [char, ih others]

def digitsOf : List Char → Option (List Nat)
  | [] => some []
  | c :: word => do
      let digit ← pszBase58.idxOf? c
      let rest ← digitsOf word
      pure (digit :: rest)

theorem digitsOf_map {digits : List Nat} (small : ∀ digit ∈ digits, digit < 58) :
    digitsOf (digits.map base58Char) = some digits := by
  induction digits with
  | nil => rfl
  | cons digit rest ih =>
      obtain ⟨first, others⟩ := List.forall_mem_cons.mp small
      have index := (pszBase58_table ⟨digit, first⟩).2.1
      simp only at index
      simp [digitsOf, index, ih others]

theorem eq_map_of_digitsOf {word : List Char} {digits : List Nat} (read : digitsOf word = some digits) :
    word = digits.map base58Char ∧ ∀ digit ∈ digits, digit < 58 := by
  induction word generalizing digits with
  | nil =>
      cases read
      simp
  | cons c word ih =>
      simp only [digitsOf, Option.bind_eq_bind, Option.bind_eq_some_iff] at read
      obtain ⟨digit, found, rest, later, made⟩ := read
      cases made
      obtain ⟨small, char⟩ := idxOf_eq_some found
      obtain ⟨others, smaller⟩ := ih later
      exact ⟨by rw [List.map_cons, ← char, ← others], List.forall_mem_cons.mpr ⟨small, smaller⟩⟩

/-! ## The loops -/

theorem encodeLoop_spec {b58 : List Nat} {bytes : List UInt8}
    (room : BaseChange.Room 58 256 b58 bytes.length) (small : ∀ digit ∈ b58, digit < 58) :
    ∃ after, encodeLoop bytes b58 = some after ∧ (∀ digit ∈ after, digit < 58) ∧
      Nat.ofDigits 58 after =
        (bytes.map UInt8.toNat).foldl (fun n digit => 256 * n + digit) (Nat.ofDigits 58 b58) := by
  induction bytes generalizing b58 with
  | nil => exact ⟨b58, rfl, small, rfl⟩
  | cons byte bytes ih =>
      obtain ⟨nothing, value, more⟩ := room.mulAdd byte.toNat_lt
      obtain ⟨after, run, smaller, total⟩ := ih more (BaseChange.mulAdd_lt (by decide))
      refine ⟨after, ?_, smaller, ?_⟩
      · simp only [encodeLoop, nothing, ↓reduceIte]
        exact run
      · rw [total, value]
        rfl

theorem decodeLoop_spec {b256 : List Nat} {psz : List Char}
    (room : BaseChange.Room 256 58 b256 psz.length) (small : ∀ digit ∈ b256, digit < 256) :
    ∃ result, decodeLoop psz b256 = some result ∧
      match digitsOf (psz.takeWhile fun c => !isSpace c) with
      | none => result = none
      | some digits => ∃ after, result = some (psz.dropWhile fun c => !isSpace c, after) ∧
          (∀ digit ∈ after, digit < 256) ∧ Nat.ofDigits 256 after =
            digits.foldl (fun n digit => 58 * n + digit) (Nat.ofDigits 256 b256) := by
  induction psz generalizing b256 with
  | nil => exact ⟨_, rfl, b256, rfl, small, rfl⟩
  | cons c psz ih =>
      cases space : isSpace c with
      | true =>
          refine ⟨some (c :: psz, b256), by simp [decodeLoop, space], ?_⟩
          rw [List.takeWhile_cons_of_neg (by simp [space]), List.dropWhile_cons_of_neg (by simp [space])]
          exact ⟨b256, rfl, small, rfl⟩
      | false =>
          rw [List.takeWhile_cons_of_pos (by simp [space]), List.dropWhile_cons_of_pos (by simp [space])]
          cases found : pszBase58.idxOf? c with
          | none => exact ⟨none, by simp [decodeLoop, space, found], by simp [digitsOf, found]⟩
          | some ch =>
              obtain ⟨nothing, value, more⟩ := room.mulAdd (idxOf_eq_some found).1
              obtain ⟨result, run, rest⟩ := ih more (BaseChange.mulAdd_lt (by decide))
              refine ⟨result, by simp [decodeLoop, space, found, nothing, run], ?_⟩
              simp only [digitsOf, found, Option.bind_eq_bind, Option.bind_some]
              cases later : digitsOf (psz.takeWhile fun c => !isSpace c) with
              | none =>
                  rw [later] at rest
                  exact rest
              | some digits =>
                  rw [later] at rest
                  obtain ⟨after, made, smaller, total⟩ := rest
                  refine ⟨after, made, smaller, ?_⟩
                  rw [total, value]
                  rfl

/-! ## Both directions -/

theorem map_ofNat_toNat {digits : List Nat} (small : ∀ digit ∈ digits, digit < 256) :
    (digits.map UInt8.ofNat).map UInt8.toNat = digits := by
  rw [List.map_map]
  refine (List.map_congr_left fun digit member => ?_).trans (List.map_id digits)
  exact UInt8.toNat_ofNat_of_lt' (small digit member)

/-- The row that a number was built up in, read from its highest digit on. -/
theorem significant_row {base n : Nat} {row : List Nat} (large : 1 < base)
    (small : ∀ digit ∈ row, digit < base) (value : Nat.ofDigits base row = n) :
    row.reverse.dropWhile (· == 0) = BaseChange.textOf base n := by
  rw [← BaseChange.textOf_valueOf_dropWhile large fun digit member =>
    small digit (List.mem_reverse.mp member), BaseChange.valueOf, List.reverse_reverse, value]

theorem toNat_beq_zero (byte : UInt8) : (byte.toNat == 0) = (byte == 0) := by
  rw [Bool.eq_iff_iff, beq_iff_eq, beq_iff_eq, ← UInt8.toNat_inj]
  rfl

/-- `EncodeBase58` changes the base, and its assertion never fails. -/
theorem encodeBase58_eq (bytes : List UInt8) :
    encodeBase58 bytes =
      some ((BaseChange.rebase 256 58 (bytes.map UInt8.toNat)).map base58Char) := by
  have room := @BaseChange.room_zeros 58 256 138 100 (by decide) (by decide) (by decide)
    (bytes.dropWhile (· == 0)).length
  obtain ⟨after, run, small, value⟩ := encodeLoop_spec room (by simp)
  have front : (bytes.map UInt8.toNat).takeWhile (· == 0) =
      (bytes.takeWhile (· == 0)).map UInt8.toNat := by
    rw [List.takeWhile_map]
    simp only [Function.comp_def, toNat_beq_zero]
  have behind : (bytes.map UInt8.toNat).dropWhile (· == 0) =
      (bytes.dropWhile (· == 0)).map UInt8.toNat := by
    rw [List.dropWhile_map]
    simp only [Function.comp_def, toNat_beq_zero]
  rw [Nat.ofDigits_replicate_zero, BaseChange.foldl_eq_valueOf, ← behind,
    BaseChange.valueOf_dropWhile] at value
  rw [encodeBase58]
  simp only [run, Option.bind_eq_bind, Option.bind_some, significant_row (by decide) small value,
    mapM_chars (BaseChange.textOf_lt (by decide))]
  rw [BaseChange.rebase, front, List.length_map, List.map_append, List.map_replicate]
  rfl

/-- The text without white space around it. -/
def trimSpace (s : List Char) : List Char := (s.dropWhile isSpace).rdropWhile isSpace

theorem digitsOf_ones (count : Nat) (word : List Char) :
    digitsOf (List.replicate count '1' ++ word) =
      (digitsOf word).map (List.replicate count 0 ++ ·) := by
  have one : pszBase58.idxOf? '1' = some 0 := by decide
  induction count with
  | zero => cases read : digitsOf word <;> simp [read]
  | succ count ih =>
      rw [List.replicate_succ, List.cons_append, digitsOf, one, ih]
      cases digitsOf word with
      | none => rfl
      | some digits => rfl

theorem significant_digitsOf {word : List Char} {digits : List Nat}
    (read : digitsOf word = some digits) (first : word.head? ≠ some '1') :
    BaseChange.Significant digits := by
  obtain ⟨rfl, small⟩ := eq_map_of_digitsOf read
  intro digit leading zero
  apply first
  rw [List.head?_map, leading, zero]
  rfl

theorem ones_append (psz : List Char) :
    psz = List.replicate (psz.takeWhile (· == '1')).length '1' ++ psz.dropWhile (· == '1') := by
  have ones : psz.takeWhile (· == '1') =
      List.replicate (psz.takeWhile (· == '1')).length '1' :=
    List.eq_replicate_iff.mpr ⟨rfl, fun c member => by simpa using List.mem_takeWhile_imp member⟩
  rw [← ones, List.takeWhile_append_dropWhile]

def textWord (psz : List Char) : List Char := psz.takeWhile fun c => !isSpace c

def behindText (psz : List Char) : List Char := psz.dropWhile fun c => !isSpace c

/-- `DecodeBase58` changes the base back, where there is nothing behind the white space that follows
the characters, and its assertion never fails. -/
theorem decodeBase58_eq (s : List Char) :
    decodeBase58 s = some
      (if (behindText (s.dropWhile isSpace)).dropWhile isSpace = [] then
        (digitsOf (textWord (s.dropWhile isSpace))).map fun digits =>
          (BaseChange.rebase 58 256 digits).map UInt8.ofNat
      else none) := by
  rw [decodeBase58]
  generalize s.dropWhile isSpace = psz
  have room := @BaseChange.room_zeros 256 58 733 1000 (by decide) (by decide) (by decide +kernel)
    (psz.dropWhile (· == '1')).length
  obtain ⟨result, run, rest⟩ := decodeLoop_spec room (by simp)
  have split := ones_append psz
  generalize (psz.takeWhile (· == '1')).length = zeroes at split ⊢
  have begins : (psz.dropWhile (· == '1')).head? ≠ some '1' := by
    intro first
    have stops := List.head?_dropWhile_not (· == '1') psz
    rw [first] at stops
    contradiction
  generalize psz.dropWhile (· == '1') = tail at split begins room run rest ⊢
  subst split
  have word : textWord (List.replicate zeroes '1' ++ tail) = List.replicate zeroes '1' ++ textWord tail :=
    List.takeWhile_append_of_pos fun c member => by rw [List.eq_of_mem_replicate member]; rfl
  have behind : behindText (List.replicate zeroes '1' ++ tail) = behindText tail :=
    List.dropWhile_append_of_pos fun c member => by rw [List.eq_of_mem_replicate member]; rfl
  rw [word, behind, digitsOf_ones]
  simp only [run, Option.bind_eq_bind, Option.bind_some]
  change match digitsOf (textWord tail) with | none => _ | some digits => _ at rest
  cases read : digitsOf (textWord tail) with
  | none =>
      rw [read] at rest
      simp [rest]
  | some digits =>
      rw [read] at rest
      obtain ⟨after, rfl, small, value⟩ := rest
      have first : (textWord tail).head? ≠ some '1' := by
        intro first
        apply begins
        rw [textWord, List.head?_takeWhile, Option.filter_eq_some_iff] at first
        exact first.1
      rw [Nat.ofDigits_replicate_zero, BaseChange.foldl_eq_valueOf] at value
      have back := significant_row (by decide) small value
      have whole := @BaseChange.rebase_of_significant 58 256 digits (significant_digitsOf read first) zeroes
      simp only [Option.map_some, whole, Option.bind_some, finishDecode, back, List.map_append,
        List.map_replicate]
      rfl

theorem trimSpace_eq_textWord {s : List Char}
    (ends : (behindText (s.dropWhile isSpace)).dropWhile isSpace = []) :
    trimSpace s = textWord (s.dropWhile isSpace) := by
  have split : s.dropWhile isSpace =
      textWord (s.dropWhile isSpace) ++ behindText (s.dropWhile isSpace) :=
    List.takeWhile_append_dropWhile.symm
  have spaces : ∀ c ∈ (behindText (s.dropWhile isSpace)).reverse, isSpace c = true := by
    intro c member
    exact List.dropWhile_eq_nil_iff.mp ends c (List.mem_reverse.mp member)
  have chars : ∀ c ∈ (textWord (s.dropWhile isSpace)).reverse, isSpace c = false := by
    intro c member
    simpa using List.mem_takeWhile_imp (List.mem_reverse.mp member)
  have stays : (textWord (s.dropWhile isSpace)).reverse.dropWhile isSpace =
      (textWord (s.dropWhile isSpace)).reverse := by
    cases reversed : (textWord (s.dropWhile isSpace)).reverse with
    | nil => rfl
    | cons c rest =>
        have last := chars c (by rw [reversed]; exact List.mem_cons_self)
        rw [List.dropWhile_cons_of_neg (by simp [last])]
  rw [trimSpace, List.rdropWhile, split, List.reverse_append, List.dropWhile_append_of_pos spaces,
    ← split, stays, List.reverse_reverse]

theorem trimSpace_map_base58Char {digits : List Nat} (small : ∀ digit ∈ digits, digit < 58) :
    textWord ((digits.map base58Char).dropWhile isSpace) = digits.map base58Char ∧
      behindText ((digits.map base58Char).dropWhile isSpace) = [] := by
  have chars : ∀ c ∈ digits.map base58Char, isSpace c = false := by
    intro c member
    obtain ⟨digit, isDigit, rfl⟩ := List.mem_map.mp member
    exact (pszBase58_table ⟨digit, small digit isDigit⟩).2.2.1
  have front : (digits.map base58Char).dropWhile isSpace = digits.map base58Char := by
    cases text : digits.map base58Char with
    | nil => rfl
    | cons c rest =>
        have first := chars c (by rw [text]; exact List.mem_cons_self)
        rw [List.dropWhile_cons_of_neg (by simp [first])]
  rw [front, textWord, behindText]
  constructor
  · exact List.takeWhile_eq_self_iff.mpr fun c member => by simp [chars c member]
  · exact List.dropWhile_eq_nil_iff.mpr fun c member => by simp [chars c member]

theorem decodeBase58_encodeBase58 (bytes : List UInt8) :
    ∃ s, encodeBase58 bytes = some s ∧ decodeBase58 s = some (some bytes) := by
  have small := @BaseChange.rebase_lt 256 58 (by decide) (bytes.map UInt8.toNat)
  obtain ⟨word, behind⟩ := trimSpace_map_base58Char small
  have inBase : ∀ digit ∈ bytes.map UInt8.toNat, digit < 256 := by
    intro digit member
    obtain ⟨byte, -, rfl⟩ := List.mem_map.mp member
    exact byte.toNat_lt
  have back : (bytes.map UInt8.toNat).map UInt8.ofNat = bytes := by
    rw [List.map_map]
    exact (List.map_congr_left fun byte _ => UInt8.ofNat_toNat).trans (List.map_id bytes)
  refine ⟨_, encodeBase58_eq bytes, ?_⟩
  rw [decodeBase58_eq, behind, word, digitsOf_map small]
  simp only [List.dropWhile_nil, ↓reduceIte, Option.map_some]
  rw [BaseChange.rebase_rebase (by decide) inBase, back]

theorem encodeBase58_of_decodeBase58 {s : List Char} {bytes : List UInt8}
    (decoded : decodeBase58 s = some (some bytes)) : encodeBase58 bytes = some (trimSpace s) := by
  rw [decodeBase58_eq, Option.some.injEq] at decoded
  by_cases ends : (behindText (s.dropWhile isSpace)).dropWhile isSpace = []
  · rw [if_pos ends, Option.map_eq_some_iff] at decoded
    obtain ⟨digits, read, rfl⟩ := decoded
    obtain ⟨word, small⟩ := eq_map_of_digitsOf read
    have inBase := @BaseChange.rebase_lt 58 256 (by decide) digits
    rw [encodeBase58_eq, map_ofNat_toNat inBase, BaseChange.rebase_rebase (by decide) small, ← word,
      trimSpace_eq_textWord ends]
  · rw [if_neg ends] at decoded
    contradiction

/-! ## With a checksum -/

variable {hash : List UInt8 → Uint256}

theorem length_checksum (vch : List UInt8) : (checksum hash vch).length = 4 := by
  simp [checksum, Uint256.serialize, Uint256.data]

theorem verifyChecksum_append (vch : List UInt8) :
    verifyChecksum hash (vch ++ checksum hash vch) = some vch := by
  have size : (vch ++ checksum hash vch).length - 4 = vch.length := by
    rw [List.length_append, length_checksum, Nat.add_sub_cancel]
  rw [verifyChecksum, size, List.take_left, List.drop_left, if_neg, if_neg]
  · simp
  · rw [List.length_append, length_checksum]
    omega

theorem eq_of_verifyChecksum {vchRet vch : List UInt8}
    (verified : verifyChecksum hash vchRet = some vch) : vchRet = vch ++ checksum hash vch := by
  unfold verifyChecksum at verified
  split at verified
  · contradiction
  · split at verified
    · contradiction
    · rename_i same
      cases verified
      rw [ne_eq, not_not] at same
      rw [same, List.take_append_drop]

/-- Both encodings can be read back, what is read is encoded as the text without the white space
around it, and no assertion fails. -/
theorem base58_exact (hash : List UInt8 → Uint256) :
    (∀ b, ∃ s, encodeBase58 b = some s ∧ decodeBase58 s = some (some b)) ∧
    (∀ s, ∃ result, decodeBase58 s = some result ∧
      ∀ b, result = some b → encodeBase58 b = some (trimSpace s)) ∧
    (∀ b, ∃ s, encodeBase58Check hash b = some s ∧ decodeBase58Check hash s = some (some b)) ∧
    ∀ s, ∃ result, decodeBase58Check hash s = some result ∧
      ∀ b, result = some b → encodeBase58Check hash b = some (trimSpace s) := by
  refine ⟨decodeBase58_encodeBase58, ?_, ?_, ?_⟩
  · intro s
    refine ⟨_, decodeBase58_eq s, ?_⟩
    intro b accepted
    exact encodeBase58_of_decodeBase58 ((decodeBase58_eq s).trans (congrArg some accepted))
  · intro b
    obtain ⟨s, encoded, decoded⟩ := decodeBase58_encodeBase58 (b ++ checksum hash b)
    refine ⟨s, encoded, ?_⟩
    simp only [decodeBase58Check, decoded, Option.bind_eq_bind, Option.bind_some,
      verifyChecksum_append]
    rfl
  · intro s
    obtain ⟨result, decoded⟩ : ∃ result, decodeBase58 s = some result := ⟨_, decodeBase58_eq s⟩
    refine ⟨result.bind (verifyChecksum hash), by simp [decodeBase58Check, decoded], ?_⟩
    intro b accepted
    obtain ⟨vchRet, rfl, verified⟩ := Option.bind_eq_some_iff.mp accepted
    rw [encodeBase58Check, ← eq_of_verifyChecksum verified]
    exact encodeBase58_of_decodeBase58 decoded

def emptyHash : Uint256 :=
  ⟨0x56944c5d3f98413ef45cf54545538103cc9f298e0575820ad3591376e2e0f65d⟩

/-- A text with white space in front is accepted, too. -/
theorem base58Check_space :
    decodeBase58Check (fun _ => emptyHash) " 3QJmnh".toList = some (some []) ∧
      encodeBase58Check (fun _ => emptyHash) [] ≠ some " 3QJmnh".toList := by
  decide

end Lycancoin
