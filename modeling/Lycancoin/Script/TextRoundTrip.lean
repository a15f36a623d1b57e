import Lycancoin.Primitives.DecimalText
import Lycancoin.Script.PushEncoding

namespace Lycancoin

namespace CScript

/-- The names of the opcodes from `OP_NOP` on. -/
def opNames : List String :=
  ["OP_NOP", "OP_VER", "OP_IF", "OP_NOTIF", "OP_VERIF", "OP_VERNOTIF", "OP_ELSE", "OP_ENDIF",
    "OP_VERIFY", "OP_RETURN", "OP_TOALTSTACK", "OP_FROMALTSTACK", "OP_2DROP", "OP_2DUP", "OP_3DUP",
    "OP_2OVER", "OP_2ROT", "OP_2SWAP", "OP_IFDUP", "OP_DEPTH", "OP_DROP", "OP_DUP", "OP_NIP",
    "OP_OVER", "OP_PICK", "OP_ROLL", "OP_ROT", "OP_SWAP", "OP_TUCK", "OP_CAT", "OP_SUBSTR",
    "OP_LEFT", "OP_RIGHT", "OP_SIZE", "OP_INVERT", "OP_AND", "OP_OR", "OP_XOR", "OP_EQUAL",
    "OP_EQUALVERIFY", "OP_RESERVED1", "OP_RESERVED2", "OP_1ADD", "OP_1SUB", "OP_2MUL", "OP_2DIV",
    "OP_NEGATE", "OP_ABS", "OP_NOT", "OP_0NOTEQUAL", "OP_ADD", "OP_SUB", "OP_MUL", "OP_DIV",
    "OP_MOD", "OP_LSHIFT", "OP_RSHIFT", "OP_BOOLAND", "OP_BOOLOR", "OP_NUMEQUAL",
    "OP_NUMEQUALVERIFY", "OP_NUMNOTEQUAL", "OP_LESSTHAN", "OP_GREATERTHAN", "OP_LESSTHANOREQUAL",
    "OP_GREATERTHANOREQUAL", "OP_MIN", "OP_MAX", "OP_WITHIN", "OP_RIPEMD160", "OP_SHA1",
    "OP_SHA256", "OP_HASH160", "OP_HASH256", "OP_CODESEPARATOR", "OP_CHECKSIG", "OP_CHECKSIGVERIFY",
    "OP_CHECKMULTISIG", "OP_CHECKMULTISIGVERIFY", "OP_NOP1", "OP_NOP2", "OP_NOP3", "OP_NOP4",
    "OP_NOP5", "OP_NOP6", "OP_NOP7", "OP_NOP8", "OP_NOP9", "OP_NOP10"]

def getOpName (opcode : UInt8) : List Char :=
  if opcode = 0x00 then "0".toList
  else if opcode = 0x4c then "OP_PUSHDATA1".toList
  else if opcode = 0x4d then "OP_PUSHDATA2".toList
  else if opcode = 0x4e then "OP_PUSHDATA4".toList
  else if opcode = 0x4f then "-1".toList
  else if opcode = 0x50 then "OP_RESERVED".toList
  else if OP_1 ≤ opcode ∧ opcode ≤ OP_16 then Nat.toDigits 10 (opcode.toNat - 0x50)
  else if opcode = 0xff then "OP_INVALIDOPCODE".toList
  else if opcode < 0x61 then "OP_UNKNOWN".toList
  else ((opNames[opcode.toNat - 0x61]?).getD "OP_UNKNOWN").toList

/-- The word that `FormatScript` writes for an opcode with a number or a name. -/
def opWord (opcode : UInt8) : Option (List Char) :=
  if opcode = 0x00 then some "0".toList
  else if (OP_1 ≤ opcode ∧ opcode ≤ OP_16) ∨ opcode = 0x4f then
    some (intText ((opcode.toNat : Int) - 0x4f - 1))
  else if 0x61 ≤ opcode ∧ opcode ≤ OP_CHECKMULTISIGVERIFY ∧
      (getOpName opcode).take 3 = "OP_".toList then
    some ((getOpName opcode).drop 3)
  else none

/-- What `FormatScript` writes for an operation: the opcode, its operand and all its bytes.  Behind
bytes without an operand there is no blank. -/
def formatOp (opcode : UInt8) (vch raw : List UInt8) : List Char :=
  match opWord opcode with
  | some word => word ++ [' ']
  | none =>
      if vch.length > 0 then
        "0x".toList ++ hexStr (raw.take (raw.length - vch.length)) ++ ' ' ::
          ("0x".toList ++ hexStr (raw.drop (raw.length - vch.length)) ++ [' '])
      else "0x".toList ++ hexStr raw

/-- The loop of `FormatScript`. -/
def formatFrom : Nat → CScript → List Char
  | _, [] => []
  | 0, _ :: _ => []
  | passes + 1, it =>
      match getOp it with
      | some (opcode, vch, rest) =>
          formatOp opcode vch (it.take (it.length - rest.length)) ++ formatFrom passes rest
      | none => "0x".toList ++ hexStr it ++ [' ']

/-- `FormatScript`, which takes the last character away. -/
def formatScript (script : CScript) : List Char := (formatFrom script.length script).dropLast

/-- `replace_first` of `OP_` by nothing. -/
def removeOP : List Char → List Char
  | 'O' :: 'P' :: '_' :: rest => rest
  | c :: rest => c :: removeOP rest
  | [] => []

/-- `mapOpNames`, with what was assigned last in front. -/
def mapOpNames : List (List Char × UInt8) :=
  (List.range (0xb9 + 1)).foldl
    (fun names op =>
      if op < 0x61 ∧ op ≠ 0x50 then names
      else
        let strName := getOpName (UInt8.ofNat op)
        if strName = "OP_UNKNOWN".toList then names
        else (removeOP strName, UInt8.ofNat op) :: (strName, UInt8.ofNat op) :: names)
    []

def isNumber (word : List Char) : Bool :=
  word.all Char.isDigit || (word.head? = some '-' && (word.drop 1).all Char.isDigit)

/-- What a word does to the script that is parsed.  No result stands for an exception. -/
def parseWord (result : CScript) (word : List Char) : Option CScript :=
  if word = [] then some result
  else if isNumber word then pushInt64 (atoi64 word) result
  else if word.take 2 = "0x".toList ∧ word.drop 2 ≠ [] ∧ isHex (word.drop 2) = true then
    some (result ++ parseHex (word.drop 2))
  else if word.length ≥ 2 ∧ word.head? = some '\'' ∧ word.getLast? = some '\'' then
    some (pushVector ((word.drop 1).dropLast.map fun c => UInt8.ofNat c.toNat) result)
  else (mapOpNames.lookup word).map fun opcode => result ++ [opcode]

def isSeparator (c : Char) : Bool := c = ' ' || c = '\t' || c = '\n'

/-- `ParseScript`.  The words are split at each separator: `split` takes adjacent ones together, and
the words between them, which are empty, do nothing. -/
def parseScript (s : List Char) : Option CScript := (s.splitOnP isSeparator).foldlM parseWord []

end CScript

namespace CScript

/-- The operations of a script up to its end, or up to one that is cut off. -/
def operations : Nat → CScript → List (UInt8 × List UInt8)
  | 0, _ => []
  | passes + 1, script =>
      match getOp script with
      | none => []
      | some (opcode, data, rest) => (opcode, data) :: operations passes rest

/-- Operations without an operand that have neither a number nor a name: a push of nothing by
`OP_PUSHDATA`, `OP_RESERVED`, and all opcodes from `OP_NOP1` on. -/
def Unspaced (operation : UInt8 × List UInt8) : Prop :=
  operation.2 = [] ∧ operation.1 ≠ 0 ∧ operation.1 ≠ 0x4f ∧
    ¬(OP_1 ≤ operation.1 ∧ operation.1 ≤ OP_16) ∧
    ¬(0x61 ≤ operation.1 ∧ operation.1 ≤ OP_CHECKMULTISIGVERIFY)

/-- What `ParseScript` makes of a text behind a script. -/
def parseFrom (result : CScript) (s : List Char) : Option CScript :=
  (s.splitOnP isSeparator).foldlM parseWord result

theorem pushVector_append (b : List UInt8) (script : CScript) :
    pushVector b script = script ++ pushVector b [] := by
  simp [pushVector]

theorem pushInt64_append (n : Int) (script : CScript) :
    pushInt64 n script = (pushInt64 n []).map (script ++ ·) := by
  unfold pushInt64 pushScriptNum
  split
  · simp
  · split
    · simp
    · cases CScriptNum.serialize n with
      | error failure => rfl
      | ok vch => simp [pushVector_append vch script, Except.toOption]

theorem parseWord_append (result : CScript) (word : List Char) :
    parseWord result word = (parseWord [] word).map (result ++ ·) := by
  unfold parseWord
  split
  · simp
  · split
    · exact pushInt64_append _ _
    · split
      · simp
      · split
        · simp [pushVector_append _ result]
        · simp [Function.comp_def]

@[simp] theorem parseFrom_nil (result : CScript) : parseFrom result [] = some result := by
  simp [parseFrom, parseWord]

theorem parseFrom_append (result : CScript) (front back : List Char) :
    parseFrom result (front ++ ' ' :: back) =
      (parseFrom result front).bind fun result => parseFrom result back := by
  unfold parseFrom
  rw [List.splitOnP_append_cons _ _ (by decide), List.foldlM_append]
  rfl

theorem parseFrom_word {word : List Char} (clean : ∀ c ∈ word, isSeparator c = false)
    (result : CScript) : parseFrom result word = parseWord result word := by
  rw [parseFrom, List.splitOnP_eq_singleton clean]
  simp

theorem parseFrom_extends {result after : CScript} {s : List Char}
    (parsed : parseFrom result s = some after) : ∃ more, after = result ++ more := by
  unfold parseFrom at parsed
  generalize s.splitOnP isSeparator = words at parsed
  induction words generalizing result with
  | nil =>
      cases parsed
      exact ⟨[], (List.append_nil _).symm⟩
  | cons word rest ih =>
      rw [List.foldlM_cons, parseWord_append] at parsed
      cases appended : parseWord [] word with
      | none => simp [appended] at parsed
      | some bytes =>
          simp only [appended, Option.map_some, Option.bind_eq_bind, Option.bind_some] at parsed
          obtain ⟨more, same⟩ := ih parsed
          exact ⟨bytes ++ more, by rw [same, List.append_assoc]⟩

/-- Text in front without separators belongs to the first word. -/
theorem splitOnP_append_clean {front : List Char} (clean : ∀ c ∈ front, isSeparator c = false)
    (back : List Char) :
    (front ++ back).splitOnP isSeparator =
      (back.splitOnP isSeparator).modifyHead (front ++ ·) := by
  induction front with
  | nil =>
      rw [List.nil_append]
      cases back.splitOnP isSeparator <;> rfl
  | cons c rest ih =>
      have behind := ih fun d member => clean d (List.mem_cons_of_mem c member)
      rw [List.cons_append, List.splitOnP_cons_eq_if_modifyHead,
        if_neg (by simp [clean c List.mem_cons_self]), behind, List.modifyHead_modifyHead]
      rfl

theorem clean_hexStr (bytes : List UInt8) :
    ∀ c ∈ '0' :: 'x' :: hexStr bytes, isSeparator c = false := by
  intro c member
  simp only [List.mem_cons] at member
  obtain rfl | rfl | digit := member
  · rfl
  · rfl
  · have isDigit := hexDigit_of_mem_hexStr digit
    by_contra separator
    simp only [Bool.not_eq_false, isSeparator, Bool.or_eq_true, decide_eq_true_eq] at separator
    obtain (rfl | rfl) | rfl := separator <;> cases isDigit

theorem isNumber_hex (text : List Char) : isNumber ('0' :: 'x' :: text) = false := by
  simp [isNumber]

/-- No opcode has a name like a number in hex. -/
theorem lookup_hex (text : List Char) : mapOpNames.lookup ('0' :: 'x' :: text) = none := by
  have all : ∀ entry ∈ mapOpNames, entry.1.take 2 ≠ ['0', 'x'] := by decide +kernel
  rw [List.lookup_eq_none_iff]
  intro entry member
  have apart := all entry member
  simp only [bne_iff_ne, ne_eq]
  intro same
  rw [← same] at apart
  simp at apart

theorem parseWord_hex (result : CScript) {text : List Char} (nonempty : text ≠ []) :
    parseWord result ('0' :: 'x' :: text) =
      if isHex text = true then some (result ++ parseHex text) else none := by
  have marker : "0x".toList = ['0', 'x'] := by decide
  simp [parseWord, isNumber_hex, lookup_hex, nonempty, marker]

theorem parseWord_hexStr (result : CScript) {bytes : List UInt8} (nonempty : bytes ≠ []) :
    parseWord result ('0' :: 'x' :: hexStr bytes) = some (result ++ bytes) := by
  have digits : hexStr bytes ≠ [] := by
    intro empty
    have length := length_hexStr bytes
    rw [empty] at length
    exact nonempty (List.length_eq_zero_iff.1 (by simpa using length))
  rw [parseWord_hex result digits, if_pos (isHex_hexStr nonempty), parseHex_hexStr]

/-- The word of an opcode is one word and reads as the opcode.  Behind bytes in hex it does not. -/
theorem opWord_spec {opcode : UInt8} {word : List Char} (written : opWord opcode = some word) :
    (∀ c ∈ word, isSeparator c = false) ∧ word ≠ [] ∧ parseWord [] word = some [opcode] ∧
      (isHex word = true → ∃ byte more, parseHex word = byte :: more ∧ byte ≠ opcode) := by
  have all : ∀ n < 256, ∀ word ∈ opWord (UInt8.ofNat n),
      (word.all fun c => !isSeparator c) = true ∧ word ≠ [] ∧
        parseWord [] word = some [UInt8.ofNat n] ∧
        (isHex word = true → (parseHex word).head? ≠ none ∧
          (parseHex word).head? ≠ some (UInt8.ofNat n)) := by
    decide +kernel
  have bound := opcode.toNat_lt
  obtain ⟨clean, nonempty, read, glued⟩ := all opcode.toNat bound word (by simpa using written)
  rw [UInt8.ofNat_toNat] at read glued
  refine ⟨by simpa using clean, nonempty, read, ?_⟩
  intro hex
  obtain ⟨found, differs⟩ := glued hex
  cases bytes : parseHex word with
  | nil => simp [bytes] at found
  | cons byte more =>
      rw [bytes] at differs
      exact ⟨byte, more, rfl, by simpa using differs⟩

theorem opWord_eq_none_iff {opcode : UInt8} :
    opWord opcode = none ↔ opcode ≠ 0 ∧ opcode ≠ 0x4f ∧ ¬(OP_1 ≤ opcode ∧ opcode ≤ OP_16) ∧
      ¬(0x61 ≤ opcode ∧ opcode ≤ OP_CHECKMULTISIGVERIFY) := by
  have all : ∀ n < 256, opWord (UInt8.ofNat n) = none ↔
      UInt8.ofNat n ≠ 0 ∧ UInt8.ofNat n ≠ 0x4f ∧
        ¬(OP_1 ≤ UInt8.ofNat n ∧ UInt8.ofNat n ≤ OP_16) ∧
        ¬(0x61 ≤ UInt8.ofNat n ∧ UInt8.ofNat n ≤ OP_CHECKMULTISIGVERIFY) := by
    decide +kernel
  simpa using all opcode.toNat opcode.toNat_lt

theorem unspaced_iff {opcode : UInt8} {data : List UInt8} :
    Unspaced (opcode, data) ↔ data = [] ∧ opWord opcode = none := by
  rw [opWord_eq_none_iff]
  rfl

/-- The pieces of an operation: the opcode, the size of the operand and the operand. -/
theorem getOp_pieces {script rest : CScript} {opcode : UInt8} {data : List UInt8}
    (read : getOp script = some (opcode, data, rest)) :
    ∃ size, script = opcode :: (size ++ data) ++ rest := by
  cases script with
  | nil => contradiction
  | cons first tail =>
      simp only [getOp] at read
      split at read
      · cases operand : pushSize first tail with
        | none => simp [operand] at read
        | some sized =>
            obtain ⟨nSize, behind⟩ := sized
            simp only [operand] at read
            split at read
            · contradiction
            · cases read
              obtain ⟨size, isTail⟩ := pushSize_suffix operand
              exact ⟨size, by simp [isTail]⟩
      · cases read
        exact ⟨[], rfl⟩

theorem getOp_of_opWord {script rest : CScript} {opcode : UInt8} {data : List UInt8}
    {word : List Char} (written : opWord opcode = some word)
    (read : getOp script = some (opcode, data, rest)) : script = opcode :: rest := by
  have noPush : opcode ≤ OP_PUSHDATA4 → opcode = 0 := by
    intro isData
    have bound : opcode.toNat ≤ 78 := isData
    by_contra nonzero
    have unwritten : opWord opcode = none := by
      apply opWord_eq_none_iff.2
      refine ⟨nonzero, ?_, ?_, ?_⟩
      · intro same
        rw [same] at bound
        exact absurd bound (by decide)
      · intro number
        have high : 81 ≤ opcode.toNat := number.1
        omega
      · intro named
        have high : 97 ≤ opcode.toNat := named.1
        omega
    rw [unwritten] at written
    cases written
  cases script with
  | nil => contradiction
  | cons first tail =>
      simp only [getOp] at read
      split at read
      · rename_i isData
        have zero : first = 0 := by
          cases operand : pushSize first tail with
          | none => simp [operand] at read
          | some sized =>
              simp only [operand] at read
              split at read
              · contradiction
              · cases read
                exact noPush isData
        subst zero
        have sized : pushSize 0 tail = some (0, tail) := rfl
        simp only [sized, Nat.not_lt_zero, if_false] at read
        cases read
        rfl
      · cases read
        rfl

/-- What is written for an operation that is not left without a blank: words that read as its
bytes. -/
theorem formatOp_spec {raw rest : CScript} {opcode : UInt8} {data : List UInt8}
    (read : getOp (raw ++ rest) = some (opcode, data, rest))
    (spaced : ¬Unspaced (opcode, data)) :
    ∃ text, formatOp opcode data raw = text ++ [' '] ∧
      ∀ result, parseFrom result text = some (result ++ raw) := by
  have marker : "0x".toList = ['0', 'x'] := by decide
  unfold formatOp
  cases written : opWord opcode with
  | some word =>
      obtain ⟨clean, -, reads, -⟩ := opWord_spec written
      have single : raw = [opcode] := by
        have whole := getOp_of_opWord written read
        exact List.append_cancel_right (whole.trans (List.singleton_append).symm)
      refine ⟨word, rfl, ?_⟩
      intro result
      rw [parseFrom_word clean, parseWord_append, reads, single]
      rfl
  | none =>
      have operand : data.length > 0 := by
        rw [unspaced_iff] at spaced
        exact List.length_pos_iff.2 fun empty => spaced ⟨empty, written⟩
      obtain ⟨size, pieces⟩ := getOp_pieces read
      have split : raw = opcode :: (size ++ data) := List.append_cancel_right pieces
      have front : raw.take (raw.length - data.length) ≠ [] := by
        simp [split]
        omega
      have back : raw.drop (raw.length - data.length) ≠ [] := by
        simp only [ne_eq, List.drop_eq_nil_iff, not_le]
        simp [split]
        omega
      simp only [if_pos operand, marker, List.cons_append, List.nil_append]
      refine ⟨'0' :: 'x' :: hexStr (raw.take (raw.length - data.length)) ++ ' ' ::
        ('0' :: 'x' :: hexStr (raw.drop (raw.length - data.length))), by simp, ?_⟩
      intro result
      rw [parseFrom_append, parseFrom_word (clean_hexStr _), parseWord_hexStr _ front,
        Option.bind_some, parseFrom_word (clean_hexStr _), parseWord_hexStr _ back,
        List.append_assoc, List.take_append_drop]

theorem formatFrom_succ {script rest : CScript} {opcode : UInt8} {data : List UInt8} (passes : Nat)
    (read : getOp script = some (opcode, data, rest)) :
    ∃ raw, script = raw ++ rest ∧ raw ≠ [] ∧
      formatFrom (passes + 1) script = formatOp opcode data raw ++ formatFrom passes rest := by
  obtain ⟨size, pieces⟩ := getOp_pieces read
  refine ⟨opcode :: (size ++ data), pieces, by simp, ?_⟩
  have taken : script.take (script.length - rest.length) = opcode :: (size ++ data) := by
    rw [pieces, List.length_append, Nat.add_sub_cancel, List.take_left]
  cases script with
  | nil => contradiction
  | cons first tail => simp only [formatFrom, read, taken]

theorem formatFrom_reads {passes : Nat} {script : CScript} (enough : script.length ≤ passes)
    (spaced : ∀ operation ∈ operations passes script, ¬Unspaced operation)
    (nonempty : script ≠ []) :
    ∃ text, formatFrom passes script = text ++ [' '] ∧
      ∀ result, parseFrom result text = some (result ++ script) := by
  induction passes generalizing script with
  | zero => exact absurd (List.length_eq_zero_iff.1 (Nat.le_zero.1 enough)) nonempty
  | succ passes ih =>
      cases read : getOp script with
      | none =>
          cases script with
          | nil => exact absurd rfl nonempty
          | cons first tail =>
              have marker : "0x".toList = ['0', 'x'] := by decide
              refine ⟨'0' :: 'x' :: hexStr (first :: tail), by simp [formatFrom, read, marker], ?_⟩
              intro result
              rw [parseFrom_word (clean_hexStr _), parseWord_hexStr _ nonempty]
      | some operation =>
          obtain ⟨opcode, data, rest⟩ := operation
          obtain ⟨raw, rfl, some, written⟩ := formatFrom_succ passes read
          simp only [operations, read, List.mem_cons, forall_eq_or_imp] at spaced
          obtain ⟨body, isBody, reads⟩ := formatOp_spec read spaced.1
          have shorter := getOp_length read
          rw [written, isBody]
          by_cases atEnd : rest = []
          · subst atEnd
            have nothing : formatFrom passes [] = [] := by cases passes <;> rfl
            exact ⟨body, by rw [nothing, List.append_nil], fun result => by
              rw [reads, List.append_nil]⟩
          · obtain ⟨text, isText, behind⟩ := ih (by omega) spaced.2 atEnd
            refine ⟨body ++ ' ' :: text, by simp [isText], ?_⟩
            intro result
            rw [parseFrom_append, reads, Option.bind_some, behind, List.append_assoc]

/-- What follows bytes that were written without a blank: a word for an opcode, or bytes in hex. -/
theorem formatFrom_start {passes : Nat} {script : CScript} (enough : script.length ≤ passes)
    (nonempty : script ≠ []) :
    (∃ opcode word rest passes', script = opcode :: rest ∧ opWord opcode = some word ∧
      formatFrom passes script = word ++ ' ' :: formatFrom passes' rest) ∨
    ∃ c text, formatFrom passes script = '0' :: 'x' :: c :: text := by
  have marker : "0x".toList = ['0', 'x'] := by decide
  have digits : ∀ {bytes : List UInt8}, bytes ≠ [] → ∃ c text, hexStr bytes = c :: text := by
    intro bytes filled
    apply List.exists_cons_of_ne_nil
    intro empty
    have length := length_hexStr bytes
    rw [empty] at length
    exact filled (List.length_eq_zero_iff.1 (by simpa using length))
  cases passes with
  | zero => exact absurd (List.length_eq_zero_iff.1 (Nat.le_zero.1 enough)) nonempty
  | succ passes =>
      cases read : getOp script with
      | none =>
          obtain ⟨c, text, hex⟩ := digits nonempty
          cases script with
          | nil => exact absurd rfl nonempty
          | cons first tail => exact Or.inr ⟨c, text ++ [' '], by simp [formatFrom, read, marker, hex]⟩
      | some operation =>
          obtain ⟨opcode, data, rest⟩ := operation
          obtain ⟨raw, whole, filled, written⟩ := formatFrom_succ passes read
          cases word : opWord opcode with
          | some text =>
              left
              refine ⟨opcode, text, rest, passes, getOp_of_opWord word read, word, ?_⟩
              rw [written]
              simp [formatOp, word]
          | none =>
              right
              rw [written]
              simp only [formatOp, word, marker]
              split
              · obtain ⟨size, pieces⟩ := getOp_pieces read
                have split : raw = opcode :: (size ++ data) :=
                  List.append_cancel_right (whole.symm.trans pieces)
                have front : raw.take (raw.length - data.length) ≠ [] := by
                  simp [split]
                  omega
                obtain ⟨c, text, hex⟩ := digits front
                exact ⟨c, _, by simp only [hex, List.cons_append, List.nil_append]; rfl⟩
              · obtain ⟨c, text, hex⟩ := digits filled
                exact ⟨c, _, by simp only [hex, List.cons_append, List.nil_append]; rfl⟩

/-- Bytes that run into bytes in hex are refused. -/
theorem parseFrom_glued_hex (result : CScript) {raw : List UInt8} (filled : raw ≠ [])
    (text : List Char) :
    parseFrom result ('0' :: 'x' :: hexStr raw ++ '0' :: 'x' :: text) = none := by
  rw [parseFrom, splitOnP_append_clean (clean_hexStr raw)]
  have marker := @splitOnP_append_clean ['0', 'x'] (by simp [isSeparator]) text
  rw [List.cons_append, List.cons_append, List.nil_append] at marker
  rw [marker, List.modifyHead_modifyHead]
  cases words : text.splitOnP isSeparator with
  | nil => exact absurd words (List.splitOnP_ne_nil _ _)
  | cons first rest =>
      have refused : isHex (hexStr raw ++ '0' :: 'x' :: first) = false := by
        rw [Bool.eq_false_iff]
        intro hex
        have digit := ((isHex_hexStr_append filled).1 hex).1 'x' (by simp)
        cases digit
      rw [List.modifyHead_cons, List.foldlM_cons]
      simp only [Function.comp_apply, List.cons_append, List.nil_append]
      rw [parseWord_hex _ (by simp), refused]
      rfl

/-- Bytes that run into the word of an opcode do not read as the bytes and the opcode. -/
theorem parseFrom_glued_word {result raw after : CScript} (filled : raw ≠ []) {opcode : UInt8}
    {word : List Char} (isWord : opWord opcode = some word) {text : List Char}
    (behind : text = [] ∨ ∃ rest, text = ' ' :: rest) :
    parseFrom result ('0' :: 'x' :: hexStr raw ++ (word ++ text)) ≠
      some (result ++ raw ++ opcode :: after) := by
  obtain ⟨clean, nonempty, -, glued⟩ := opWord_spec isWord
  have one : ∀ c ∈ '0' :: 'x' :: hexStr raw ++ word, isSeparator c = false := by
    intro c member
    cases List.mem_append.1 member with
    | inl front => exact clean_hexStr raw c front
    | inr back => exact clean c back
  intro parsed
  have first : ∃ middle, parseFrom result ('0' :: 'x' :: hexStr raw ++ word) = some middle ∧
      ∃ more, result ++ raw ++ opcode :: after = middle ++ more := by
    rw [← List.append_assoc] at parsed
    cases behind with
    | inl empty =>
        rw [empty, List.append_nil] at parsed
        exact ⟨_, parsed, [], (List.append_nil _).symm⟩
    | inr blank =>
        obtain ⟨rest, rfl⟩ := blank
        rw [parseFrom_append, Option.bind_eq_some_iff] at parsed
        obtain ⟨middle, front, back⟩ := parsed
        exact ⟨middle, front, parseFrom_extends back⟩
  obtain ⟨middle, front, more, whole⟩ := first
  rw [parseFrom_word one, List.cons_append, List.cons_append, parseWord_hex _ (by simp [nonempty])]
    at front
  split at front
  · rename_i hex
    obtain ⟨digits, even⟩ := (isHex_hexStr_append filled).1 hex
    have isHexWord : isHex word = true := by
      have positive := List.length_pos_iff.2 nonempty
      simp only [isHex, Bool.and_eq_true, List.all_eq_true, decide_eq_true_eq]
      exact ⟨⟨digits, positive⟩, even⟩
    obtain ⟨byte, others, bytes, differs⟩ := glued isHexWord
    rw [parseHex_hexStr_append, bytes] at front
    cases front
    simp only [List.append_assoc, List.append_cancel_left_eq, List.cons_append,
      List.cons.injEq] at whole
    exact differs whole.1.symm
  · cases front

/-- Bytes without their last digit are refused. -/
theorem parseFrom_cut (result : CScript) {raw : List UInt8} (filled : raw ≠ []) :
    parseFrom result ('0' :: 'x' :: hexStr raw).dropLast = none := by
  have length := length_hexStr raw
  have positive := List.length_pos_iff.2 filled
  have digits : hexStr raw ≠ [] := List.length_pos_iff.1 (by omega)
  have odd : (hexStr raw).dropLast.length = 2 * raw.length - 1 := by
    rw [List.length_dropLast, length]
  have left : (hexStr raw).dropLast ≠ [] := List.length_pos_iff.1 (by omega)
  have clean : ∀ c ∈ ('0' :: 'x' :: hexStr raw).dropLast, isSeparator c = false :=
    fun c member => clean_hexStr raw c (List.dropLast_subset _ member)
  have refused : isHex (hexStr raw).dropLast = false := by
    simp only [isHex, Bool.and_eq_false_iff, decide_eq_false_iff_not]
    right
    omega
  rw [parseFrom_word clean, List.dropLast_cons_cons, List.dropLast_cons_of_ne_nil digits,
    parseWord_hex result left, refused]
  rfl

/-- An operation that is written without a blank loses the script: at the end its last digit is taken
away, and else it runs into what is written behind it. -/
theorem formatFrom_lost {passes : Nat} {script : CScript} (enough : script.length ≤ passes)
    (unspaced : ∃ operation ∈ operations passes script, Unspaced operation) (result : CScript) :
    parseFrom result (formatFrom passes script).dropLast ≠ some (result ++ script) := by
  have marker : "0x".toList = ['0', 'x'] := by decide
  induction passes generalizing script result with
  | zero =>
      obtain ⟨operation, member, -⟩ := unspaced
      cases member
  | succ passes ih =>
      cases read : getOp script with
      | none =>
          obtain ⟨operation, member, -⟩ := unspaced
          simp only [operations, read] at member
          cases member
      | some operation =>
          obtain ⟨opcode, data, rest⟩ := operation
          obtain ⟨raw, rfl, filled, written⟩ := formatFrom_succ passes read
          have shorter := getOp_length read
          rw [written]
          by_cases here : Unspaced (opcode, data)
          · obtain ⟨rfl, noWord⟩ := unspaced_iff.1 here
            have bare : formatOp opcode [] raw = '0' :: 'x' :: hexStr raw := by
              simp [formatOp, noWord, marker]
            rw [bare]
            by_cases atEnd : rest = []
            · have nothing : formatFrom passes rest = [] := by
                rw [atEnd]
                cases passes <;> rfl
              rw [nothing, List.append_nil]
              rw [parseFrom_cut result filled]
              simp
            · cases formatFrom_start (by omega : rest.length ≤ passes) atEnd with
              | inl word =>
                  obtain ⟨opcode', word, rest', passes', rfl, isWord, start⟩ := word
                  rw [start, List.dropLast_append_of_ne_nil (by simp),
                    List.dropLast_append_of_ne_nil (by simp), ← List.append_assoc result]
                  apply parseFrom_glued_word filled isWord
                  cases formatFrom passes' rest' with
                  | nil => exact Or.inl rfl
                  | cons c text => exact Or.inr ⟨(c :: text).dropLast, rfl⟩
              | inr hex =>
                  obtain ⟨c, text, start⟩ := hex
                  rw [start, List.dropLast_append_of_ne_nil (by simp), List.dropLast_cons_cons,
                    List.dropLast_cons_cons, parseFrom_glued_hex result filled]
                  simp
          · obtain ⟨body, isBody, reads⟩ := formatOp_spec read here
            have behind : ∃ operation ∈ operations passes rest, Unspaced operation := by
              simp only [operations, read, List.mem_cons, exists_eq_or_imp] at unspaced
              exact unspaced.resolve_left here
            have nonempty : formatFrom passes rest ≠ [] := by
              have filled : rest ≠ [] := by
                rintro rfl
                obtain ⟨operation, member, -⟩ := behind
                cases passes <;> cases member
              cases formatFrom_start (by omega : rest.length ≤ passes) filled with
              | inl word =>
                  obtain ⟨_, word, _, _, _, _, start⟩ := word
                  simp [start]
              | inr hex =>
                  obtain ⟨_, _, start⟩ := hex
                  simp [start]
            rw [isBody, List.append_assoc, List.singleton_append,
              List.dropLast_append_of_ne_nil (by simp), List.dropLast_cons_of_ne_nil nonempty,
              parseFrom_append, reads, Option.bind_some, ← List.append_assoc]
            exact ih (by omega) behind _

/-- The text of a script reads as the script, if and only if each of its operations is written with a
blank behind it. -/
theorem parseScript_formatScript_iff (script : CScript) :
    parseScript (formatScript script) = some script ↔
      ∀ operation ∈ operations script.length script, ¬Unspaced operation := by
  change parseFrom [] (formatFrom script.length script).dropLast = some script ↔ _
  constructor
  · intro back operation member unspaced
    exact formatFrom_lost (Nat.le_refl _) ⟨operation, member, unspaced⟩ [] back
  · intro spaced
    by_cases empty : script = []
    · subst empty
      rfl
    · obtain ⟨text, isText, reads⟩ := formatFrom_reads (Nat.le_refl _) spaced empty
      rw [isText, List.dropLast_concat, reads, List.nil_append]

/-- A script that ends with an opcode that has no name is not read back. -/
theorem unknownOpcode_not_readBack :
    parseScript (formatScript [0x76, 0xba]) = none ∧
      parseScript (formatScript [0xb0, 0x60]) = some [0xb0, 0x16] := by
  decide

end CScript

end Lycancoin
