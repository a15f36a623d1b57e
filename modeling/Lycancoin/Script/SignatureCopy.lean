import Lycancoin.Script.SignatureHash

namespace Lycancoin

namespace CScript

variable {script code rest : CScript} {opcode : UInt8} {data : List UInt8}

theorem pushSize_suffix {nSize : Nat} (sized : pushSize opcode script = some (nSize, rest)) :
    ∃ size, script = size ++ rest := by
  unfold pushSize at sized
  split_ifs at sized
  · simp only [Option.some.injEq, Prod.mk.injEq] at sized
    exact ⟨[], sized.2⟩
  · split at sized
    · simp only [Option.some.injEq, Prod.mk.injEq] at sized
      exact ⟨[_], by rw [← sized.2]; rfl⟩
    · contradiction
  · split at sized
    · simp only [Option.some.injEq, Prod.mk.injEq] at sized
      exact ⟨[_, _], by rw [← sized.2]; rfl⟩
    · contradiction
  · split at sized
    · simp only [Option.some.injEq, Prod.mk.injEq] at sized
      exact ⟨[_, _, _, _], by rw [← sized.2]; rfl⟩
    · contradiction

theorem getOp_split (read : getOp script = some (opcode, data, rest)) :
    ∃ operand, script = opcode :: operand ++ rest := by
  cases script with
  | nil => contradiction
  | cons first tail =>
      simp only [getOp] at read
      split at read
      · cases operand : pushSize first tail with
        | none =>
            rw [operand] at read
            contradiction
        | some sized =>
            obtain ⟨nSize, behind⟩ := sized
            rw [operand] at read
            simp only at read
            split at read
            · contradiction
            · cases read
              obtain ⟨size, isTail⟩ := pushSize_suffix operand
              refine ⟨size ++ behind.take nSize, ?_⟩
              rw [isTail, List.cons_append, List.append_assoc, List.take_append_drop]
      · cases read
        exact ⟨[], rfl⟩

inductive Stripped : CScript → CScript → Prop
  | nil : Stripped [] []
  | separator {rest code : CScript} (stripped : Stripped rest code) :
      Stripped (OP_CODESEPARATOR :: rest) code
  | other {opcode : UInt8} {data operand rest code : CScript} (differs : opcode ≠ OP_CODESEPARATOR)
      (read : getOp (opcode :: operand ++ rest) = some (opcode, data, rest))
      (stripped : Stripped rest code) : Stripped (opcode :: operand ++ rest) (opcode :: operand ++ code)

theorem getOp_separator (rest : CScript) :
    getOp (OP_CODESEPARATOR :: rest) = some (OP_CODESEPARATOR, [], rest) := rfl

theorem Parses.stripped (parses : Parses script) : ∃ code, Stripped script code := by
  induction parses with
  | nil => exact ⟨[], .nil⟩
  | @step script rest opcode data read parses ih =>
      obtain ⟨code, stripped⟩ := ih
      obtain ⟨operand, split⟩ := getOp_split read
      by_cases separates : opcode = OP_CODESEPARATOR
      · rw [split, separates, List.cons_append, getOp_separator] at read
        simp only [Option.some.injEq, Prod.mk.injEq, true_and] at read
        rw [split, separates, List.cons_append, read.2]
        exact ⟨code, .separator stripped⟩
      · rw [split] at read ⊢
        exact ⟨_, .other separates read stripped⟩

theorem deleteLoop_of_stripped (stripped : Stripped script code) {passes : Nat}
    (enough : script.length < passes) : deleteLoop [OP_CODESEPARATOR] passes script = code := by
  induction stripped generalizing passes with
  | nil =>
      cases passes with
      | zero => rfl
      | succ passes => rfl
  | @separator rest code _ ih =>
      cases passes with
      | zero => contradiction
      | succ passes =>
          rw [deleteLoop, if_pos (by simp)]
          exact ih (Nat.lt_of_succ_lt_succ enough)
  | @other opcode data operand rest code differs read _ ih =>
      cases passes with
      | zero => contradiction
      | succ passes =>
          have notPrefix : ¬[OP_CODESEPARATOR].isPrefixOf (opcode :: operand ++ rest) := by
            simp [List.isPrefixOf, differs.symm]
          have shorter : rest.length < passes := by
            simp only [List.length_append, List.length_cons] at enough
            omega
          have passed : (opcode :: operand ++ rest).length - rest.length =
              (opcode :: operand).length := by
            simp only [List.length_append, List.length_cons]
            omega
          rw [deleteLoop, if_neg notPrefix, read]
          simp only
          rw [passed, List.take_left, ih shorter]

theorem findAndDelete_of_stripped (stripped : Stripped script code) :
    script.findAndDelete [OP_CODESEPARATOR] = code :=
  deleteLoop_of_stripped stripped (Nat.lt_succ_self _)

end CScript

open CScript

namespace CTransactionSignatureSerializer

variable {script code : CScript}

theorem countCodeSeparators_of_stripped (stripped : Stripped script code) {passes : Nat}
    (enough : script.length ≤ passes) :
    countCodeSeparators passes script + code.length = script.length := by
  induction stripped generalizing passes with
  | nil =>
      cases passes with
      | zero => rfl
      | succ passes => rfl
  | @separator rest code _ ih =>
      cases passes with
      | zero => contradiction
      | succ passes =>
          have counted := ih (Nat.le_of_succ_le_succ enough)
          simp only [countCodeSeparators, getOp_separator, if_pos, List.length_cons]
          omega
  | @other opcode data operand rest code differs read _ ih =>
      cases passes with
      | zero => simp at enough
      | succ passes =>
          have shorter : rest.length ≤ passes := by
            simp only [List.length_append, List.length_cons] at enough
            omega
          have counted := ih shorter
          simp only [countCodeSeparators, read, if_neg differs, List.length_append]
          omega

/-- The second loop from `it` on, with what it has not written yet before `it`. -/
theorem writeCode_of_stripped (stripped : Stripped script code) (unwritten : List UInt8)
    {passes : Nat} (enough : script.length ≤ passes) :
    writeCode passes (unwritten ++ script) script = unwritten ++ code := by
  induction stripped generalizing passes unwritten with
  | nil =>
      have ended : writeTail (unwritten ++ []) [] = unwritten ++ [] := by
        by_cases none : unwritten = [] <;> simp [writeTail, none]
      cases passes with
      | zero => exact ended
      | succ passes => exact ended
  | @separator rest code _ ih =>
      cases passes with
      | zero => contradiction
      | succ passes =>
          have before : (unwritten ++ OP_CODESEPARATOR :: rest).length - rest.length - 1 =
              unwritten.length := by
            simp only [List.length_append, List.length_cons]
            omega
          have written := ih [] (Nat.le_of_succ_le_succ enough)
          simp only [writeCode, getOp_separator, if_pos]
          rw [before, List.take_left]
          exact congrArg (unwritten ++ ·) written
  | @other opcode data operand rest code differs read _ ih =>
      cases passes with
      | zero => simp at enough
      | succ passes =>
          have shorter : rest.length ≤ passes := by
            simp only [List.length_append, List.length_cons] at enough
            omega
          have written := ih (unwritten ++ (opcode :: operand)) shorter
          simp only [writeCode, read, if_neg differs]
          rw [← List.append_assoc, ← List.append_assoc]
          exact written

/-- The serializer writes the script that `FindAndDelete` leaves. -/
theorem serializeScriptCode_of_parses (serializer : CTransactionSignatureSerializer)
    (parses : serializer.scriptCode.Parses) :
    serializer.serializeScriptCode =
      CScript.serialize (serializer.scriptCode.findAndDelete [OP_CODESEPARATOR]) := by
  obtain ⟨code, stripped⟩ := parses.stripped
  have counted := countCodeSeparators_of_stripped stripped (Nat.le_refl _)
  have written := writeCode_of_stripped stripped [] (Nat.le_refl _)
  rw [findAndDelete_of_stripped stripped, serializeScriptCode, CScript.serialize]
  rw [List.nil_append, List.nil_append] at written
  have left : serializer.scriptCode.length -
      countCodeSeparators serializer.scriptCode.length serializer.scriptCode = code.length := by
    omega
  rw [left, written]

end CTransactionSignatureSerializer

theorem mapM_range {α β : Type} {f : Nat → Option β} {g : Nat → α → β} (elements : List α)
    (each : ∀ i element, elements[i]? = some element → f i = some (g i element)) :
    (List.range elements.length).mapM f = some (elements.mapIdx g) := by
  induction elements using List.reverseRecOn with
  | nil => rfl
  | append_singleton elements last ih =>
      have earlier := ih fun i element found => each i element (by
        rw [List.getElem?_append_left (List.getElem?_eq_some_iff.mp found).1]
        exact found)
      have final := each elements.length last (by simp)
      rw [List.length_append, List.length_singleton, List.range_succ, List.mapM_append, earlier]
      simp [final]

theorem map_mapIdx {α β γ : Type} (f : β → γ) (g : Nat → α → β) (elements : List α) :
    (elements.mapIdx g).map f = elements.mapIdx fun i element => f (g i element) := by
  apply List.ext_getElem?
  intro i
  simp [Function.comp_def]

namespace CTransactionSignatureSerializer

variable (serializer : CTransactionSignatureSerializer)

def copiedInput (code : CScript) (nInput : Nat) (txin : CTxIn) : CTxIn :=
  { prevout := txin.prevout
    scriptSig := if nInput = serializer.nIn.toNat then code else []
    nSequence :=
      if nInput ≠ serializer.nIn.toNat ∧ (serializer.fHashSingle || serializer.fHashNone) then 0
      else txin.nSequence }

def copiedVin (code : CScript) : List CTxIn :=
  if serializer.fAnyoneCanPay then
    (serializer.txTo.vin[serializer.nIn.toNat]?.map
      (serializer.copiedInput code serializer.nIn.toNat)).toList
  else serializer.txTo.vin.mapIdx (serializer.copiedInput code)

def copiedOutput (nOutput : Nat) (txout : CTxOut) : CTxOut :=
  if serializer.fHashSingle ∧ nOutput ≠ serializer.nIn.toNat then CTxOut.null else txout

def copiedVout : List CTxOut :=
  if serializer.fHashNone then []
  else if serializer.fHashSingle then
    (serializer.txTo.vout.take (serializer.nIn.toNat + 1)).mapIdx serializer.copiedOutput
  else serializer.txTo.vout

variable {serializer}

theorem serializeInput_eq (parses : serializer.scriptCode.Parses) (nInput : Nat) {place : Nat}
    {txin : CTxIn} (isPlace : (if serializer.fAnyoneCanPay then serializer.nIn.toNat else nInput) = place)
    (found : serializer.txTo.vin[place]? = some txin) :
    serializer.serializeInput nInput =
      some (serializer.copiedInput (serializer.scriptCode.findAndDelete [OP_CODESEPARATOR])
        place txin).serialize := by
  simp only [serializeInput, isPlace, found, Option.bind_eq_bind, Option.bind_some,
    serializeScriptCode_of_parses serializer parses, copiedInput, CTxIn.serialize]
  by_cases own : place = serializer.nIn.toNat
  · simp [own]
  · cases free : serializer.fHashSingle || serializer.fHashNone with
    | false => simp [own]
    | true =>
        simp [own]
        rfl

theorem serialize_vin (parses : serializer.scriptCode.Parses)
    (inRange : serializer.nIn.toNat < serializer.txTo.vin.length)
    (fits : serializer.txTo.vin.length < 2 ^ 32) :
    let vin := serializer.copiedVin (serializer.scriptCode.findAndDelete [OP_CODESEPARATOR])
    serializer.nInputs.toNat = vin.length ∧
      (List.range serializer.nInputs.toNat).mapM serializer.serializeInput =
        some (vin.map CTxIn.serialize) := by
  obtain ⟨txin, found⟩ : ∃ txin, serializer.txTo.vin[serializer.nIn.toNat]? = some txin :=
    ⟨_, List.getElem?_eq_getElem inRange⟩
  cases any : serializer.fAnyoneCanPay with
  | true =>
      have own := serializeInput_eq parses 0 (by rw [any, if_pos rfl]) found
      have single : serializer.nInputs.toNat = 1 := by rw [nInputs, any, if_pos rfl]; rfl
      simp [copiedVin, any, found, single, own]
  | false =>
      have count : serializer.nInputs.toNat = serializer.txTo.vin.length := by
        rw [nInputs, any, if_neg Bool.false_ne_true]
        exact UInt32.toNat_ofNat_of_lt' fits
      have each : ∀ i element, serializer.txTo.vin[i]? = some element →
          serializer.serializeInput i =
            some (serializer.copiedInput (serializer.scriptCode.findAndDelete [OP_CODESEPARATOR])
              i element).serialize := fun i element found =>
        serializeInput_eq parses i (by rw [any, if_neg Bool.false_ne_true]) found
      simp only [copiedVin, any, Bool.false_eq_true, if_false, List.length_mapIdx, count, true_and]
      rw [mapM_range _ each, map_mapIdx]

theorem serialize_vout (fits : serializer.txTo.vout.length < 2 ^ 32)
    (matching : serializer.fHashSingle = true →
      serializer.nIn.toNat < serializer.txTo.vout.length) :
    serializer.nOutputs.toNat = serializer.copiedVout.length ∧
      (List.range serializer.nOutputs.toNat).mapM serializer.serializeOutput =
        some (serializer.copiedVout.map CTxOut.serialize) := by
  cases none : serializer.fHashNone with
  | true =>
      have count : serializer.nOutputs = 0 := by rw [nOutputs, none, if_pos rfl]
      simp [copiedVout, none, count]
  | false =>
      cases single : serializer.fHashSingle with
      | true =>
          have inRange := matching single
          have count : serializer.nOutputs.toNat = serializer.nIn.toNat + 1 := by
            rw [nOutputs, none, single, if_neg Bool.false_ne_true, if_pos rfl, UInt32.toNat_add]
            exact Nat.mod_eq_of_lt (by simp; omega)
          have size : (serializer.txTo.vout.take (serializer.nIn.toNat + 1)).length =
              serializer.nIn.toNat + 1 := by
            rw [List.length_take]
            omega
          have each : ∀ i element,
              (serializer.txTo.vout.take (serializer.nIn.toNat + 1))[i]? = some element →
              serializer.serializeOutput i = some (serializer.copiedOutput i element).serialize := by
            intro i element found
            have within : serializer.txTo.vout[i]? = some element := by
              rw [List.getElem?_take] at found
              split at found
              · exact found
              · contradiction
            rw [serializeOutput, copiedOutput]
            split
            · rfl
            · rw [within, Option.map_some]
          have written := mapM_range _ each
          rw [size] at written
          simp only [copiedVout, none, single, Bool.false_eq_true, if_false, if_true,
            List.length_mapIdx, count, size, true_and]
          rw [written, map_mapIdx]
      | false =>
          have count : serializer.nOutputs.toNat = serializer.txTo.vout.length := by
            rw [nOutputs, none, single, if_neg Bool.false_ne_true, if_neg Bool.false_ne_true]
            exact UInt32.toNat_ofNat_of_lt' fits
          have each : ∀ i element, serializer.txTo.vout[i]? = some element →
              serializer.serializeOutput i = some element.serialize := by
            intro i element found
            rw [serializeOutput, single, found]
            simp
          have written := @mapM_range _ _ _ (fun _ => CTxOut.serialize) _ each
          simp only [copiedVout, none, single, Bool.false_eq_true, if_false, count, true_and]
          rw [written, Option.some.injEq, List.mapIdx_eq_iff]
          intro i
          rw [List.getElem?_map]

def copy (serializer : CTransactionSignatureSerializer) : CMutableTransaction :=
  { nVersion := serializer.txTo.nVersion
    vin := serializer.copiedVin (serializer.scriptCode.findAndDelete [OP_CODESEPARATOR])
    vout := serializer.copiedVout
    nLockTime := serializer.txTo.nLockTime }

theorem serialize_eq_copy (parses : serializer.scriptCode.Parses)
    (inRange : serializer.nIn.toNat < serializer.txTo.vin.length)
    (vinFits : serializer.txTo.vin.length < 2 ^ 32)
    (voutFits : serializer.txTo.vout.length < 2 ^ 32)
    (matching : serializer.fHashSingle = true →
      serializer.nIn.toNat < serializer.txTo.vout.length) :
    serializer.serialize = some serializer.copy.serialize := by
  obtain ⟨inputCount, inputs⟩ := serialize_vin parses inRange vinFits
  obtain ⟨outputCount, outputs⟩ := serialize_vout voutFits matching
  rw [serialize, inputs, outputs]
  simp only [Option.bind_eq_bind, Option.bind_some, inputCount, outputCount, copy,
    CMutableTransaction.serialize, serializeVector, List.flatMap_def]

end CTransactionSignatureSerializer

section Reference

variable {scriptCode : CScript} {txTo : CTransaction} {nIn : UInt32} {nHashType : Int32}

theorem getElem?_signedScripts (code : CScript) (vin : List CTxIn) (i : Nat) :
    (signedScripts nIn code vin)[i]? = vin[i]?.map fun txin =>
      { txin with scriptSig := if i = nIn.toNat then code else [] } := by
  rw [signedScripts, List.getElem?_modify, List.getElem?_map]
  cases vin[i]? with
  | none => rfl
  | some txin =>
      by_cases own : i = nIn.toNat
      · simp [own]
      · simp [own, Ne.symm own]

theorem getElem?_freeSequences (vin : List CTxIn) (i : Nat) :
    (freeSequences nIn vin)[i]? = vin[i]?.map fun txin =>
      if i ≠ nIn.toNat then { txin with nSequence := 0 } else txin := by
  rw [freeSequences, List.getElem?_mapIdx]

theorem mapIdx_copiedInput (serializer : CTransactionSignatureSerializer) (code : CScript) :
    serializer.txTo.vin.mapIdx (serializer.copiedInput code) =
      if serializer.fHashSingle || serializer.fHashNone then
        freeSequences serializer.nIn (signedScripts serializer.nIn code serializer.txTo.vin)
      else signedScripts serializer.nIn code serializer.txTo.vin := by
  apply List.ext_getElem?
  intro i
  rw [List.getElem?_mapIdx]
  cases free : serializer.fHashSingle || serializer.fHashNone with
  | false =>
      rw [if_neg Bool.false_ne_true, getElem?_signedScripts]
      cases serializer.txTo.vin[i]? with
      | none => rfl
      | some txin => simp [CTransactionSignatureSerializer.copiedInput, free]
  | true =>
      rw [if_pos rfl, getElem?_freeSequences, getElem?_signedScripts, Option.map_map]
      cases serializer.txTo.vin[i]? with
      | none => rfl
      | some txin =>
          by_cases own : i = serializer.nIn.toNat
          · simp [CTransactionSignatureSerializer.copiedInput, own]
          · simp [CTransactionSignatureSerializer.copiedInput, free, own]

theorem mapIdx_copiedOutput {serializer : CTransactionSignatureSerializer}
    (single : serializer.fHashSingle = true) (vout : List CTxOut) :
    (vout.take (serializer.nIn.toNat + 1)).mapIdx serializer.copiedOutput =
      (vout.take (serializer.nIn.toNat + 1)).mapIdx fun i txout =>
        if i < serializer.nIn.toNat then CTxOut.null else txout := by
  rw [List.mapIdx_eq_mapIdx_iff]
  intro i within
  have atMost : i ≤ serializer.nIn.toNat := by
    rw [List.length_take] at within
    omega
  rw [CTransactionSignatureSerializer.copiedOutput]
  simp only [single, true_and]
  congr 1
  exact propext ⟨fun differs => by omega, fun below => by omega⟩

theorem take_one_set {vin : List CTxIn} {place : Nat} {txin : CTxIn}
    (found : vin[place]? = some txin) : (vin.set 0 txin).take 1 = [txin] := by
  cases vin with
  | nil => contradiction
  | cons first rest => rfl

theorem dropInputs_eq (serializer : CTransactionSignatureSerializer) (code : CScript)
    {nHashType : Int32} {txTmp : CMutableTransaction}
    (any : serializer.fAnyoneCanPay = hasAnyoneCanPay nHashType)
    (inRange : serializer.nIn.toNat < serializer.txTo.vin.length)
    (isCopied : txTmp.vin = serializer.txTo.vin.mapIdx (serializer.copiedInput code)) :
    dropInputs serializer.nIn nHashType txTmp =
      some { txTmp with vin := serializer.copiedVin code } := by
  rw [CTransactionSignatureSerializer.copiedVin, dropInputs, ← any, ← isCopied]
  cases serializer.fAnyoneCanPay with
  | false => rfl
  | true =>
      obtain ⟨txin, found⟩ : ∃ txin, serializer.txTo.vin[serializer.nIn.toNat]? = some txin :=
        ⟨_, List.getElem?_eq_getElem inRange⟩
      have copied : txTmp.vin[serializer.nIn.toNat]? =
          some (serializer.copiedInput code serializer.nIn.toNat txin) := by
        rw [isCopied, List.getElem?_mapIdx, found]
        rfl
      rw [if_pos rfl, if_pos rfl, copied, found]
      simp only [Option.bind_eq_bind, Option.bind_some, take_one_set copied, Option.map_some,
        Option.toList_some]

theorem blankOutputs_eq (scriptCode code : CScript) {txTo : CTransaction} {nIn : UInt32}
    {nHashType : Int32} (fits : txTo.vout.length < 2 ^ 32)
    (matching : isHashType nHashType SIGHASH_SINGLE = true → nIn.toNat < txTo.vout.length) :
    let serializer := CTransactionSignatureSerializer.ofHashType txTo scriptCode nIn nHashType
    blankOutputs nIn nHashType { txTo.toMutable with vin := signedScripts nIn code txTo.vin } =
      some { txTo.toMutable with
        vin := txTo.vin.mapIdx (serializer.copiedInput code), vout := serializer.copiedVout } := by
  intro serializer
  have inputs := mapIdx_copiedInput serializer code
  have hashNone : serializer.fHashNone = isHashType nHashType SIGHASH_NONE := rfl
  have hashSingle : serializer.fHashSingle = isHashType nHashType SIGHASH_SINGLE := rfl
  have sameTx : serializer.txTo = txTo := rfl
  have sameIn : serializer.nIn = nIn := rfl
  rw [sameTx, sameIn] at inputs
  rw [blankOutputs, inputs, CTransactionSignatureSerializer.copiedVout, sameTx, sameIn]
  cases none : isHashType nHashType SIGHASH_NONE with
  | true =>
      rw [none] at hashNone
      simp [hashNone]
  | false =>
      rw [none] at hashNone
      cases single : isHashType nHashType SIGHASH_SINGLE with
      | true =>
          rw [single] at hashSingle
          have inRange := matching single
          have next : (nIn + 1).toNat = nIn.toNat + 1 := by
            rw [UInt32.toNat_add]
            exact Nat.mod_eq_of_lt (by simp; omega)
          have kept := mapIdx_copiedOutput hashSingle txTo.vout
          rw [sameIn] at kept
          simp [hashNone, hashSingle, CTransaction.toMutable, inRange, next, kept]
      | false =>
          rw [single] at hashSingle
          simp [hashNone, hashSingle, CTransaction.toMutable]

theorem modifiedCopy_eq (scriptCode : CScript) {txTo : CTransaction} {nIn : UInt32}
    {nHashType : Int32} (inRange : nIn.toNat < txTo.vin.length) (fits : txTo.vout.length < 2 ^ 32)
    (matching : isHashType nHashType SIGHASH_SINGLE = true → nIn.toNat < txTo.vout.length) :
    modifiedCopy scriptCode txTo nIn nHashType =
      some (CTransactionSignatureSerializer.ofHashType txTo scriptCode nIn nHashType).copy := by
  rw [modifiedCopy, if_neg (Nat.not_le.mpr inRange)]
  have blanked := blankOutputs_eq scriptCode (scriptCode.findAndDelete [OP_CODESEPARATOR]) fits
    matching
  simp only [blanked, Option.bind_eq_bind, Option.bind_some]
  exact dropInputs_eq (CTransactionSignatureSerializer.ofHashType txTo scriptCode nIn nHashType)
    (scriptCode.findAndDelete [OP_CODESEPARATOR]) rfl inRange rfl

/-- An index out of range, or `SIGHASH_SINGLE` without a matching output. -/
def RefusesIndex (txTo : CTransaction) (nIn : UInt32) (nHashType : Int32) : Prop :=
  txTo.vin.length ≤ nIn.toNat ∨
    isHashType nHashType SIGHASH_SINGLE = true ∧ txTo.vout.length ≤ nIn.toNat

instance (txTo : CTransaction) (nIn : UInt32) (nHashType : Int32) :
    Decidable (RefusesIndex txTo nIn nHashType) :=
  inferInstanceAs (Decidable (_ ∨ _))

theorem modifiedCopy_of_refusesIndex (scriptCode : CScript)
    (refuses : RefusesIndex txTo nIn nHashType) :
    modifiedCopy scriptCode txTo nIn nHashType = none := by
  by_cases outside : txTo.vin.length ≤ nIn.toNat
  · rw [modifiedCopy, if_pos outside]
  · obtain ⟨single, unmatched⟩ := refuses.resolve_left outside
    have notNone : isHashType nHashType SIGHASH_NONE = false := by
      have isSingle := beq_iff_eq.mp single
      rw [isHashType, isSingle]
      rfl
    rw [modifiedCopy, if_neg outside]
    simp [blankOutputs, notNone, single, CTransaction.toMutable, unmatched]

theorem signatureHash_of_refusesIndex (hash : List UInt8 → Uint256) (scriptCode : CScript)
    (refuses : RefusesIndex txTo nIn nHashType) :
    signatureHash hash scriptCode txTo nIn nHashType = some one := by
  by_cases outside : txTo.vin.length ≤ nIn.toNat
  · rw [signatureHash, if_pos outside]
  · rw [signatureHash, if_neg outside, if_pos (refuses.resolve_left outside)]

/-- For a script that parses, the serializer writes what the modified copy is
serialized to, and `SignatureHash` returns the constant where there is no copy.
No vector that is read from a stream reaches the bound on the counts. -/
theorem signatureHash_eq_reference {scriptCode : CScript} (parses : scriptCode.Parses)
    {txTo : CTransaction} (vinFits : txTo.vin.length < 2 ^ 32) (voutFits : txTo.vout.length < 2 ^ 32)
    (nIn : UInt32) (nHashType : Int32) :
    (¬RefusesIndex txTo nIn nHashType → ∃ txTmp,
      modifiedCopy scriptCode txTo nIn nHashType = some txTmp ∧
      (CTransactionSignatureSerializer.ofHashType txTo scriptCode nIn nHashType).serialize.map
          (· ++ serializeInt32 nHashType.toInt) =
        some (txTmp.serialize ++ serializeInt32 nHashType.toInt)) ∧
    (∀ hash, signatureHash hash scriptCode txTo nIn nHashType =
      some (signatureHashOld hash scriptCode txTo nIn nHashType)) ∧
    ((∀ hash, signatureHash hash scriptCode txTo nIn nHashType = some one) ↔
      RefusesIndex txTo nIn nHashType) := by
  by_cases refuses : RefusesIndex txTo nIn nHashType
  · have noCopy := modifiedCopy_of_refusesIndex scriptCode refuses
    have returnsOne : ∀ hash, signatureHash hash scriptCode txTo nIn nHashType = some one :=
      fun hash => signatureHash_of_refusesIndex hash scriptCode refuses
    refine ⟨fun accepted => absurd refuses accepted, fun hash => ?_, fun _ => refuses,
      fun _ => returnsOne⟩
    rw [returnsOne hash, signatureHashOld, noCopy]
  · have inRange : nIn.toNat < txTo.vin.length := by
      rw [← Nat.not_le]
      exact fun outside => refuses (Or.inl outside)
    have matching : isHashType nHashType SIGHASH_SINGLE = true → nIn.toNat < txTo.vout.length := by
      intro single
      rw [← Nat.not_le]
      exact fun unmatched => refuses (Or.inr ⟨single, unmatched⟩)
    have copied := modifiedCopy_eq scriptCode inRange voutFits matching
    have written :
        (CTransactionSignatureSerializer.ofHashType txTo scriptCode nIn nHashType).serialize =
          some (CTransactionSignatureSerializer.ofHashType txTo scriptCode nIn
            nHashType).copy.serialize :=
      CTransactionSignatureSerializer.serialize_eq_copy parses inRange vinFits voutFits matching
    have hashed : ∀ hash, signatureHash hash scriptCode txTo nIn nHashType =
        some (signatureHashOld hash scriptCode txTo nIn nHashType) := by
      intro hash
      rw [signatureHash, if_neg (Nat.not_le.mpr inRange),
        if_neg fun unmatched => refuses (Or.inr unmatched), signatureHashOld, copied]
      simp only [written, Option.bind_eq_bind, Option.bind_some]
    refine ⟨fun _ => ⟨_, copied, by rw [written, Option.map_some]⟩, hashed, fun always => ?_,
      fun refused => absurd refused refuses⟩
    have constant := always fun _ => 0
    rw [hashed, signatureHashOld, copied] at constant
    have different : (0 : Uint256) ≠ one := by decide
    exact absurd (Option.some.inj constant) different

def twoInputs : CTransaction :=
  { hash := 0, nVersion := 1, nLockTime := 0, vout := [{ nValue := 5, scriptPubKey := [] }]
    vin := [{ prevout := COutPoint.null, scriptSig := [], nSequence := 7 },
      { prevout := COutPoint.null, scriptSig := [1], nSequence := 9 }] }

/-- The second input of two, with a code separator in the script. -/
theorem signatureHash_eq_reference_separator :
    ∃ txTmp, modifiedCopy [0x51, OP_CODESEPARATOR, 0x01, 0xab] twoInputs 1 0x82 = some txTmp ∧
      (CTransactionSignatureSerializer.ofHashType twoInputs [0x51, OP_CODESEPARATOR, 0x01, 0xab]
          1 0x82).serialize.map (· ++ serializeInt32 (0x82 : Int32).toInt) =
        some (txTmp.serialize ++ serializeInt32 (0x82 : Int32).toInt) :=
  (signatureHash_eq_reference (.step rfl (.step rfl (.step rfl .nil))) (by decide) (by decide)
    1 0x82).1 (by decide)

/-- The operand that looks like a separator stays. -/
example : (modifiedCopy [0x51, OP_CODESEPARATOR, 0x01, 0xab] twoInputs 1 0x82).map (·.vin) =
    some [{ prevout := COutPoint.null, scriptSig := [0x51, 0x01, 0xab], nSequence := 9 }] := by
  decide

end Reference

end Lycancoin
