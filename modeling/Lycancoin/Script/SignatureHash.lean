import Lycancoin.Primitives.Serialize
import Lycancoin.Script.RunSafety

namespace Lycancoin

namespace CScript

def OP_CODESEPARATOR : UInt8 := 0xab

/-- The place where a `GetOp` that returns false leaves its iterator. -/
def getOpStop (script : CScript) : CScript :=
  match script with
  | [] => []
  | opcode :: rest =>
      match pushSize opcode rest with
      | none => rest
      | some (_, operand) => operand

inductive Parses : CScript → Prop
  | nil : Parses []
  | step {script rest : CScript} {opcode : UInt8} {data : List UInt8}
      (read : getOp script = some (opcode, data, rest)) (parses : Parses rest) : Parses script

end CScript

open CScript

/-- An enumerator of the hash types, as the `int` that it is compared with. -/
def sigHashInt (sigHash : UInt8) : Int32 := Int32.ofNat sigHash.toNat

def hasAnyoneCanPay (nHashType : Int32) : Bool :=
  nHashType &&& sigHashInt SIGHASH_ANYONECANPAY != 0

/-- Only the low five bits of a hash type tell `SIGHASH_NONE` and `SIGHASH_SINGLE` apart. -/
def isHashType (nHashType : Int32) (sigHash : UInt8) : Bool :=
  nHashType &&& 0x1f == sigHashInt sigHash

structure CTransactionSignatureSerializer where
  txTo : CTransaction
  scriptCode : CScript
  nIn : UInt32
  fAnyoneCanPay : Bool
  fHashSingle : Bool
  fHashNone : Bool

namespace CTransactionSignatureSerializer

def ofHashType (txToIn : CTransaction) (scriptCodeIn : CScript) (nInIn : UInt32)
    (nHashTypeIn : Int32) : CTransactionSignatureSerializer :=
  { txTo := txToIn
    scriptCode := scriptCodeIn
    nIn := nInIn
    fAnyoneCanPay := hasAnyoneCanPay nHashTypeIn
    fHashSingle := isHashType nHashTypeIn SIGHASH_SINGLE
    fHashNone := isHashType nHashTypeIn SIGHASH_NONE }

/-- The first loop of `SerializeScriptCode`. -/
def countCodeSeparators : Nat → CScript → Nat
  | 0, _ => 0
  | passes + 1, it =>
      match getOp it with
      | none => 0
      | some (opcode, _, rest) =>
          (if opcode = OP_CODESEPARATOR then 1 else 0) + countCodeSeparators passes rest

/-- The last write; an iterator is named by what lies behind it. -/
def writeTail (itBegin it : CScript) : List UInt8 :=
  if itBegin ≠ [] then itBegin.take (itBegin.length - it.length) else []

/-- The second loop of `SerializeScriptCode`. -/
def writeCode : Nat → CScript → CScript → List UInt8
  | 0, itBegin, it => writeTail itBegin it
  | passes + 1, itBegin, it =>
      match getOp it with
      | none => writeTail itBegin (getOpStop it)
      | some (opcode, _, rest) =>
          if opcode = OP_CODESEPARATOR then
            itBegin.take (itBegin.length - rest.length - 1) ++ writeCode passes rest rest
          else writeCode passes itBegin rest

variable (serializer : CTransactionSignatureSerializer)

def serializeScriptCode : List UInt8 :=
  let scriptCode := serializer.scriptCode
  let nCodeSeparators := countCodeSeparators scriptCode.length scriptCode
  writeCompactSize (scriptCode.length - nCodeSeparators) ++
    writeCode scriptCode.length scriptCode scriptCode

/-- `SerializeInput`; there is no result where `vin` has no such element. -/
def serializeInput (nInput : Nat) : Option (List UInt8) := do
  let nInput := if serializer.fAnyoneCanPay then serializer.nIn.toNat else nInput
  let txin ← serializer.txTo.vin[nInput]?
  let script :=
    if nInput ≠ serializer.nIn.toNat then CScript.serialize [] else serializer.serializeScriptCode
  let nSequence :=
    if nInput ≠ serializer.nIn.toNat ∧ (serializer.fHashSingle || serializer.fHashNone) then
      serializeInt32 0
    else serializeUInt32 txin.nSequence
  some (txin.prevout.serialize ++ script ++ nSequence)

def serializeOutput (nOutput : Nat) : Option (List UInt8) :=
  if serializer.fHashSingle ∧ nOutput ≠ serializer.nIn.toNat then some CTxOut.null.serialize
  else serializer.txTo.vout[nOutput]?.map CTxOut.serialize

def nInputs : UInt32 :=
  if serializer.fAnyoneCanPay then 1 else UInt32.ofNat serializer.txTo.vin.length

def nOutputs : UInt32 :=
  if serializer.fHashNone then 0
  else if serializer.fHashSingle then serializer.nIn + 1
  else UInt32.ofNat serializer.txTo.vout.length

def serialize : Option (List UInt8) := do
  let vin ← (List.range serializer.nInputs.toNat).mapM serializer.serializeInput
  let vout ← (List.range serializer.nOutputs.toNat).mapM serializer.serializeOutput
  some (serializeInt32 serializer.txTo.nVersion ++
    (writeCompactSize serializer.nInputs.toNat ++ vin.flatten) ++
    (writeCompactSize serializer.nOutputs.toNat ++ vout.flatten) ++
    serializeUInt32 serializer.txTo.nLockTime)

end CTransactionSignatureSerializer

/-- The constant that stands for a hash that cannot be computed. -/
def one : Uint256 := 1

/-- `SignatureHash`, with the hash function of `CHashWriter`. -/
def signatureHash (hash : List UInt8 → Uint256) (scriptCode : CScript) (txTo : CTransaction)
    (nIn : UInt32) (nHashType : Int32) : Option Uint256 :=
  if txTo.vin.length ≤ nIn.toNat then some one
  else if isHashType nHashType SIGHASH_SINGLE ∧ txTo.vout.length ≤ nIn.toNat then some one
  else do
    let txTmp := CTransactionSignatureSerializer.ofHashType txTo scriptCode nIn nHashType
    let ss ← txTmp.serialize
    some (hash (ss ++ serializeInt32 nHashType.toInt))

/-- The other inputs can be updated at will. -/
def freeSequences (nIn : UInt32) (vin : List CTxIn) : List CTxIn :=
  vin.mapIdx fun i txin => if i ≠ nIn.toNat then { txin with nSequence := 0 } else txin

/-- The other inputs lose their scripts and the one that is signed gets `scriptCode`. -/
def signedScripts (nIn : UInt32) (scriptCode : CScript) (vin : List CTxIn) : List CTxIn :=
  (vin.map fun txin => { txin with scriptSig := [] }).modify nIn.toNat fun txin =>
    { txin with scriptSig := scriptCode }

/-- Some of the outputs are blanked out; there is no result where
`SIGHASH_SINGLE` finds no output. -/
def blankOutputs (nIn : UInt32) (nHashType : Int32) (txTmp : CMutableTransaction) :
    Option CMutableTransaction :=
  if isHashType nHashType SIGHASH_NONE then
    some { txTmp with vout := [], vin := freeSequences nIn txTmp.vin }
  else if isHashType nHashType SIGHASH_SINGLE then
    let nOut := nIn
    if txTmp.vout.length ≤ nOut.toNat then none
    else
      let resized := txTmp.vout.take (nOut + 1).toNat
      some { txTmp with
        vout := resized.mapIdx fun i txout => if i < nOut.toNat then CTxOut.null else txout
        vin := freeSequences nIn txTmp.vin }
  else some txTmp

def dropInputs (nIn : UInt32) (nHashType : Int32) (txTmp : CMutableTransaction) :
    Option CMutableTransaction :=
  if hasAnyoneCanPay nHashType then do
    let txin ← txTmp.vin[nIn.toNat]?
    some { txTmp with vin := (txTmp.vin.set 0 txin).take 1 }
  else some txTmp

/-- The copy of the transaction that `SignatureHashOld` changes and serializes;
there is none where it returns one. -/
def modifiedCopy (scriptCode : CScript) (txTo : CTransaction) (nIn : UInt32) (nHashType : Int32) :
    Option CMutableTransaction :=
  if txTo.vin.length ≤ nIn.toNat then none
  else do
    let scriptCode := scriptCode.findAndDelete [OP_CODESEPARATOR]
    let txTmp ← blankOutputs nIn nHashType
      { txTo.toMutable with vin := signedScripts nIn scriptCode txTo.vin }
    dropInputs nIn nHashType txTmp

/-- `SignatureHashOld`, the reference of the unit tests. -/
def signatureHashOld (hash : List UInt8 → Uint256) (scriptCode : CScript) (txTo : CTransaction)
    (nIn : UInt32) (nHashType : Int32) : Uint256 :=
  match modifiedCopy scriptCode txTo nIn nHashType with
  | none => one
  | some txTmp => hash (txTmp.serialize ++ serializeInt32 nHashType.toInt)

end Lycancoin
