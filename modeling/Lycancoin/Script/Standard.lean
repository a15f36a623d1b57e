import Lycancoin.Script.SigOps

namespace Lycancoin

open CScript

/-- `txnouttype`. -/
inductive TxnOutType where
  | TX_NONSTANDARD
  | TX_PUBKEY
  | TX_PUBKEYHASH
  | TX_SCRIPTHASH
  | TX_MULTISIG
  | TX_NULL_DATA
deriving DecidableEq, Repr

/-- `-datacarrier`, and the bytes that such an output may carry. -/
structure StandardPolicy where
  fDataCarrier : Bool
  nMaxDatacarrierBytes : Nat

namespace CScript

def OP_RETURN : UInt8 := 0x6a

/-! Opcodes that stand in templates. -/

def OP_SMALLDATA : UInt8 := 0xf9

def OP_SMALLINTEGER : UInt8 := 0xfa

def OP_PUBKEYS : UInt8 := 0xfb

def OP_PUBKEYHASH : UInt8 := 0xfd

def OP_PUBKEY : UInt8 := 0xfe

/-- `mTemplates` in its order.  All bytes of a template are opcodes. -/
def templates (policy : StandardPolicy) : List (TxnOutType × CScript) :=
  [(.TX_PUBKEY, [OP_PUBKEY, OP_CHECKSIG]),
    (.TX_PUBKEYHASH, [OP_DUP, OP_HASH160, OP_PUBKEYHASH, OP_EQUALVERIFY, OP_CHECKSIG]),
    (.TX_MULTISIG, [OP_SMALLINTEGER, OP_PUBKEYS, OP_SMALLINTEGER, OP_CHECKMULTISIG])] ++
  (if policy.fDataCarrier then [(.TX_NULL_DATA, [OP_RETURN, OP_SMALLDATA])] else []) ++
  [(.TX_NULL_DATA, [OP_RETURN])]

/-- `DecodeOP_N` of an opcode that stands for a small number. -/
def decodeOpN (opcode : UInt8) : UInt8 := if opcode = 0 then 0 else opcode - (OP_1 - 1)

def isPubKeySize (vch : List UInt8) : Bool := decide (33 ≤ vch.length ∧ vch.length ≤ 65)

/-- The loop for `OP_PUBKEYS`, which ends with the first operation that is no key.  A read that
fails leaves no operation. -/
def takePubKeys : Nat → UInt8 → List UInt8 → CScript → List (List UInt8) →
    UInt8 × List UInt8 × CScript × List (List UInt8)
  | 0, opcode1, vch1, pc1, vSolutions => (opcode1, vch1, pc1, vSolutions)
  | passes + 1, opcode1, vch1, pc1, vSolutions =>
      if isPubKeySize vch1 then
        match getOp pc1 with
        | none => (OP_INVALIDOPCODE, [], pc1, vSolutions ++ [vch1])
        | some (opcode1, vch1', pc1) => takePubKeys passes opcode1 vch1' pc1 (vSolutions ++ [vch1])
      else (opcode1, vch1, pc1, vSolutions)

/-- One operation against one of a template: the solutions with it, or nothing. -/
def matchOp (policy : StandardPolicy) (opcode2 opcode1 : UInt8) (vch1 : List UInt8)
    (vSolutions : List (List UInt8)) : Option (List (List UInt8)) :=
  if opcode2 = OP_PUBKEY then
    if isPubKeySize vch1 then some (vSolutions ++ [vch1]) else none
  else if opcode2 = OP_PUBKEYHASH then
    if vch1.length = 20 then some (vSolutions ++ [vch1]) else none
  else if opcode2 = OP_SMALLINTEGER then
    if opcode1 = 0 ∨ (OP_1 ≤ opcode1 ∧ opcode1 ≤ OP_16) then
      some (vSolutions ++ [[decodeOpN opcode1]])
    else none
  else if opcode2 = OP_SMALLDATA then
    if vch1.length > policy.nMaxDatacarrierBytes then none else some vSolutions
  else if opcode1 = opcode2 ∧ vch1 = [] then some vSolutions
  else none

def matchTemplate (policy : StandardPolicy) :
    CScript → CScript → List (List UInt8) → Option (List (List UInt8))
  | pc1, [], vSolutions => if pc1 = [] then some vSolutions else none
  | pc1, opcode2 :: pc2, vSolutions =>
      match getOp pc1 with
      | none => none
      | some (opcode1, vch1, pc1) =>
          if opcode2 = OP_PUBKEYS then
            let (opcode1, vch1, pc1, vSolutions) :=
              takePubKeys (pc1.length + 1) opcode1 vch1 pc1 vSolutions
            match pc2 with
            | [] => none
            | opcode2 :: pc2 => do
                let vSolutions ← matchOp policy opcode2 opcode1 vch1 vSolutions
                matchTemplate policy pc1 pc2 vSolutions
          else do
            let vSolutions ← matchOp policy opcode2 opcode1 vch1 vSolutions
            matchTemplate policy pc1 pc2 vSolutions

/-- The first and the last solution of a multisig script: so many of so many keys. -/
def isMultisigCount (vSolutions : List (List UInt8)) : Bool :=
  let m := (vSolutions.head?.bind List.head?).getD 0
  let n := (vSolutions.getLast?.bind List.head?).getD 0
  !(decide (m < 1) || decide (n < 1) || decide (m > n) ||
    decide (vSolutions.length - 2 ≠ n.toNat))

def scanTemplates (policy : StandardPolicy) (script : CScript) :
    List (TxnOutType × CScript) → Option (TxnOutType × List (List UInt8))
  | [] => none
  | (typeRet, tplate) :: rest =>
      match matchTemplate policy script tplate [] with
      | none => scanTemplates policy script rest
      | some vSolutions =>
          if typeRet = .TX_MULTISIG ∧ isMultisigCount vSolutions = false then none
          else some (typeRet, vSolutions)

/-- `Solver`, where it returns true. -/
def solver (policy : StandardPolicy) (scriptPubKey : CScript) :
    Option (TxnOutType × List (List UInt8)) :=
  if scriptPubKey.isPayToScriptHash then
    some (.TX_SCRIPTHASH, [(scriptPubKey.drop 2).take 20])
  else scanTemplates policy scriptPubKey (templates policy)

end CScript

def scriptSigArgsExpected (t : TxnOutType) (vSolutions : List (List UInt8)) : Int :=
  match t with
  | .TX_NONSTANDARD | .TX_NULL_DATA => -1
  | .TX_PUBKEY => 1
  | .TX_PUBKEYHASH => 2
  | .TX_MULTISIG =>
      match vSolutions with
      | (m :: _) :: _ => m.toNat + 1
      | _ => -1
  | .TX_SCRIPTHASH => 1

end Lycancoin
