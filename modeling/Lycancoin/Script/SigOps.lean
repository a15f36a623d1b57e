import Lycancoin.Primitives.Block

namespace Lycancoin.CScript

def OP_PUSHDATA1 : UInt8 := 0x4c

def OP_PUSHDATA2 : UInt8 := 0x4d

def OP_PUSHDATA4 : UInt8 := 0x4e

def OP_1 : UInt8 := 0x51

def OP_16 : UInt8 := 0x60

def OP_DUP : UInt8 := 0x76

def OP_EQUAL : UInt8 := 0x87

def OP_EQUALVERIFY : UInt8 := 0x88

def OP_HASH160 : UInt8 := 0xa9

def OP_CHECKSIG : UInt8 := 0xac

def OP_CHECKSIGVERIFY : UInt8 := 0xad

def OP_CHECKMULTISIG : UInt8 := 0xae

def OP_CHECKMULTISIGVERIFY : UInt8 := 0xaf

def OP_INVALIDOPCODE : UInt8 := 0xff

/-- The size of the immediate operand of a push, and the bytes that follow the size. -/
def pushSize (opcode : UInt8) (script : CScript) : Option (Nat × CScript) :=
  if opcode < OP_PUSHDATA1 then some (opcode.toNat, script)
  else if opcode = OP_PUSHDATA1 then
    match script with
    | size :: rest => some (size.toNat, rest)
    | [] => none
  else if opcode = OP_PUSHDATA2 then
    match script with
    | low :: high :: rest => some (low.toNat + high.toNat <<< 8, rest)
    | _ => none
  else
    match script with
    | a :: b :: c :: d :: rest =>
        some (a.toNat + b.toNat <<< 8 + c.toNat <<< 16 + d.toNat <<< 24, rest)
    | _ => none

/-- `GetOp`: the next opcode, its operand and the rest of the script. -/
def getOp (script : CScript) : Option (UInt8 × List UInt8 × CScript) :=
  match script with
  | [] => none
  | opcode :: rest =>
      if opcode ≤ OP_PUSHDATA4 then
        match pushSize opcode rest with
        | none => none
        | some (nSize, rest) =>
            if rest.length < nSize then none else some (opcode, rest.take nSize, rest.drop nSize)
      else some (opcode, [], rest)

/-- The loop of `GetSigOpCount(bool)`.  Every pass reads at least one byte. -/
def sigOpLoop (fAccurate : Bool) : Nat → UInt8 → CScript → Nat
  | 0, _, _ => 0
  | passes + 1, lastOpcode, script =>
      match getOp script with
      | none => 0
      | some (opcode, _, rest) =>
          let found :=
            if opcode = OP_CHECKSIG ∨ opcode = OP_CHECKSIGVERIFY then 1
            else if opcode = OP_CHECKMULTISIG ∨ opcode = OP_CHECKMULTISIGVERIFY then
              if fAccurate ∧ OP_1 ≤ lastOpcode ∧ lastOpcode ≤ OP_16 then
                lastOpcode.toNat - (OP_1.toNat - 1)
              else 20
            else 0
          found + sigOpLoop fAccurate passes opcode rest

/-- `GetSigOpCount(bool fAccurate)`. -/
def getSigOpCount (script : CScript) (fAccurate : Bool) : Nat :=
  sigOpLoop fAccurate script.length OP_INVALIDOPCODE script

def isPayToScriptHash (script : CScript) : Bool :=
  script.length == 23 && script[0]? == some OP_HASH160 && script[1]? == some 0x14 &&
    script[22]? == some OP_EQUAL

/-- The last item that a script of pushes leaves, and nothing for another script. -/
def lastPush : Nat → List UInt8 → CScript → Option (List UInt8)
  | 0, data, _ => some data
  | passes + 1, data, script =>
      match script with
      | [] => some data
      | _ :: _ =>
          match getOp script with
          | none => none
          | some (opcode, data, rest) => if opcode > OP_16 then none else lastPush passes data rest

/-- `GetSigOpCount(const CScript& scriptSig)`. -/
def getSigOpCountFor (scriptPubKey scriptSig : CScript) : Nat :=
  if scriptPubKey.isPayToScriptHash then
    match lastPush scriptSig.length [] scriptSig with
    | none => 0
    | some subscript => getSigOpCount subscript true
  else getSigOpCount scriptPubKey true

end Lycancoin.CScript
