import Lycancoin.Script.ScriptNum

namespace Lycancoin

/-- The main stack, its top first: `stacktop(-1)` is the head. -/
abbrev Stack := List Valtype

/-- The hash functions under `crypto/`. -/
structure Hashes where
  ripemd160 : List UInt8 → Vector UInt8 20
  sha1 : List UInt8 → Vector UInt8 20
  sha256 : List UInt8 → Vector UInt8 32

inductive UnaryOp where
  | OP_1ADD
  | OP_1SUB
  | OP_NEGATE
  | OP_ABS
  | OP_NOT
  | OP_0NOTEQUAL
deriving DecidableEq, Repr

inductive BinaryOp where
  | OP_ADD
  | OP_SUB
  | OP_BOOLAND
  | OP_BOOLOR
  | OP_NUMEQUAL
  | OP_NUMEQUALVERIFY
  | OP_NUMNOTEQUAL
  | OP_LESSTHAN
  | OP_GREATERTHAN
  | OP_LESSTHANOREQUAL
  | OP_GREATERTHANOREQUAL
  | OP_MIN
  | OP_MAX
deriving DecidableEq, Repr

inductive HashOp where
  | OP_RIPEMD160
  | OP_SHA1
  | OP_SHA256
  | OP_HASH160
  | OP_HASH256
deriving DecidableEq, Repr

/-- The opcodes that touch nothing but the main stack.  `OP_N` stands for
`OP_1NEGATE` and `OP_1` to `OP_16`. -/
inductive StackOp where
  | OP_N (value : Int)
  | OP_VERIFY
  | OP_2DROP
  | OP_2DUP
  | OP_3DUP
  | OP_2OVER
  | OP_2ROT
  | OP_2SWAP
  | OP_IFDUP
  | OP_DEPTH
  | OP_DROP
  | OP_DUP
  | OP_NIP
  | OP_OVER
  | OP_PICK
  | OP_ROLL
  | OP_ROT
  | OP_SWAP
  | OP_TUCK
  | OP_SIZE
  | OP_EQUAL
  | OP_EQUALVERIFY
  | unary (op : UnaryOp)
  | binary (op : BinaryOp)
  | OP_WITHIN
  | hash (op : HashOp)
deriving DecidableEq, Repr

def castToBool : Valtype → Bool
  | [] => false
  | [byte] => byte != 0 && byte != 0x80
  | byte :: rest => byte != 0 || castToBool rest

def vchFalse : Valtype := []

def vchTrue : Valtype := [1]

def vchBool (holds : Bool) : Valtype := if holds then vchTrue else vchFalse

namespace Stack

/-- `stacktop(-depth)`. -/
def stacktop (stack : Stack) (depth : Nat) : Except Stop Valtype :=
  match depth with
  | 0 => .error .outOfRange
  | below + 1 =>
      match stack[below]? with
      | none => .error .outOfRange
      | some vch => .ok vch

def popstack : Stack → Except Stop Stack
  | [] => .error .stackEmpty
  | _ :: rest => .ok rest

/-- `stack.erase(stack.end() - depth)`. -/
def eraseTop (stack : Stack) (depth : Nat) : Except Stop Stack :=
  if 1 ≤ depth ∧ depth ≤ stack.length then .ok (stack.eraseIdx (depth - 1))
  else .error .badIterator

/-- `stack.erase(stack.end() - first, stack.end() - last)`. -/
def eraseRange (stack : Stack) (first last : Nat) : Except Stop Stack :=
  if last ≤ first ∧ first ≤ stack.length then .ok (stack.take last ++ stack.drop first)
  else .error .badIterator

/-- `stack.insert(stack.end() - depth, vch)`. -/
def insertTop (stack : Stack) (depth : Nat) (vch : Valtype) : Except Stop Stack :=
  if depth ≤ stack.length then .ok (stack.take depth ++ vch :: stack.drop depth)
  else .error .badIterator

/-- `swap(stacktop(-first), stacktop(-second))`. -/
def swapTop (stack : Stack) (first second : Nat) : Except Stop Stack := do
  let vch1 ← stack.stacktop first
  let vch2 ← stack.stacktop second
  pure ((stack.set (first - 1) vch2).set (second - 1) vch1)

/-- The test that opens most cases of the `switch`. -/
def needs (stack : Stack) (depth : Nat) : Except Stop Unit :=
  failIf (stack.length < depth) .INVALID_STACK_OPERATION

def number (stack : Stack) (depth : Nat) (fRequireMinimal : Bool) : Except Stop Int := do
  let vch ← stack.stacktop depth
  CScriptNum.ofVch vch fRequireMinimal

/-- `stack.push_back(bn.getvch())`. -/
def pushNumber (stack : Stack) (bn : Int) : Except Stop Stack := do
  let vch ← CScriptNum.serialize bn
  pure (vch :: stack)

def op2Drop (stack : Stack) : Except Stop Stack := do
  stack.needs 2
  let stack ← stack.popstack
  stack.popstack

def op2Dup (stack : Stack) : Except Stop Stack := do
  stack.needs 2
  let vch1 ← stack.stacktop 2
  let vch2 ← stack.stacktop 1
  pure (vch2 :: vch1 :: stack)

def op3Dup (stack : Stack) : Except Stop Stack := do
  stack.needs 3
  let vch1 ← stack.stacktop 3
  let vch2 ← stack.stacktop 2
  let vch3 ← stack.stacktop 1
  pure (vch3 :: vch2 :: vch1 :: stack)

def op2Over (stack : Stack) : Except Stop Stack := do
  stack.needs 4
  let vch1 ← stack.stacktop 4
  let vch2 ← stack.stacktop 3
  pure (vch2 :: vch1 :: stack)

def op2Rot (stack : Stack) : Except Stop Stack := do
  stack.needs 6
  let vch1 ← stack.stacktop 6
  let vch2 ← stack.stacktop 5
  let stack ← stack.eraseRange 6 4
  pure (vch2 :: vch1 :: stack)

def op2Swap (stack : Stack) : Except Stop Stack := do
  stack.needs 4
  let stack ← stack.swapTop 4 2
  stack.swapTop 3 1

def opIfDup (stack : Stack) : Except Stop Stack := do
  stack.needs 1
  let vch ← stack.stacktop 1
  pure (if castToBool vch then vch :: stack else stack)

def opDepth (stack : Stack) : Except Stop Stack := stack.pushNumber stack.length

def opDrop (stack : Stack) : Except Stop Stack := do
  stack.needs 1
  stack.popstack

def opDup (stack : Stack) : Except Stop Stack := do
  stack.needs 1
  let vch ← stack.stacktop 1
  pure (vch :: stack)

def opNip (stack : Stack) : Except Stop Stack := do
  stack.needs 2
  stack.eraseTop 2

def opOver (stack : Stack) : Except Stop Stack := do
  stack.needs 2
  let vch ← stack.stacktop 2
  pure (vch :: stack)

/-- `OP_PICK` and `OP_ROLL`. -/
def opPickRoll (fRequireMinimal roll : Bool) (stack : Stack) : Except Stop Stack := do
  stack.needs 2
  let bn ← stack.number 1 fRequireMinimal
  let n := CScriptNum.getint bn
  let stack ← stack.popstack
  failIf (n < 0 || n ≥ stack.length) .INVALID_STACK_OPERATION
  let vch ← stack.stacktop (n.toNat + 1)
  let stack ← (if roll then stack.eraseTop (n.toNat + 1) else .ok stack)
  pure (vch :: stack)

def opRot (stack : Stack) : Except Stop Stack := do
  stack.needs 3
  let stack ← stack.swapTop 3 2
  stack.swapTop 2 1

def opSwap (stack : Stack) : Except Stop Stack := do
  stack.needs 2
  stack.swapTop 2 1

def opTuck (stack : Stack) : Except Stop Stack := do
  stack.needs 2
  let vch ← stack.stacktop 1
  stack.insertTop 2 vch

def opSize (stack : Stack) : Except Stop Stack := do
  stack.needs 1
  let vch ← stack.stacktop 1
  stack.pushNumber vch.length

/-- What the `VERIFY` variants add: a result that holds is dropped. -/
def verify (stack : Stack) (holds : Bool) (serror : ScriptError) : Except Stop Stack := do
  failIf (!holds) serror
  stack.popstack

def opVerify (stack : Stack) : Except Stop Stack := do
  stack.needs 1
  let vch ← stack.stacktop 1
  stack.verify (castToBool vch) .VERIFY

def opEqual (fVerify : Bool) (stack : Stack) : Except Stop Stack := do
  stack.needs 2
  let vch1 ← stack.stacktop 2
  let vch2 ← stack.stacktop 1
  let fEqual := vch1 == vch2
  let stack ← stack.popstack
  let stack ← stack.popstack
  let stack : Stack := vchBool fEqual :: stack
  (if fVerify then stack.verify fEqual .EQUALVERIFY else .ok stack)

/-- The inner `switch` of the numeric opcodes with one operand. -/
def unaryResult (bn : Int) : UnaryOp → Except Stop Int
  | .OP_1ADD => CScriptNum.addAssign bn 1
  | .OP_1SUB => CScriptNum.subAssign bn 1
  | .OP_NEGATE => CScriptNum.neg bn
  | .OP_ABS => if bn < 0 then CScriptNum.neg bn else .ok bn
  | .OP_NOT => .ok (CScriptNum.ofBool (bn == 0))
  | .OP_0NOTEQUAL => .ok (CScriptNum.ofBool (bn != 0))

def opUnary (fRequireMinimal : Bool) (op : UnaryOp) (stack : Stack) : Except Stop Stack := do
  stack.needs 1
  let bn ← stack.number 1 fRequireMinimal
  let bn ← unaryResult bn op
  let stack ← stack.popstack
  stack.pushNumber bn

/-- The inner `switch` of the numeric opcodes with two operands. -/
def binaryResult (bn1 bn2 : Int) : BinaryOp → Except Stop Int
  | .OP_ADD => CScriptNum.add bn1 bn2
  | .OP_SUB => CScriptNum.sub bn1 bn2
  | .OP_BOOLAND => .ok (CScriptNum.ofBool (bn1 != 0 && bn2 != 0))
  | .OP_BOOLOR => .ok (CScriptNum.ofBool (bn1 != 0 || bn2 != 0))
  | .OP_NUMEQUAL => .ok (CScriptNum.ofBool (bn1 == bn2))
  | .OP_NUMEQUALVERIFY => .ok (CScriptNum.ofBool (bn1 == bn2))
  | .OP_NUMNOTEQUAL => .ok (CScriptNum.ofBool (bn1 != bn2))
  | .OP_LESSTHAN => .ok (CScriptNum.ofBool (bn1 < bn2))
  | .OP_GREATERTHAN => .ok (CScriptNum.ofBool (bn1 > bn2))
  | .OP_LESSTHANOREQUAL => .ok (CScriptNum.ofBool (bn1 ≤ bn2))
  | .OP_GREATERTHANOREQUAL => .ok (CScriptNum.ofBool (bn1 ≥ bn2))
  | .OP_MIN => .ok (if bn1 < bn2 then bn1 else bn2)
  | .OP_MAX => .ok (if bn1 > bn2 then bn1 else bn2)

def opBinary (fRequireMinimal : Bool) (op : BinaryOp) (stack : Stack) : Except Stop Stack := do
  stack.needs 2
  let bn1 ← stack.number 2 fRequireMinimal
  let bn2 ← stack.number 1 fRequireMinimal
  let bn ← binaryResult bn1 bn2 op
  let stack ← stack.popstack
  let stack ← stack.popstack
  let stack ← stack.pushNumber bn
  if op = .OP_NUMEQUALVERIFY then do
    let vch ← stack.stacktop 1
    stack.verify (castToBool vch) .NUMEQUALVERIFY
  else pure stack

def opWithin (fRequireMinimal : Bool) (stack : Stack) : Except Stop Stack := do
  stack.needs 3
  let bn1 ← stack.number 3 fRequireMinimal
  let bn2 ← stack.number 2 fRequireMinimal
  let bn3 ← stack.number 1 fRequireMinimal
  let fValue := bn2 ≤ bn1 && bn1 < bn3
  let stack ← stack.popstack
  let stack ← stack.popstack
  let stack ← stack.popstack
  pure (vchBool fValue :: stack)

/-- The hash of each opcode; `CHash160` and `CHash256` hash twice. -/
def hashResult (hashes : Hashes) (vch : Valtype) : HashOp → Valtype
  | .OP_RIPEMD160 => (hashes.ripemd160 vch).toList
  | .OP_SHA1 => (hashes.sha1 vch).toList
  | .OP_SHA256 => (hashes.sha256 vch).toList
  | .OP_HASH160 => (hashes.ripemd160 (hashes.sha256 vch).toList).toList
  | .OP_HASH256 => (hashes.sha256 (hashes.sha256 vch).toList).toList

def opHash (hashes : Hashes) (op : HashOp) (stack : Stack) : Except Stop Stack := do
  stack.needs 1
  let vch ← stack.stacktop 1
  let stack ← stack.popstack
  pure (hashResult hashes vch op :: stack)

def run (hashes : Hashes) (fRequireMinimal : Bool) (stack : Stack) :
    StackOp → Except Stop Stack
  | .OP_N value => stack.pushNumber value
  | .OP_VERIFY => stack.opVerify
  | .OP_2DROP => stack.op2Drop
  | .OP_2DUP => stack.op2Dup
  | .OP_3DUP => stack.op3Dup
  | .OP_2OVER => stack.op2Over
  | .OP_2ROT => stack.op2Rot
  | .OP_2SWAP => stack.op2Swap
  | .OP_IFDUP => stack.opIfDup
  | .OP_DEPTH => stack.opDepth
  | .OP_DROP => stack.opDrop
  | .OP_DUP => stack.opDup
  | .OP_NIP => stack.opNip
  | .OP_OVER => stack.opOver
  | .OP_PICK => stack.opPickRoll fRequireMinimal false
  | .OP_ROLL => stack.opPickRoll fRequireMinimal true
  | .OP_ROT => stack.opRot
  | .OP_SWAP => stack.opSwap
  | .OP_TUCK => stack.opTuck
  | .OP_SIZE => stack.opSize
  | .OP_EQUAL => stack.opEqual false
  | .OP_EQUALVERIFY => stack.opEqual true
  | .unary op => stack.opUnary fRequireMinimal op
  | .binary op => stack.opBinary fRequireMinimal op
  | .OP_WITHIN => stack.opWithin fRequireMinimal
  | .hash op => stack.opHash hashes op

end Stack

end Lycancoin
