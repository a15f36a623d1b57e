import Lycancoin.Data.Metered
import Lycancoin.Script.SignatureEncoding
import Lycancoin.Script.StackOps

namespace Lycancoin

open Lycancoin.Data

namespace CScript

def OP_IF : UInt8 := 0x63

def OP_ENDIF : UInt8 := 0x68

def MAX_SCRIPT_ELEMENT_SIZE : Nat := 520

/-- `CScript(vch)`: the script that pushes `vch`. -/
def ofPush (vch : Valtype) : CScript :=
  let size := vch.length
  if size < OP_PUSHDATA1.toNat then UInt8.ofNat size :: vch
  else if size ≤ 0xff then OP_PUSHDATA1 :: UInt8.ofNat size :: vch
  else if size ≤ 0xffff then
    OP_PUSHDATA2 :: UInt8.ofNat size :: UInt8.ofNat (size >>> 8) :: vch
  else
    OP_PUSHDATA4 :: UInt8.ofNat size :: UInt8.ofNat (size >>> 8) :: UInt8.ofNat (size >>> 16) ::
      UInt8.ofNat (size >>> 24) :: vch

/-- The loop of `FindAndDelete`: occurrences at the current place are erased
before the next instruction is passed over. -/
def deleteLoop (pattern : CScript) : Nat → CScript → CScript
  | 0, script => script
  | passes + 1, script =>
      if pattern.isPrefixOf script then deleteLoop pattern passes (script.drop pattern.length)
      else
        match getOp script with
        | none => script
        | some (_, _, rest) =>
            script.take (script.length - rest.length) ++ deleteLoop pattern passes rest

def findAndDelete (script pattern : CScript) : CScript :=
  if pattern.isEmpty then script else deleteLoop pattern (script.length + 1) script

/-- The opcodes that `EvalScript` refuses before it looks at the stack. -/
def isDisabled (opcode : UInt8) : Bool :=
  [0x7e, 0x7f, 0x80, 0x81, 0x83, 0x84, 0x85, 0x86, 0x8d, 0x8e, 0x95, 0x96, 0x97, 0x98,
    0x99].contains opcode

def isPushOnlyLoop : Nat → CScript → Bool
  | _, [] => true
  | 0, _ :: _ => false
  | passes + 1, script =>
      match getOp script with
      | none => false
      | some (opcode, _, rest) => !(opcode > OP_16) && isPushOnlyLoop passes rest

def isPushOnly (script : CScript) : Bool := isPushOnlyLoop script.length script

end CScript

/-- The cases of the `switch`. -/
inductive Opcode where
  | onStack (op : StackOp)
  | OP_NOP
  | OP_NOP1_NOP10
  | OP_IF
  | OP_NOTIF
  | OP_ELSE
  | OP_ENDIF
  | OP_RETURN
  | OP_TOALTSTACK
  | OP_FROMALTSTACK
  | OP_CODESEPARATOR
  | OP_CHECKSIG
  | OP_CHECKSIGVERIFY
  | OP_CHECKMULTISIG
  | OP_CHECKMULTISIGVERIFY
  | unknown
deriving DecidableEq, Repr

/-- The numbers of the opcodes that only touch the main stack. -/
def StackOp.ofByte (byte : UInt8) : Option StackOp :=
  match byte.toNat with
  | 0x4f => some (.OP_N (-1))
  | 0x51 => some (.OP_N 1)
  | 0x52 => some (.OP_N 2)
  | 0x53 => some (.OP_N 3)
  | 0x54 => some (.OP_N 4)
  | 0x55 => some (.OP_N 5)
  | 0x56 => some (.OP_N 6)
  | 0x57 => some (.OP_N 7)
  | 0x58 => some (.OP_N 8)
  | 0x59 => some (.OP_N 9)
  | 0x5a => some (.OP_N 10)
  | 0x5b => some (.OP_N 11)
  | 0x5c => some (.OP_N 12)
  | 0x5d => some (.OP_N 13)
  | 0x5e => some (.OP_N 14)
  | 0x5f => some (.OP_N 15)
  | 0x60 => some (.OP_N 16)
  | 0x69 => some .OP_VERIFY
  | 0x6d => some .OP_2DROP
  | 0x6e => some .OP_2DUP
  | 0x6f => some .OP_3DUP
  | 0x70 => some .OP_2OVER
  | 0x71 => some .OP_2ROT
  | 0x72 => some .OP_2SWAP
  | 0x73 => some .OP_IFDUP
  | 0x74 => some .OP_DEPTH
  | 0x75 => some .OP_DROP
  | 0x76 => some .OP_DUP
  | 0x77 => some .OP_NIP
  | 0x78 => some .OP_OVER
  | 0x79 => some .OP_PICK
  | 0x7a => some .OP_ROLL
  | 0x7b => some .OP_ROT
  | 0x7c => some .OP_SWAP
  | 0x7d => some .OP_TUCK
  | 0x82 => some .OP_SIZE
  | 0x87 => some .OP_EQUAL
  | 0x88 => some .OP_EQUALVERIFY
  | 0x8b => some (.unary .OP_1ADD)
  | 0x8c => some (.unary .OP_1SUB)
  | 0x8f => some (.unary .OP_NEGATE)
  | 0x90 => some (.unary .OP_ABS)
  | 0x91 => some (.unary .OP_NOT)
  | 0x92 => some (.unary .OP_0NOTEQUAL)
  | 0x93 => some (.binary .OP_ADD)
  | 0x94 => some (.binary .OP_SUB)
  | 0x9a => some (.binary .OP_BOOLAND)
  | 0x9b => some (.binary .OP_BOOLOR)
  | 0x9c => some (.binary .OP_NUMEQUAL)
  | 0x9d => some (.binary .OP_NUMEQUALVERIFY)
  | 0x9e => some (.binary .OP_NUMNOTEQUAL)
  | 0x9f => some (.binary .OP_LESSTHAN)
  | 0xa0 => some (.binary .OP_GREATERTHAN)
  | 0xa1 => some (.binary .OP_LESSTHANOREQUAL)
  | 0xa2 => some (.binary .OP_GREATERTHANOREQUAL)
  | 0xa3 => some (.binary .OP_MIN)
  | 0xa4 => some (.binary .OP_MAX)
  | 0xa5 => some .OP_WITHIN
  | 0xa6 => some (.hash .OP_RIPEMD160)
  | 0xa7 => some (.hash .OP_SHA1)
  | 0xa8 => some (.hash .OP_SHA256)
  | 0xa9 => some (.hash .OP_HASH160)
  | 0xaa => some (.hash .OP_HASH256)
  | _ => none

def Opcode.ofByte (byte : UInt8) : Opcode :=
  match StackOp.ofByte byte with
  | some op => .onStack op
  | none =>
      match byte.toNat with
      | 0x61 => .OP_NOP
      | 0x63 => .OP_IF
      | 0x64 => .OP_NOTIF
      | 0x67 => .OP_ELSE
      | 0x68 => .OP_ENDIF
      | 0x6a => .OP_RETURN
      | 0x6b => .OP_TOALTSTACK
      | 0x6c => .OP_FROMALTSTACK
      | 0xab => .OP_CODESEPARATOR
      | 0xac => .OP_CHECKSIG
      | 0xad => .OP_CHECKSIGVERIFY
      | 0xae => .OP_CHECKMULTISIG
      | 0xaf => .OP_CHECKMULTISIGVERIFY
      | _ => if 0xb0 ≤ byte ∧ byte ≤ 0xb9 then .OP_NOP1_NOP10 else .unknown

structure BaseSignatureChecker where
  checkSig : Valtype → Valtype → CScript → Bool

/-- The local variables of `EvalScript`.  `pc` and `pbegincodehash` are what is
left of the script from there on, and the last element of `vfExec` comes
first. -/
structure Machine where
  stack : Stack
  altstack : List Valtype
  vfExec : List Bool
  nOpCount : Int
  pc : CScript
  pbegincodehash : CScript
deriving DecidableEq, Repr

namespace Machine

variable (hashes : Hashes) (checker : BaseSignatureChecker) (flags : UInt32)

def fExec (machine : Machine) : Bool := !machine.vfExec.contains false

/-- `CheckSig`, which is one call. -/
def checkSig (vchSig vchPubKey : Valtype) (scriptCode : CScript) : Metered Stop Bool :=
  { cost := 1, result := .ok (checker.checkSig vchSig vchPubKey scriptCode) }

/-- `OP_IF` and `OP_NOTIF`. -/
def opIf (negated : Bool) (machine : Machine) : Except Stop Machine :=
  if machine.fExec then do
    failIf (machine.stack.length < 1) .UNBALANCED_CONDITIONAL
    let vch ← machine.stack.stacktop 1
    let stack ← machine.stack.popstack
    pure { machine with stack, vfExec := (castToBool vch != negated) :: machine.vfExec }
  else pure { machine with vfExec := false :: machine.vfExec }

def opElse (machine : Machine) : Except Stop Machine :=
  match machine.vfExec with
  | [] => .error (.fail .UNBALANCED_CONDITIONAL)
  | back :: rest => .ok { machine with vfExec := (!back) :: rest }

def opEndIf (machine : Machine) : Except Stop Machine :=
  match machine.vfExec with
  | [] => .error (.fail .UNBALANCED_CONDITIONAL)
  | _ :: rest => .ok { machine with vfExec := rest }

def opToAltStack (machine : Machine) : Except Stop Machine := do
  machine.stack.needs 1
  let vch ← machine.stack.stacktop 1
  let stack ← machine.stack.popstack
  pure { machine with stack, altstack := vch :: machine.altstack }

def opFromAltStack (machine : Machine) : Except Stop Machine := do
  failIf (machine.altstack.length < 1) .INVALID_ALTSTACK_OPERATION
  let vch ← Stack.stacktop machine.altstack 1
  let altstack ← Stack.popstack machine.altstack
  pure { machine with stack := vch :: machine.stack, altstack }

/-- `OP_CHECKSIG` and `OP_CHECKSIGVERIFY`. -/
def opCheckSig (fVerify : Bool) (machine : Machine) : Metered Stop Machine := do
  Metered.free (machine.stack.needs 2)
  let vchSig ← Metered.free (machine.stack.stacktop 2)
  let vchPubKey ← Metered.free (machine.stack.stacktop 1)
  let scriptCode := machine.pbegincodehash.findAndDelete (CScript.ofPush vchSig)
  Metered.free (checkSignatureEncoding vchSig flags)
  Metered.free (checkPubKeyEncoding vchPubKey flags)
  let fSuccess ← checkSig checker vchSig vchPubKey scriptCode
  let stack ← Metered.free machine.stack.popstack
  let stack ← Metered.free stack.popstack
  let stack : Stack := vchBool fSuccess :: stack
  let stack ← Metered.free
    (if fVerify then stack.verify fSuccess .CHECKSIGVERIFY else .ok stack)
  pure { machine with stack }

/-- The signatures of `OP_CHECKMULTISIG` are dropped from the script code. -/
def dropSignatures (stack : Stack) (isig : Nat) : Nat → Nat → CScript → Except Stop CScript
  | 0, _, scriptCode => .ok scriptCode
  | nSigs + 1, k, scriptCode => do
      let vchSig ← stack.stacktop (isig + k)
      dropSignatures stack isig nSigs (k + 1) (scriptCode.findAndDelete (CScript.ofPush vchSig))

/-- The `while` loop of `OP_CHECKMULTISIG`. -/
def multiSigLoop (scriptCode : CScript) (stack : Stack) :
    Nat → Nat → Nat → Nat → Metered Stop Bool
  | _, _, _, 0 => pure true
  | 0, _, _, _ + 1 => Metered.free (.error .unfinished)
  | nKeysCount + 1, ikey, isig, nSigsCount + 1 => do
      let vchSig ← Metered.free (stack.stacktop isig)
      let vchPubKey ← Metered.free (stack.stacktop ikey)
      Metered.free (checkSignatureEncoding vchSig flags)
      Metered.free (checkPubKeyEncoding vchPubKey flags)
      let fOk ← checkSig checker vchSig vchPubKey scriptCode
      let isig := if fOk then isig + 1 else isig
      let nSigsCount := if fOk then nSigsCount else nSigsCount + 1
      if nSigsCount > nKeysCount then pure false
      else multiSigLoop scriptCode stack nKeysCount (ikey + 1) isig nSigsCount

def popMany (stack : Stack) : Nat → Except Stop Stack
  | 0 => .ok stack
  | count + 1 => do
      let stack ← stack.popstack
      popMany stack count

/-- `OP_CHECKMULTISIG` and `OP_CHECKMULTISIGVERIFY`. -/
def opCheckMultiSig (fVerify : Bool) (machine : Machine) : Metered Stop Machine := do
  let fRequireMinimal := hasFlag flags SCRIPT_VERIFY_MINIMALDATA
  Metered.free (machine.stack.needs 1)
  let bn ← Metered.free (machine.stack.number 1 fRequireMinimal)
  let nKeysCount := CScriptNum.getint bn
  Metered.free (failIf (nKeysCount < 0 || nKeysCount > 20) .PUBKEY_COUNT)
  let nOpCount := machine.nOpCount + nKeysCount
  Metered.free (failIf (nOpCount > 201) .OP_COUNT)
  let ikey := 2
  let i := ikey + nKeysCount.toNat
  Metered.free (machine.stack.needs i)
  let bn ← Metered.free (machine.stack.number i fRequireMinimal)
  let nSigsCount := CScriptNum.getint bn
  Metered.free (failIf (nSigsCount < 0 || nSigsCount > nKeysCount) .SIG_COUNT)
  let isig := i + 1
  let i := isig + nSigsCount.toNat
  Metered.free (machine.stack.needs i)
  let scriptCode ← Metered.free
    (dropSignatures machine.stack isig nSigsCount.toNat 0 machine.pbegincodehash)
  let fSuccess ← multiSigLoop checker flags scriptCode machine.stack nKeysCount.toNat ikey isig
    nSigsCount.toNat
  let stack ← Metered.free (popMany machine.stack (i - 1))
  Metered.free (stack.needs 1)
  let dummy ← Metered.free (stack.stacktop 1)
  Metered.free (failIf (hasFlag flags SCRIPT_VERIFY_NULLDUMMY && !dummy.isEmpty) .SIG_NULLDUMMY)
  let stack ← Metered.free stack.popstack
  let stack : Stack := vchBool fSuccess :: stack
  let stack ← Metered.free
    (if fVerify then stack.verify fSuccess .CHECKMULTISIGVERIFY else .ok stack)
  pure { machine with stack, nOpCount }

/-- The `switch`. -/
def execute (machine : Machine) : Opcode → Metered Stop Machine
  | .onStack op => Metered.free do
      let stack ← machine.stack.run hashes (hasFlag flags SCRIPT_VERIFY_MINIMALDATA) op
      pure { machine with stack }
  | .OP_NOP => pure machine
  | .OP_NOP1_NOP10 => Metered.free do
      failIf (hasFlag flags SCRIPT_VERIFY_DISCOURAGE_UPGRADABLE_NOPS)
        .DISCOURAGE_UPGRADABLE_NOPS
      pure machine
  | .OP_IF => Metered.free (machine.opIf false)
  | .OP_NOTIF => Metered.free (machine.opIf true)
  | .OP_ELSE => Metered.free machine.opElse
  | .OP_ENDIF => Metered.free machine.opEndIf
  | .OP_RETURN => Metered.free (.error (.fail .OP_RETURN))
  | .OP_TOALTSTACK => Metered.free machine.opToAltStack
  | .OP_FROMALTSTACK => Metered.free machine.opFromAltStack
  | .OP_CODESEPARATOR => pure { machine with pbegincodehash := machine.pc }
  | .OP_CHECKSIG => machine.opCheckSig checker flags false
  | .OP_CHECKSIGVERIFY => machine.opCheckSig checker flags true
  | .OP_CHECKMULTISIG => machine.opCheckMultiSig checker flags false
  | .OP_CHECKMULTISIGVERIFY => machine.opCheckMultiSig checker flags true
  | .unknown => Metered.free (.error (.fail .BAD_OPCODE))

/-- One instruction after it has been read and admitted. -/
def perform (opcode : UInt8) (vchPushValue : Valtype) (machine : Machine) :
    Metered Stop Machine :=
  if machine.fExec && opcode ≤ CScript.OP_PUSHDATA4 then Metered.free do
    failIf (hasFlag flags SCRIPT_VERIFY_MINIMALDATA && !checkMinimalPush vchPushValue opcode)
      .MINIMALDATA
    pure { machine with stack := vchPushValue :: machine.stack }
  else if machine.fExec || (CScript.OP_IF ≤ opcode && opcode ≤ CScript.OP_ENDIF) then
    machine.execute hashes checker flags (Opcode.ofByte opcode)
  else pure machine

/-- What is checked of an instruction before it is looked at. -/
def enter (opcode : UInt8) (vchPushValue : Valtype) (rest : CScript) (machine : Machine) :
    Except Stop Machine := do
  failIf (vchPushValue.length > CScript.MAX_SCRIPT_ELEMENT_SIZE) .PUSH_SIZE
  let nOpCount :=
    if opcode > CScript.OP_16 then machine.nOpCount + 1 else machine.nOpCount
  failIf (opcode > CScript.OP_16 && nOpCount > 201) .OP_COUNT
  failIf (CScript.isDisabled opcode) .DISABLED_OPCODE
  pure { machine with nOpCount, pc := rest }

def step (machine : Machine) : Metered Stop Machine :=
  match CScript.getOp machine.pc with
  | none => Metered.free (.error (.fail .BAD_OPCODE))
  | some (opcode, vchPushValue, rest) => do
      let machine ← Metered.free (machine.enter opcode vchPushValue rest)
      let machine ← machine.perform hashes checker flags opcode vchPushValue
      Metered.free (failIf (machine.stack.length + machine.altstack.length > 1000) .STACK_SIZE)
      pure machine

/-- The loop.  Every pass reads at least one byte. -/
def loop : Nat → Machine → Metered Stop Machine
  | 0, machine =>
      if machine.pc = [] then pure machine else Metered.free (.error .unfinished)
  | passes + 1, machine =>
      if machine.pc = [] then pure machine
      else do
        let machine ← machine.step hashes checker flags
        loop passes machine

variable {hashes checker flags}

theorem loop_of_nil {machine : Machine} (passes : Nat) (ended : machine.pc = []) :
    machine.loop hashes checker flags passes = pure machine := by
  cases passes <;> exact if_pos ended

theorem loop_of_ne_nil {machine : Machine} (passes : Nat) (more : machine.pc ≠ []) :
    machine.loop hashes checker flags (passes + 1) =
      machine.step hashes checker flags >>= fun next => next.loop hashes checker flags passes :=
  if_neg more

def start (stack : Stack) (script : CScript) : Machine :=
  { stack, altstack := [], vfExec := [], nOpCount := 0, pc := script, pbegincodehash := script }

end Machine

section

variable (hashes : Hashes) (checker : BaseSignatureChecker) (flags : UInt32)

/-- `EvalScript` without its `catch`. -/
def evalScriptBody (stack : Stack) (script : CScript) : Metered Stop Machine := do
  Metered.free (failIf (script.length > 10000) .SCRIPT_SIZE)
  let machine ← (Machine.start stack script).loop hashes checker flags script.length
  Metered.free (failIf (!machine.vfExec.isEmpty) .UNBALANCED_CONDITIONAL)
  pure machine

/-- The `catch` of `EvalScript`: an exception becomes an unknown error. -/
def caught (stop : Stop) : Stop :=
  match stop with
  | .scriptNum | .outOfRange | .stackEmpty => .fail .UNKNOWN_ERROR
  | other => other

/-- `EvalScript`, which leaves its result on the stack. -/
def evalScript (stack : Stack) (script : CScript) : Metered Stop Stack :=
  let body := evalScriptBody hashes checker flags stack script
  { cost := body.cost, result := (body.result.mapError caught).map Machine.stack }

/-- The checks after the P2SH part: the top of the stack holds. -/
def checkTop (stack : Stack) : Except Stop Unit :=
  match stack with
  | [] => .error (.fail .EVAL_FALSE)
  | back :: _ => failIf (!castToBool back) .EVAL_FALSE

/-- The part of `VerifyScript` that runs the redeem script. -/
def verifyRedeemScript (stackCopy : Stack) : Metered Stop Stack :=
  match stackCopy with
  | [] => Metered.free (.error .assertion)
  | pubKeySerialized :: stack => do
      let stack ← evalScript hashes checker flags stack pubKeySerialized
      Metered.free (checkTop stack)
      pure stack

/-- The part of `VerifyScript` up to the redeem script: the stack after the
`scriptSig`, and after the `scriptPubKey`. -/
def verifyOutputScript (scriptSig scriptPubKey : CScript) : Metered Stop (Stack × Stack) := do
  Metered.free
    (failIf (hasFlag flags SCRIPT_VERIFY_SIGPUSHONLY && !scriptSig.isPushOnly) .SIG_PUSHONLY)
  let stackCopy ← evalScript hashes checker flags [] scriptSig
  let stack ← evalScript hashes checker flags stackCopy scriptPubKey
  Metered.free (checkTop stack)
  pure (stackCopy, stack)

/-- The redeem script is run for an output that pays to its hash. -/
def runsRedeemScript (scriptPubKey : CScript) : Bool :=
  hasFlag flags SCRIPT_VERIFY_P2SH && scriptPubKey.isPayToScriptHash

/-- The part of `VerifyScript` about `SCRIPT_VERIFY_CLEANSTACK`. -/
def checkCleanStack (stack : Stack) : Except Stop Unit :=
  if hasFlag flags SCRIPT_VERIFY_CLEANSTACK then
    if hasFlag flags SCRIPT_VERIFY_P2SH then failIf (stack.length != 1) .CLEANSTACK
    else .error .assertion
  else .ok ()

/-- The P2SH part of `VerifyScript`. -/
def verifyP2SH (scriptSig scriptPubKey : CScript) (stackCopy stack : Stack) :
    Metered Stop Stack :=
  if runsRedeemScript flags scriptPubKey then do
    Metered.free (failIf (!scriptSig.isPushOnly) .SIG_PUSHONLY)
    verifyRedeemScript hashes checker flags stackCopy
  else pure stack

def verifyScript (scriptSig scriptPubKey : CScript) : Metered Stop Unit := do
  let pair ← verifyOutputScript hashes checker flags scriptSig scriptPubKey
  let stack ← verifyP2SH hashes checker flags scriptSig scriptPubKey pair.1 pair.2
  Metered.free (checkCleanStack flags stack)

end

def oneSignatureChecker : BaseSignatureChecker :=
  { checkSig := fun vchSig _ _ => vchSig == [0x30] }

/-- Hash functions for runs that hash nothing. -/
def plainHashes : Hashes :=
  { ripemd160 := fun _ => Vector.replicate 20 0
    sha1 := fun _ => Vector.replicate 20 0
    sha256 := fun _ => Vector.replicate 32 0 }

end Lycancoin
