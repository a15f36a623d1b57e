import Lycancoin.Script.SigOps

namespace Lycancoin

/-- The stack elements of the interpreter. -/
abbrev Valtype := List UInt8

inductive ScriptError where
  | UNKNOWN_ERROR
  | EVAL_FALSE
  | OP_RETURN
  | SCRIPT_SIZE
  | PUSH_SIZE
  | OP_COUNT
  | STACK_SIZE
  | SIG_COUNT
  | PUBKEY_COUNT
  | VERIFY
  | EQUALVERIFY
  | CHECKMULTISIGVERIFY
  | CHECKSIGVERIFY
  | NUMEQUALVERIFY
  | BAD_OPCODE
  | DISABLED_OPCODE
  | INVALID_STACK_OPERATION
  | INVALID_ALTSTACK_OPERATION
  | UNBALANCED_CONDITIONAL
  | SIG_HASHTYPE
  | SIG_DER
  | MINIMALDATA
  | SIG_PUSHONLY
  | SIG_HIGH_S
  | SIG_NULLDUMMY
  | PUBKEYTYPE
  | CLEANSTACK
  | DISCOURAGE_UPGRADABLE_NOPS
deriving DecidableEq, Repr

/-- Why the interpreter stops: it sets an error, an exception is thrown (by
`CScriptNum`, by `at` or by `popstack`), an iterator leaves the stack, an
assertion fails, a signed number overflows, or a loop is out of passes. -/
inductive Stop where
  | fail (serror : ScriptError)
  | scriptNum
  | outOfRange
  | stackEmpty
  | badIterator
  | assertion
  | overflow
  | unfinished
deriving DecidableEq, Repr

/-- `set_error` under a condition. -/
def failIf (condition : Bool) (serror : ScriptError) : Except Stop Unit :=
  if condition then .error (.fail serror) else .ok ()

namespace CScriptNum

def int64Max : Int := 2 ^ 63 - 1

def int64Min : Int := -2 ^ 63

def intMax : Int := 2 ^ 31 - 1

def intMin : Int := -2 ^ 31

def nMaxNumSize : Nat := 4

/-- The bytes as a number, the first byte last. -/
def littleEndian : Valtype → Nat
  | [] => 0
  | byte :: rest => byte.toNat + 256 * littleEndian rest

/-- `set_vch`: the sign is the top bit of the last byte. -/
def setVch (vch : Valtype) : Int :=
  match vch.getLast? with
  | none => 0
  | some back =>
      if back &&& 0x80 ≠ 0 then
        -((littleEndian vch : Int) - 0x80 * 256 ^ (vch.length - 1))
      else littleEndian vch

/-- The test of the constructor under `fRequireMinimal`. -/
def nonMinimal (vch : Valtype) : Bool :=
  match vch.reverse with
  | [] => false
  | [back] => back &&& 0x7f == 0
  | back :: previous :: _ => back &&& 0x7f == 0 && previous &&& 0x80 == 0

/-- The constructor from a stack element. -/
def ofVch (vch : Valtype) (fRequireMinimal : Bool) : Except Stop Int :=
  if vch.length > nMaxNumSize then .error .scriptNum
  else if fRequireMinimal && nonMinimal vch then .error .scriptNum
  else .ok (setVch vch)

/-- The loop of `serialize`, eight passes long for an `uint64_t`. -/
def absBytes : Nat → Nat → Valtype
  | 0, _ => []
  | passes + 1, absvalue =>
      if absvalue = 0 then []
      else UInt8.ofNat (absvalue % 256) :: absBytes passes (absvalue / 256)

/-- `serialize`, where the smallest number has no negative. -/
def serialize (value : Int) : Except Stop Valtype :=
  if value = 0 then .ok []
  else if value = int64Min then .error .overflow
  else
    let bytes := absBytes 8 value.natAbs
    let back := bytes.getLastD 0
    if back &&& 0x80 ≠ 0 then .ok (bytes ++ [if value < 0 then 0x80 else 0])
    else if value < 0 then .ok (bytes.dropLast ++ [back ||| 0x80])
    else .ok bytes

def getint (value : Int) : Int :=
  if value > intMax then intMax else if value < intMin then intMin else value

/-- The value of an `int64_t` expression. -/
def int64 (value : Int) : Except Stop Int :=
  if int64Min ≤ value ∧ value ≤ int64Max then .ok value else .error .overflow

/-- `operator+`. -/
def add (left right : Int) : Except Stop Int := int64 (left + right)

/-- `operator-`. -/
def sub (left right : Int) : Except Stop Int := int64 (left - right)

/-- Unary `operator-`. -/
def neg (value : Int) : Except Stop Int :=
  if value = int64Min then .error .assertion else .ok (-value)

/-- `operator+=`. -/
def addAssign (value rhs : Int) : Except Stop Int :=
  if rhs = 0 ∨ (rhs > 0 ∧ value ≤ int64Max - rhs) ∨ (rhs < 0 ∧ value ≥ int64Min - rhs) then
    .ok (value + rhs)
  else .error .assertion

/-- `operator-=`. -/
def subAssign (value rhs : Int) : Except Stop Int :=
  if rhs = 0 ∨ (rhs > 0 ∧ value ≥ int64Min + rhs) ∨ (rhs < 0 ∧ value ≤ int64Max + rhs) then
    .ok (value - rhs)
  else .error .assertion

/-- What the interpreter stores for a comparison. -/
def ofBool (holds : Bool) : Int := if holds then 1 else 0

end CScriptNum

end Lycancoin
