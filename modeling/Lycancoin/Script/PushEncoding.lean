import Lycancoin.Script.MinimalNumber
import Lycancoin.Script.SignatureCopy

namespace Lycancoin

namespace CScript

/-- `operator<<` of a vector. -/
def pushVector (b : List UInt8) (script : CScript) : CScript :=
  let size :=
    if b.length < 0x4c then [UInt8.ofNat b.length]
    else if b.length ≤ 0xff then [0x4c, UInt8.ofNat b.length]
    else if b.length ≤ 0xffff then 0x4d :: serWriteData 2 b.length
    else 0x4e :: serWriteData 4 b.length
  script ++ (size ++ b)

/-- `operator<<` of a `CScriptNum`. -/
def pushScriptNum (b : Int) (script : CScript) : Option CScript :=
  (CScriptNum.serialize b).toOption.map fun vch => pushVector vch script

/-- `operator<<` of an `int64_t`. -/
def pushInt64 (n : Int) (script : CScript) : Option CScript :=
  if n = -1 ∨ 1 ≤ n ∧ n ≤ 16 then some (script ++ [UInt8.ofInt (n + (0x51 - 1))])
  else if n = 0 then some (script ++ [0])
  else pushScriptNum n script

/-- What can be appended to a script. -/
inductive Element where
  | opcode (byte : UInt8) (above : OP_PUSHDATA4 < byte)
  | integer (n : Int64)
  | scriptNum (n : Int64)
  | bytes (b : List UInt8) (fits : b.length < 2 ^ 32)

namespace Element

/-- `operator<<`. -/
def push (element : Element) (script : CScript) : Option CScript :=
  match element with
  | .opcode byte _ => some (script ++ [byte])
  | .integer n => pushInt64 n.toInt script
  | .scriptNum n => pushScriptNum n.toInt script
  | .bytes b _ => some (pushVector b script)

def pushAll : List Element → CScript → Option CScript
  | [], script => some script
  | element :: elements, script => (element.push script).bind (pushAll elements)

/-- The negation of the number overflows. -/
def IsLeast (element : Element) : Prop :=
  element = .integer Int64.minValue ∨ element = .scriptNum Int64.minValue

end Element

variable {b : List UInt8} {script tail : CScript}

namespace Element

end Element

end CScript

end Lycancoin
