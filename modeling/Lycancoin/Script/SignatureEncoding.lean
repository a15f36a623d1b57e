import Lycancoin.Script.ScriptNum

namespace Lycancoin

open CScript

def SIGHASH_ALL : UInt8 := 1

def SIGHASH_NONE : UInt8 := 2

def SIGHASH_SINGLE : UInt8 := 3

def SIGHASH_ANYONECANPAY : UInt8 := 0x80

def SCRIPT_VERIFY_P2SH : UInt32 := (1 : UInt32) <<< 0

def SCRIPT_VERIFY_STRICTENC : UInt32 := (1 : UInt32) <<< 1

def SCRIPT_VERIFY_DERSIG : UInt32 := (1 : UInt32) <<< 2

def SCRIPT_VERIFY_LOW_S : UInt32 := (1 : UInt32) <<< 3

def SCRIPT_VERIFY_NULLDUMMY : UInt32 := (1 : UInt32) <<< 4

def SCRIPT_VERIFY_SIGPUSHONLY : UInt32 := (1 : UInt32) <<< 5

def SCRIPT_VERIFY_MINIMALDATA : UInt32 := (1 : UInt32) <<< 6

def SCRIPT_VERIFY_DISCOURAGE_UPGRADABLE_NOPS : UInt32 := (1 : UInt32) <<< 7

def SCRIPT_VERIFY_CLEANSTACK : UInt32 := (1 : UInt32) <<< 8

def MANDATORY_SCRIPT_VERIFY_FLAGS : UInt32 := SCRIPT_VERIFY_P2SH

def STANDARD_SCRIPT_VERIFY_FLAGS : UInt32 :=
  MANDATORY_SCRIPT_VERIFY_FLAGS ||| SCRIPT_VERIFY_DERSIG ||| SCRIPT_VERIFY_STRICTENC |||
    SCRIPT_VERIFY_MINIMALDATA ||| SCRIPT_VERIFY_NULLDUMMY |||
    SCRIPT_VERIFY_DISCOURAGE_UPGRADABLE_NOPS ||| SCRIPT_VERIFY_CLEANSTACK

/-- `(flags & mask) != 0`. -/
def hasFlag (flags mask : UInt32) : Bool := flags &&& mask != 0

/-- `CompareBigEndian` of two strings of one length. -/
def compareBytes : List UInt8 → List UInt8 → Ordering
  | first :: left, second :: right =>
      if first > second then .gt else if second > first then .lt else compareBytes left right
  | _, _ => .eq

/-- `CompareBigEndian`: the longer string counts as greater unless it starts
with zeros. -/
def compareBigEndian (c1 c2 : List UInt8) : Ordering :=
  if (c1.take (c1.length - c2.length)).any (· != 0) then .gt
  else if (c2.take (c2.length - c1.length)).any (· != 0) then .lt
  else compareBytes (c1.drop (c1.length - c2.length)) (c2.drop (c2.length - c1.length))

/-- Half of the order of secp256k1's generator minus 1. -/
def vchMaxModHalfOrder : List UInt8 :=
  [0x7F, 0xFF, 0xFF, 0xFF, 0xFF, 0xFF, 0xFF, 0xFF,
    0xFF, 0xFF, 0xFF, 0xFF, 0xFF, 0xFF, 0xFF, 0xFF,
    0x5D, 0x57, 0x6E, 0x73, 0x57, 0xA4, 0x50, 0x1D,
    0xDF, 0xE9, 0x2F, 0x46, 0x68, 0x1B, 0x20, 0xA0]

/-- `CheckSignatureElement` with `half`. -/
def checkSignatureElement (vch : List UInt8) : Bool :=
  compareBigEndian vch [] == .gt && compareBigEndian vch vchMaxModHalfOrder != .gt

def isCompressedOrUncompressedPubKey (vchPubKey : Valtype) : Bool :=
  if vchPubKey.length < 33 then false
  else if vchPubKey.getD 0 0 == 0x04 then vchPubKey.length == 65
  else if vchPubKey.getD 0 0 == 0x02 || vchPubKey.getD 0 0 == 0x03 then vchPubKey.length == 33
  else false

def isValidSignatureEncoding (sig : Valtype) : Bool :=
  let lenR := (sig.getD 3 0).toNat
  let lenS := (sig.getD (5 + lenR) 0).toNat
  if sig.length < 9 then false
  else if sig.length > 73 then false
  else if sig.getD 0 0 != 0x30 then false
  else if (sig.getD 1 0).toNat != sig.length - 3 then false
  else if 5 + lenR ≥ sig.length then false
  else if lenR + lenS + 7 != sig.length then false
  else if sig.getD 2 0 != 0x02 then false
  else if lenR == 0 then false
  else if sig.getD 4 0 &&& 0x80 != 0 then false
  else if lenR > 1 && sig.getD 4 0 == 0 && sig.getD 5 0 &&& 0x80 == 0 then false
  else if sig.getD (lenR + 4) 0 != 0x02 then false
  else if lenS == 0 then false
  else if sig.getD (lenR + 6) 0 &&& 0x80 != 0 then false
  else if lenS > 1 && sig.getD (lenR + 6) 0 == 0 && sig.getD (lenR + 7) 0 &&& 0x80 == 0 then false
  else true

def isLowDERSignature (vchSig : Valtype) : Except Stop Unit := do
  failIf (!isValidSignatureEncoding vchSig) .SIG_DER
  let nLenR := (vchSig.getD 3 0).toNat
  let nLenS := (vchSig.getD (5 + nLenR) 0).toNat
  failIf (!checkSignatureElement ((vchSig.drop (6 + nLenR)).take nLenS)) .SIG_HIGH_S

def isDefinedHashtypeSignature (vchSig : Valtype) : Bool :=
  match vchSig.getLast? with
  | none => false
  | some back =>
      let nHashType := back &&& ~~~SIGHASH_ANYONECANPAY
      !(nHashType < SIGHASH_ALL || nHashType > SIGHASH_SINGLE)

def checkSignatureEncoding (vchSig : Valtype) (flags : UInt32) : Except Stop Unit :=
  if vchSig.isEmpty then .ok ()
  else do
    failIf
      (hasFlag flags (SCRIPT_VERIFY_DERSIG ||| SCRIPT_VERIFY_LOW_S ||| SCRIPT_VERIFY_STRICTENC) &&
        !isValidSignatureEncoding vchSig) .SIG_DER
    (if hasFlag flags SCRIPT_VERIFY_LOW_S then isLowDERSignature vchSig else .ok ())
    failIf (hasFlag flags SCRIPT_VERIFY_STRICTENC && !isDefinedHashtypeSignature vchSig)
      .SIG_HASHTYPE

def checkPubKeyEncoding (vchPubKey : Valtype) (flags : UInt32) : Except Stop Unit :=
  failIf (hasFlag flags SCRIPT_VERIFY_STRICTENC && !isCompressedOrUncompressedPubKey vchPubKey)
    .PUBKEYTYPE

def checkMinimalPush (data : Valtype) (opcode : UInt8) : Bool :=
  match data with
  | [] => opcode == 0
  | first :: rest =>
      if rest.isEmpty && first ≥ 1 && first ≤ 16 then opcode == OP_1 + (first - 1)
      else if rest.isEmpty && first == 0x81 then opcode == 0x4f
      else if data.length ≤ 75 then opcode.toNat == data.length
      else if data.length ≤ 255 then opcode == OP_PUSHDATA1
      else if data.length ≤ 65535 then opcode == OP_PUSHDATA2
      else true

end Lycancoin
