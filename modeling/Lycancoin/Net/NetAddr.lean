import Mathlib

namespace Lycancoin

/-- An IP address: the 16 bytes in network byte order as one number, the first
byte as its highest. -/
structure CNetAddr where
  ip : BitVec 128
deriving DecidableEq, Repr

namespace CNetAddr

/-- `operator<` is `memcmp` over the bytes. -/
instance : LinearOrder CNetAddr :=
  { PartialOrder.lift (fun addr : CNetAddr => addr.ip.toNat) (by
      intro left right same
      cases left
      cases right
      exact congrArg mk (BitVec.eq_of_toNat_eq same)) with
    le_total := fun left right => le_total left.ip.toNat right.ip.toNat
    toDecidableLE := fun left right => inferInstanceAs (Decidable (left.ip.toNat ≤ right.ip.toNat))
    toDecidableEq := inferInstance }

instance : Std.TransOrd CNetAddr := inferInstance

instance : Std.LawfulEqOrd CNetAddr := inferInstance

/-- `GetByte`, which counts from the last byte. -/
def getByte (addr : CNetAddr) (n : Nat) : Nat := (addr.ip.extractLsb' (8 * n) 8).toNat

/-- A `memcmp` with the first bytes, which make up the given number. -/
def startsWith (addr : CNetAddr) (count value : Nat) : Bool :=
  addr.ip.toNat >>> (128 - 8 * count) == value

def isIPv4 (addr : CNetAddr) : Bool := addr.startsWith 12 0xffff

def isRFC1918 (addr : CNetAddr) : Bool :=
  addr.isIPv4 && (addr.getByte 3 == 10 || (addr.getByte 3 == 192 && addr.getByte 2 == 168) ||
    (addr.getByte 3 == 172 && decide (addr.getByte 2 ≥ 16 ∧ addr.getByte 2 ≤ 31)))

def isRFC2544 (addr : CNetAddr) : Bool :=
  addr.isIPv4 && addr.getByte 3 == 198 && (addr.getByte 2 == 18 || addr.getByte 2 == 19)

def isRFC3927 (addr : CNetAddr) : Bool :=
  addr.isIPv4 && (addr.getByte 3 == 169 && addr.getByte 2 == 254)

def isRFC6598 (addr : CNetAddr) : Bool :=
  addr.isIPv4 && addr.getByte 3 == 100 && decide (addr.getByte 2 ≥ 64 ∧ addr.getByte 2 ≤ 127)

def isRFC5737 (addr : CNetAddr) : Bool :=
  addr.isIPv4 &&
    ((addr.getByte 3 == 192 && addr.getByte 2 == 0 && addr.getByte 1 == 2) ||
      (addr.getByte 3 == 198 && addr.getByte 2 == 51 && addr.getByte 1 == 100) ||
      (addr.getByte 3 == 203 && addr.getByte 2 == 0 && addr.getByte 1 == 113))

def isRFC3849 (addr : CNetAddr) : Bool :=
  addr.getByte 15 == 0x20 && addr.getByte 14 == 0x01 && addr.getByte 13 == 0x0D &&
    addr.getByte 12 == 0xB8

def isRFC4862 (addr : CNetAddr) : Bool := addr.startsWith 8 0xFE80000000000000

def isRFC4193 (addr : CNetAddr) : Bool := addr.getByte 15 &&& 0xFE == 0xFC

def isRFC4843 (addr : CNetAddr) : Bool :=
  addr.getByte 15 == 0x20 && addr.getByte 14 == 0x01 && addr.getByte 13 == 0x00 &&
    addr.getByte 12 &&& 0xF0 == 0x10

def isTor (addr : CNetAddr) : Bool := addr.startsWith 6 0xFD87D87EEB43

def isLocal (addr : CNetAddr) : Bool :=
  (addr.isIPv4 && (addr.getByte 3 == 127 || addr.getByte 3 == 0)) || addr.ip == 1

/-- `IsValid`.  The first comparison is with the IPv4 bytes shifted by three. -/
def isValid (addr : CNetAddr) : Bool :=
  !addr.startsWith 9 0xffff && addr.ip != 0 && !addr.isRFC3849 &&
    !(addr.isIPv4 && (addr.ip.toNat % 2 ^ 32 == 0xffffffff || addr.ip.toNat % 2 ^ 32 == 0))

def isRoutable (addr : CNetAddr) : Bool :=
  addr.isValid &&
    !(addr.isRFC1918 || addr.isRFC2544 || addr.isRFC3927 || addr.isRFC4862 || addr.isRFC6598 ||
      addr.isRFC5737 || (addr.isRFC4193 && !addr.isTor) || addr.isRFC4843 || addr.isLocal)

end CNetAddr

structure CService extends CNetAddr where
  port : UInt16
deriving DecidableEq, Repr

structure CAddress extends CService where
  nServices : UInt64
  nTime : UInt32
deriving DecidableEq, Repr

end Lycancoin
