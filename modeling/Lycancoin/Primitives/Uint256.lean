import Mathlib

namespace Lycancoin

/-- The 256-bit opaque blob of `uint256.h`, named by the number that `GetHex`
prints: byte `i` of `data` is bits `8 * i` to `8 * i + 7`. -/
structure Uint256 where
  value : BitVec 256
deriving DecidableEq, Repr

namespace Uint256

instance (n : Nat) : OfNat Uint256 n := ⟨⟨BitVec.ofNat 256 n⟩⟩

instance : Inhabited Uint256 := ⟨0⟩

/-- `base_blob::SetNull`. -/
def null : Uint256 := 0

def isNull (blob : Uint256) : Bool := blob == null

/-- The bytes of `data` in memory order. -/
def data (blob : Uint256) : List Nat :=
  (List.range 32).map fun i => (blob.value.extractLsb' (8 * i) 8).toNat

theorem data_injective : Function.Injective data := by
  intro left right same
  have bytes : ∀ i < 32, left.value.extractLsb' (8 * i) 8 = right.value.extractLsb' (8 * i) 8 := by
    intro i bound
    have selected := congrArg (fun bytes => bytes[i]?) same
    simp only [data, List.getElem?_map, List.getElem?_range bound, Option.map_some,
      Option.some.injEq] at selected
    exact BitVec.eq_of_toNat_eq selected
  cases left with | mk left =>
  cases right with | mk right =>
  congr 1
  apply BitVec.eq_of_getLsbD_eq
  intro i bound
  have bit := congrArg (fun byte => byte.getLsbD (i % 8)) (bytes (i / 8) (by omega))
  simp only [BitVec.getLsbD_extractLsb'] at bit
  have inByte : i % 8 < 8 := Nat.mod_lt _ (by decide)
  have position : 8 * (i / 8) + i % 8 = i := Nat.div_add_mod i 8
  simpa [inByte, position] using bit

/-- `operator<` is `memcmp` over the 32 bytes, which is the lexicographic order
of `data`. -/
instance : LinearOrder Uint256 :=
  { PartialOrder.lift data data_injective with
    le_total := fun left right => le_total left.data right.data
    toDecidableLE := fun left right => inferInstanceAs (Decidable (left.data ≤ right.data))
    toDecidableEq := inferInstance }

theorem lawfulEqOrd_of_linearOrder {α : Type} [LinearOrder α] : Std.LawfulEqOrd α :=
  inferInstance

instance : Std.TransOrd Uint256 := inferInstance

instance : Std.LawfulEqOrd Uint256 := lawfulEqOrd_of_linearOrder

instance : LawfulBEq Uint256 := inferInstance

instance : Fintype Uint256 :=
  Fintype.ofEquiv (BitVec 256) ⟨mk, value, fun _ => rfl, fun _ => rfl⟩

end Uint256

/-- `arith_uint256`, with arithmetic modulo `2 ^ 256`. -/
abbrev ArithUint256 := BitVec 256

def uintToArith256 (blob : Uint256) : ArithUint256 := blob.value

/-- What `arith_uint256::SetCompact` makes of a compact number. -/
structure CompactTarget where
  value : ArithUint256
  fNegative : Bool
  fOverflow : Bool
deriving DecidableEq, Repr

def setCompact (nCompact : UInt32) : CompactTarget :=
  let nSize := nCompact.toNat >>> 24
  let nMantissa := nCompact.toNat &&& 0x007fffff
  let nWord := if nSize ≤ 3 then nMantissa >>> (8 * (3 - nSize)) else nMantissa
  { value :=
      if nSize ≤ 3 then BitVec.ofNat 256 nWord
      else BitVec.ofNat 256 nWord <<< (8 * (nSize - 3))
    fNegative := nWord != 0 && nCompact.toNat &&& 0x00800000 != 0
    fOverflow := nWord != 0 &&
      (decide (nSize > 34) || decide (nWord > 0xff ∧ nSize > 33) ||
        decide (nWord > 0xffff ∧ nSize > 32)) }

/-- The end of both `GetCompact`s: the bytes of a magnitude, its leading three
bytes, and the sign. -/
def packCompact (nSize nWord : Nat) (signed : Bool) : UInt32 :=
  -- The 0x00800000 bit denotes the sign.
  let (nSize, nCompact) :=
    if nWord &&& 0x00800000 != 0 then (nSize + 1, nWord >>> 8) else (nSize, nWord)
  UInt32.ofNat (nCompact ||| nSize <<< 24 ||| if signed then 0x00800000 else 0)

/-- The leading three bytes of a magnitude of `nSize` bytes. -/
def leadingBytes (magnitude nSize : Nat) : Nat :=
  if nSize ≤ 3 then magnitude <<< (8 * (3 - nSize)) else magnitude >>> (8 * (nSize - 3))

def getCompact (target : ArithUint256) : UInt32 :=
  let nSize := (target.toNat.size + 7) / 8
  packCompact nSize (leadingBytes target.toNat nSize) false

/-- `CBigNum`, an unbounded integer. -/
abbrev CBigNum := Int

namespace CBigNum

def setCompact (nCompact : UInt32) : CBigNum :=
  let nSize := nCompact.toNat >>> 24
  let fNegative := nCompact.toNat &&& 0x00800000 != 0
  let nWord := nCompact.toNat &&& 0x007fffff
  let magnitude := if nSize ≤ 3 then nWord >>> (8 * (3 - nSize)) else nWord <<< (8 * (nSize - 3))
  if fNegative then -(magnitude : Int) else magnitude

def getCompact (number : CBigNum) : UInt32 :=
  let nSize := (number.natAbs.size + 7) / 8
  packCompact nSize (leadingBytes number.natAbs nSize) (decide (number < 0))

end CBigNum

end Lycancoin
