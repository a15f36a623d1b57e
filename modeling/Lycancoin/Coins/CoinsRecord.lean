import Lycancoin.Coins.CacheStack
import Lycancoin.Coins.Compressor
import Lycancoin.Data.BitBytes

namespace Lycancoin

open Lycancoin.Data

namespace CCoins

/-- The byte of the mask for the outputs from `2 + b * 8`. -/
def chAvail (coins : CCoins) (b : Nat) : UInt8 := byteOf fun i => coins.isAvailable (2 + b * 8 + i)

/-- One round of `CalcMaskSize`. -/
def maskStep (coins : CCoins) (sizes : Nat × Nat) (b : Nat) : Nat × Nat :=
  let fZero := (List.range 8).all fun i => !coins.isAvailable (2 + b * 8 + i)
  if fZero then sizes else (b + 1, sizes.2 + 1)

/-- `CalcMaskSize`: the number of bytes in the mask and how many are not zero.
The loop runs while `2 + b * 8` is an output. -/
def calcMaskSize (coins : CCoins) : Nat × Nat :=
  (List.range ((coins.vout.length + 5) / 8)).foldl coins.maskStep (0, 0)

/-- The header code, an `unsigned int`; there is none where the assertion fails. -/
def headerCode (coins : CCoins) : Option Nat :=
  let nMaskCode := coins.calcMaskSize.2
  let fFirst := coins.isAvailable 0
  let fSecond := coins.isAvailable 1
  if fFirst || fSecond || nMaskCode != 0 then
    some ((8 * (nMaskCode - if fFirst || fSecond then 0 else 1) + (if coins.fCoinBase then 1 else 0) +
      (if fFirst then 2 else 0) + (if fSecond then 4 else 0)) % 2 ^ 32)
  else none

def getSerializeSize (keys : PubKeys) (coins : CCoins) : Option Nat := do
  let nCode ← coins.headerCode
  some ((getSizeOfVarInt coins.nVersion + getSizeOfVarInt nCode + coins.calcMaskSize.1 +
    (coins.vout.map fun txout =>
      if txout.isNull then 0 else CTxOutCompressor.getSerializeSize keys txout).sum +
    getSizeOfVarInt coins.nHeight) % 2 ^ 32)

def serialize (keys : PubKeys) (coins : CCoins) : Option (List UInt8) := do
  let nCode ← coins.headerCode
  some (writeVarInt coins.nVersion ++ writeVarInt nCode ++
    (List.range coins.calcMaskSize.1).map coins.chAvail ++
    (coins.vout.flatMap fun txout =>
      if txout.isNull then [] else CTxOutCompressor.serialize keys txout) ++
    writeVarInt coins.nHeight)

/-- The loop over the mask, which ends with its last byte that is not zero. -/
def readMask : Nat → ByteReader (List Bool)
  | 0, stream => .ok ([], stream)
  | _ + 1, [] => .error .endOfData
  | nMaskCode + 1, chAvail :: stream => do
      let (vAvail, rest) ← readMask (if chAvail ≠ 0 then nMaskCode else nMaskCode + 1) stream
      .ok (bitsOf chAvail ++ vAvail, rest)

/-- The outputs that are available; the others are new ones. -/
def readOutputs (keys : PubKeys) : List Bool → ByteReader (List CTxOut)
  | [] => pure []
  | true :: vAvail => do
      let txout ← CTxOutCompressor.unserialize keys CTxOut.null
      let vout ← readOutputs keys vAvail
      pure (txout :: vout)
  | false :: vAvail => do
      let vout ← readOutputs keys vAvail
      pure (CTxOut.null :: vout)

def unserialize (keys : PubKeys) : ByteReader CCoins := do
  let nVersion ← unserializeVarInt
  let nCode ← unserializeVarUInt 32
  let mask ← readMask (nCode / 8 + if nCode &&& 6 ≠ 0 then 0 else 1)
  let vout ← readOutputs keys ([nCode &&& 2 != 0, nCode &&& 4 != 0] ++ mask)
  let nHeight ← unserializeVarInt
  pure (cleanup { fCoinBase := nCode &&& 1 != 0, vout, nHeight, nVersion })

section Mask

variable {coins : CCoins}

theorem chAvail_eq_zero_iff {b : Nat} :
    coins.chAvail b = 0 ↔ ((List.range 8).all fun i => !coins.isAvailable (2 + b * 8 + i)) = true := by
  rw [chAvail, byteOf_eq_zero_iff]
  simp

/-- What the rounds of `CalcMaskSize` have counted. -/
structure MaskOf (coins : CCoins) (rounds : Nat) (sizes : Nat × Nat) : Prop where
  count : sizes.2 = ((List.range rounds).map coins.chAvail).countP (· ≠ 0)
  last : sizes.1 ≠ 0 → coins.chAvail (sizes.1 - 1) ≠ 0
  within : sizes.1 ≤ rounds
  zero : ∀ b, sizes.1 ≤ b → b < rounds → coins.chAvail b = 0

theorem maskOf_foldl (coins : CCoins) (rounds : Nat) :
    MaskOf coins rounds ((List.range rounds).foldl coins.maskStep (0, 0)) := by
  induction rounds with
  | zero => exact ⟨rfl, fun absurd => absurd.elim rfl, le_rfl, fun b _ bound => by omega⟩
  | succ rounds ih =>
      have within := ih.within
      have count : ((List.range (rounds + 1)).map coins.chAvail).countP (· ≠ 0) =
          ((List.range rounds).foldl coins.maskStep (0, 0)).2 +
            if coins.chAvail rounds = 0 then 0 else 1 := by
        rw [List.range_succ, List.map_append, List.countP_append, ← ih.count]
        split_ifs with zero <;> simp [zero]
      rw [List.range_succ, List.foldl_append, List.foldl_cons, List.foldl_nil, maskStep]
      split_ifs with fZero
      · have zero := chAvail_eq_zero_iff.mpr fZero
        rw [if_pos zero] at count
        refine ⟨?_, ih.last, by omega, fun b above bound => ?_⟩
        · rw [count, Nat.add_zero]
        · rcases Nat.lt_succ_iff_lt_or_eq.mp bound with earlier | same
          · exact ih.zero b above earlier
          · rw [same]
            exact zero
      · have nonzero : coins.chAvail rounds ≠ 0 := fun zero => fZero (chAvail_eq_zero_iff.mp zero)
        rw [if_neg nonzero] at count
        refine ⟨?_, fun _ => nonzero, le_rfl, fun b above bound => by omega⟩
        rw [count]

theorem maskOf_calcMaskSize (coins : CCoins) :
    MaskOf coins ((coins.vout.length + 5) / 8) coins.calcMaskSize :=
  maskOf_foldl coins _

def maskBytes (coins : CCoins) : List UInt8 := (List.range coins.calcMaskSize.1).map coins.chAvail

theorem countP_maskBytes (coins : CCoins) :
    coins.maskBytes.countP (· ≠ 0) = coins.calcMaskSize.2 := by
  have mask := maskOf_calcMaskSize coins
  have within := mask.within
  obtain ⟨more, split⟩ := Nat.exists_eq_add_of_le within
  have zeros : ((List.range more).map fun b => coins.chAvail (coins.calcMaskSize.1 + b)).countP
      (· ≠ 0) = 0 := by
    rw [List.countP_eq_zero]
    intro byte member
    obtain ⟨b, bound, rfl⟩ := List.mem_map.mp member
    have zero := mask.zero (coins.calcMaskSize.1 + b) (by omega) (by
      have := List.mem_range.mp bound
      omega)
    simp [zero]
  rw [mask.count, split, List.range_add, List.map_append, List.map_map, List.countP_append]
  exact (Nat.add_eq_left.mpr zeros).symm

/-- The mask ends with a byte that is not zero, so the loop over it ends there. -/
theorem reads_mask {bytes : List UInt8} (last : ∀ byte ∈ bytes.getLast?, byte ≠ 0) :
    Reads (readMask (bytes.countP (· ≠ 0))) bytes (bytes.flatMap bitsOf) := by
  intro rest
  induction bytes with
  | nil =>
      change readMask 0 rest = .ok ([], rest)
      rw [readMask]
  | cons byte bytes ih =>
      have lastLater : ∀ other ∈ bytes.getLast?, other ≠ 0 := by
        intro other isLast
        apply last other
        cases bytes with
        | nil => simp at isLast
        | cons next bytes => rwa [List.getLast?_cons_cons]
      have later : readMask (bytes.countP (· ≠ 0)) (bytes ++ rest) =
        .ok (bytes.flatMap bitsOf, rest) := ih lastLater
      by_cases zero : byte = 0
      · have some : 0 < bytes.countP (· ≠ 0) := by
          cases isEmpty : bytes.getLast? with
          | none =>
              rw [List.getLast?_eq_none_iff] at isEmpty
              rw [isEmpty, zero] at last
              exact absurd rfl (last 0 rfl)
          | some final =>
              rw [List.countP_pos_iff]
              exact ⟨final, List.mem_of_getLast? isEmpty, by simpa using lastLater final isEmpty⟩
        obtain ⟨left, isLeft⟩ := Nat.exists_eq_add_one_of_ne_zero some.ne'
        rw [List.countP_cons_of_neg (by simp [zero])]
        change readMask _ (byte :: (bytes ++ rest)) = _
        rw [isLeft, readMask, if_neg (not_not.mpr zero), ← isLeft, later]
        rfl
      · rw [List.countP_cons_of_pos (by simpa using zero)]
        change readMask _ (byte :: (bytes ++ rest)) = _
        rw [readMask, if_pos zero, later]
        rfl

theorem flatMap_maskBytes (coins : CCoins) :
    coins.maskBytes.flatMap bitsOf =
      (List.range (coins.calcMaskSize.1 * 8)).map fun i => coins.isAvailable (2 + i) := by
  rw [maskBytes, List.flatMap_map, ← flatMap_range_eight]
  simp only [chAvail, bitsOf_byteOf, Nat.add_assoc]

theorem reads_maskBytes (coins : CCoins) :
    Reads (readMask coins.calcMaskSize.2) coins.maskBytes
      ((List.range (coins.calcMaskSize.1 * 8)).map fun i => coins.isAvailable (2 + i)) := by
  rw [← countP_maskBytes, ← flatMap_maskBytes]
  apply reads_mask
  intro byte isLast
  have mask := maskOf_calcMaskSize coins
  by_cases none : coins.calcMaskSize.1 = 0
  · rw [maskBytes, none] at isLast
    simp at isLast
  · obtain ⟨before, size⟩ := Nat.exists_eq_add_one_of_ne_zero none
    have last := mask.last none
    rw [maskBytes, size, List.range_succ, List.map_append, List.map_singleton,
      List.getLast?_append_cons] at isLast
    rw [size, Nat.add_sub_cancel] at last
    simp only [List.getLast?_singleton, Option.mem_def, Option.some.injEq] at isLast
    rwa [← isLast]

theorem isAvailable_last (clean : coins.Clean) (nonempty : coins.vout ≠ []) :
    coins.isAvailable (coins.vout.length - 1) = true := by
  have positive := List.length_pos_iff.mpr nonempty
  have inRange : coins.vout.length - 1 < coins.vout.length := by omega
  have isLast := clean coins.vout[coins.vout.length - 1] (by
    rw [List.getLast?_eq_getElem?, List.getElem?_eq_getElem inRange])
  rw [isAvailable, List.getElem?_eq_getElem inRange]
  simp [isLast]

/-- Every output is covered by the two flags and the mask. -/
theorem length_le_of_clean (clean : coins.Clean) :
    coins.vout.length ≤ 2 + coins.calcMaskSize.1 * 8 := by
  have mask := maskOf_calcMaskSize coins
  by_contra! long
  have last := isAvailable_last clean (List.ne_nil_of_length_pos (by omega))
  have zero := mask.zero ((coins.vout.length - 3) / 8) (by omega) (by omega)
  rw [chAvail, byteOf_eq_zero_iff] at zero
  have unavailable := zero ((coins.vout.length - 3) % 8) (Nat.mod_lt _ (by decide))
  rw [show 2 + (coins.vout.length - 3) / 8 * 8 + (coins.vout.length - 3) % 8 =
    coins.vout.length - 1 by omega, last] at unavailable
  contradiction

end Mask

section Record

variable {coins : CCoins} {keys : PubKeys}

/-- The coins with every spent output null, which is what the record keeps. -/
def spentNull (coins : CCoins) : CCoins :=
  { coins with vout := coins.vout.map fun txout => if txout.isNull then CTxOut.null else txout }

/-- The code is small enough, and so is every output that is kept. -/
structure Recordable (coins : CCoins) : Prop where
  outputs : coins.vout.length + 5 < 2 ^ 32
  kept : ∀ txout ∈ coins.vout, txout.isNull = false → txout.Compressible

theorem and_low_bits {low mask : Nat} (high : Nat) (isLow : low < 8) (small : mask < 8) :
    (8 * high + low) &&& mask = low &&& mask := by
  have masked : ((8 * high + low) &&& mask) % 2 ^ 3 =
      (8 * high + low) % 2 ^ 3 &&& mask % 2 ^ 3 := Nat.and_mod_two_pow
  have below : (8 * high + low) &&& mask ≤ mask := Nat.and_le_right
  rw [Nat.mod_eq_of_lt (by omega), Nat.mod_eq_of_lt (by omega : mask < 2 ^ 3),
    show (8 * high + low) % 2 ^ 3 = low by omega] at masked
  exact masked

/-- The three flags and the number that a header code holds. -/
theorem headerCode_fields (k : Nat) (fCoinBase fFirst fSecond : Bool) {nCode : Nat}
    (isCode : nCode = 8 * k + (if fCoinBase then 1 else 0) + (if fFirst then 2 else 0) +
      if fSecond then 4 else 0) :
    nCode / 8 = k ∧ (nCode &&& 1 != 0) = fCoinBase ∧ (nCode &&& 2 != 0) = fFirst ∧
      (nCode &&& 4 != 0) = fSecond ∧ (nCode &&& 6 != 0) = (fFirst || fSecond) := by
  obtain ⟨low, isLow, split⟩ : ∃ low, low = (if fCoinBase then 1 else 0) +
      (if fFirst then 2 else 0) + (if fSecond then 4 else 0) ∧ nCode = 8 * k + low :=
    ⟨_, rfl, by rw [isCode]; omega⟩
  have small : low < 8 := by
    rw [isLow]
    split_ifs <;> omega
  rw [split, and_low_bits k small (by decide), and_low_bits k small (by decide),
    and_low_bits k small (by decide), and_low_bits k small (by decide)]
  refine ⟨by omega, ?_⟩
  rw [isLow]
  clear isCode isLow
  revert fCoinBase fFirst fSecond
  decide

theorem reads_outputs {vout : List CTxOut} (recover : keys.Recover)
    (kept : ∀ txout ∈ vout, txout.isNull = false → txout.Compressible) (more : Nat) :
    Reads (readOutputs keys (vout.map (!CTxOut.isNull ·) ++ List.replicate more false))
      (vout.flatMap fun txout =>
        if txout.isNull then [] else CTxOutCompressor.serialize keys txout)
      ((vout.map fun txout => if txout.isNull then CTxOut.null else txout) ++
        List.replicate more CTxOut.null) := by
  induction vout with
  | nil =>
      induction more with
      | zero => exact Reads.pure []
      | succ more ih => exact ih.bind_pure
  | cons txout vout ih =>
      have others := ih fun other member => kept other (List.mem_cons_of_mem _ member)
      cases spent : txout.isNull with
      | true =>
          simp only [List.map_cons, List.cons_append, List.flatMap_cons, spent, Bool.not_true,
            if_true, List.nil_append]
          exact others.bind_pure
      | false =>
          simp only [List.map_cons, List.cons_append, List.flatMap_cons, spent, Bool.not_false,
            Bool.false_eq_true, if_false]
          have first := reads_txOut recover (kept txout List.mem_cons_self spent) CTxOut.null
          exact first.bind others.bind_pure

theorem map_isAvailable {size : Nat} (covered : coins.vout.length ≤ size) :
    (List.range size).map coins.isAvailable =
      coins.vout.map (!CTxOut.isNull ·) ++ List.replicate (size - coins.vout.length) false := by
  apply List.ext_getElem?
  intro i
  by_cases inRange : i < coins.vout.length
  · rw [List.getElem?_append_left (by simpa using inRange), List.getElem?_map, List.getElem?_map,
      List.getElem?_range (by omega), Option.map_some, isAvailable,
      List.getElem?_eq_getElem inRange]
    rfl
  · rw [List.getElem?_append_right (by simpa using inRange), List.getElem?_map,
      List.length_map, List.getElem?_replicate]
    by_cases below : i < size
    · rw [List.getElem?_range below, Option.map_some, isAvailable,
        List.getElem?_eq_none (by omega), if_pos (by omega)]
    · rw [List.getElem?_eq_none (by simpa using below), if_neg (by omega)]
      rfl

theorem rdropWhile_append_null (vout : List CTxOut) (more : Nat) :
    (vout ++ List.replicate more CTxOut.null).rdropWhile CTxOut.isNull =
      vout.rdropWhile CTxOut.isNull := by
  induction more with
  | zero => rw [List.replicate_zero, List.append_nil]
  | succ more ih =>
      rw [List.replicate_succ', ← List.append_assoc,
        List.rdropWhile_concat_pos _ _ _ CTxOut.isNull_null, ih]

theorem cleanup_spentNull (clean : coins.Clean) (more : Nat) :
    cleanup { coins with
      vout := (coins.vout.map fun txout => if txout.isNull then CTxOut.null else txout) ++
        List.replicate more CTxOut.null } = coins.spentNull := by
  have kept : ((coins.vout.map fun txout => if txout.isNull then CTxOut.null else txout) ++
      List.replicate more CTxOut.null).rdropWhile CTxOut.isNull =
        coins.vout.map fun txout => if txout.isNull then CTxOut.null else txout := by
    rw [rdropWhile_append_null, List.rdropWhile_eq_self_iff]
    intro nonempty
    rw [List.getLast_map]
    have last := clean _ (List.getLast?_eq_some_getLast (by simpa using nonempty))
    simp [last]
  rw [cleanup, spentNull, kept]

theorem calcMaskSize_le (coins : CCoins) : coins.calcMaskSize.2 ≤ coins.calcMaskSize.1 := by
  rw [← countP_maskBytes]
  apply List.countP_le_length.trans_eq
  rw [maskBytes, List.length_map, List.length_range]

/-- The assertion holds where some output is not spent. -/
theorem available_of_not_isPruned (clean : coins.Clean) (unspent : coins.isPruned = false) :
    (coins.isAvailable 0 || coins.isAvailable 1 || coins.calcMaskSize.2 != 0) = true := by
  have nonempty : coins.vout ≠ [] := fun empty => by
    rw [(isPruned_iff_vout_eq_nil clean).mpr empty] at unspent
    contradiction
  have positive := List.length_pos_iff.mpr nonempty
  have last : coins.isAvailable (coins.vout.length - 1) = true := isAvailable_last clean nonempty
  have covered := length_le_of_clean clean
  simp only [Bool.or_eq_true, bne_iff_ne]
  by_cases few : coins.vout.length ≤ 2
  · left
    rcases (by omega : coins.vout.length - 1 = 0 ∨ coins.vout.length - 1 = 1) with first | second
    · exact Or.inl (first ▸ last)
    · exact Or.inr (second ▸ last)
  · right
    rw [← countP_maskBytes, ← Nat.pos_iff_ne_zero, List.countP_pos_iff]
    have nonzero := (maskOf_calcMaskSize coins).last (by omega)
    have listed : coins.calcMaskSize.1 - 1 < coins.calcMaskSize.1 := by omega
    exact ⟨_, List.mem_map_of_mem (List.mem_range.mpr listed), by simpa using nonzero⟩

theorem headerCode_eq (clean : coins.Clean) (unspent : coins.isPruned = false)
    (recordable : coins.Recordable) :
    ∃ nCode, coins.headerCode = some nCode ∧ nCode < 2 ^ 32 ∧
      (nCode / 8 + if nCode &&& 6 ≠ 0 then 0 else 1) = coins.calcMaskSize.2 ∧
      (nCode &&& 1 != 0) = coins.fCoinBase ∧ (nCode &&& 2 != 0) = coins.isAvailable 0 ∧
      (nCode &&& 4 != 0) = coins.isAvailable 1 := by
  have asserted := available_of_not_isPruned clean unspent
  have outputs := recordable.outputs
  have fewer := calcMaskSize_le coins
  have within := (maskOf_calcMaskSize coins).within
  generalize isCode : 8 * (coins.calcMaskSize.2 -
      if coins.isAvailable 0 || coins.isAvailable 1 then 0 else 1) +
    (if coins.fCoinBase then 1 else 0) + (if coins.isAvailable 0 then 2 else 0) +
    (if coins.isAvailable 1 then 4 else 0) = nCode
  have small : nCode < 2 ^ 32 := by
    rw [← isCode]
    split_ifs <;> omega
  obtain ⟨number, coinBase, first, second, either⟩ := headerCode_fields _ _ _ _ isCode.symm
  refine ⟨nCode, ?_, small, ?_, coinBase, first, second⟩
  · rw [headerCode]
    simp only [asserted, if_true]
    rw [isCode, Nat.mod_eq_of_lt small]
  · have flag : (nCode &&& 6 ≠ 0) ↔ (coins.isAvailable 0 || coins.isAvailable 1) = true := by
      rw [← either, bne_iff_ne]
    rw [number]
    by_cases available : (coins.isAvailable 0 || coins.isAvailable 1) = true
    · rw [if_pos available, if_pos (flag.mpr available)]
      rfl
    · rw [if_neg available, if_neg (mt flag.mp available)]
      rw [Bool.or_eq_true] at asserted
      have some := asserted.resolve_left available
      rw [bne_iff_ne] at some
      omega

theorem length_serialize {bytes : List UInt8} (written : coins.serialize keys = some bytes) :
    coins.getSerializeSize keys = some (bytes.length % 2 ^ 32) := by
  obtain ⟨nCode, isCode, isRecord⟩ := Option.bind_eq_some_iff.mp written
  obtain rfl := Option.some.inj isRecord
  have outputs : (coins.vout.flatMap fun txout =>
      if txout.isNull then [] else CTxOutCompressor.serialize keys txout).length =
      (coins.vout.map fun txout =>
        if txout.isNull then 0 else CTxOutCompressor.getSerializeSize keys txout).sum := by
    rw [List.length_flatMap]
    congr 1
    apply List.map_congr_left
    intro txout _
    split_ifs
    · rfl
    · exact CTxOutCompressor.length_serialize keys txout
  rw [getSerializeSize, isCode]
  simp only [List.length_append, length_writeVarInt, List.length_map, List.length_range, outputs]
  rfl

theorem exists_serialize (clean : coins.Clean) (unspent : coins.isPruned = false)
    (recordable : coins.Recordable) (recover : keys.Recover)
    (nVersion : 0 ≤ coins.nVersion ∧ coins.nVersion < 2 ^ 31)
    (nHeight : 0 ≤ coins.nHeight ∧ coins.nHeight < 2 ^ 31) :
    ∃ bytes, coins.serialize keys = some bytes ∧
      Reads (unserialize keys) bytes coins.spentNull := by
  obtain ⟨nCode, isCode, small, number, coinBase, first, second⟩ :=
    headerCode_eq clean unspent recordable
  have covered := length_le_of_clean clean
  have available : [coins.isAvailable 0, coins.isAvailable 1] ++
      (List.range (coins.calcMaskSize.1 * 8)).map (fun i => coins.isAvailable (2 + i)) =
      coins.vout.map (!CTxOut.isNull ·) ++
        List.replicate (2 + coins.calcMaskSize.1 * 8 - coins.vout.length) false := by
    rw [← map_isAvailable covered, List.range_add, List.map_append, List.map_map]
    rfl
  have version := reads_unserializeVarInt nVersion.1 nVersion.2
  have code := reads_unserializeVarUInt small
  have mask := reads_maskBytes coins
  have outputs := reads_outputs recover recordable.kept
    (2 + coins.calcMaskSize.1 * 8 - coins.vout.length)
  have height := reads_unserializeVarInt nHeight.1 nHeight.2
  rw [← available] at outputs
  rw [← number] at mask
  refine ⟨_, by rw [serialize, isCode]; rfl, ?_⟩
  have cleaned := cleanup_spentNull clean (2 + coins.calcMaskSize.1 * 8 - coins.vout.length)
  rw [← cleaned, ← coinBase]
  rw [← first, ← second] at outputs
  simp only [List.append_assoc]
  exact version.bind (code.bind (mask.bind (outputs.bind height.bind_pure)))

end Record

end CCoins

/-- Coins that are clean and not all spent are read back from their record, with
the spent outputs null; the size is computed as an `unsigned int`. -/
theorem coinsRecord_round_trip (keys : PubKeys) (recover : keys.Recover) (coins : CCoins)
    (clean : coins.Clean) (unspent : coins.isPruned = false)
    (nVersion : 0 ≤ coins.nVersion ∧ coins.nVersion < 2 ^ 31)
    (nHeight : 0 ≤ coins.nHeight ∧ coins.nHeight < 2 ^ 31)
    (values : ∀ txout ∈ coins.vout, txout.isNull = false → moneyRange txout.nValue = true)
    (outputs : coins.vout.length < 2 ^ 32 - 5)
    (scripts : ∀ txout ∈ coins.vout, txout.isNull = false →
      txout.scriptPubKey.length < 2 ^ 32 - 6) :
    ∃ bytes, coins.serialize keys = some bytes ∧
      (∀ trailing, (CCoins.unserialize keys).run (bytes ++ trailing) =
        .ok (coins.spentNull, trailing)) ∧
      coins.getSerializeSize keys = some (bytes.length % 2 ^ 32) := by
  have recordable : coins.Recordable := by
    refine ⟨by omega, fun txout member kept => ⟨values txout member kept, ?_⟩⟩
    have short := scripts txout member kept
    rw [CScriptCompressor.nSpecialScripts]
    omega
  obtain ⟨bytes, written, reads⟩ :=
    CCoins.exists_serialize clean unspent recordable recover nVersion nHeight
  exact ⟨bytes, written, reads, CCoins.length_serialize written⟩

section Samples

def noKeys : PubKeys where
  isFullyValid _ := false
  decompress _ := none

theorem noKeys_recover : noKeys.Recover := fun _ _ _ isValid => nomatch isValid

/-- Coins with a spent output between two others, one of which pays to a key. -/
def gappedCoins : CCoins where
  fCoinBase := true
  vout := [{ nValue := 50, scriptPubKey := [0x51] }, CTxOut.null,
    { nValue := 7 * COIN, scriptPubKey := generatorScript }]
  nHeight := 12
  nVersion := 1

theorem gappedCoins_round_trip :
    ∃ bytes, gappedCoins.serialize generatorKeys = some bytes ∧
      (∀ trailing, (CCoins.unserialize generatorKeys).run (bytes ++ trailing) =
        .ok (gappedCoins.spentNull, trailing)) ∧
      gappedCoins.getSerializeSize generatorKeys = some (bytes.length % 2 ^ 32) := by
  apply coinsRecord_round_trip generatorKeys generatorKeys_recover gappedCoins
  · intro txout last
    cases last
    rfl
  · rfl
  · decide
  · decide
  · decide
  · decide
  · decide

/-- Coins with one output, which is worth nothing. -/
def coinsOfScript (scriptPubKey : CScript) : CCoins where
  fCoinBase := false
  vout := [{ nValue := 0, scriptPubKey }]
  nHeight := 0
  nVersion := 1

theorem writeVarInt_zero : writeVarInt 0 = [0] := by
  have digits := varIntDigits_natCast 0 0
  rw [if_pos (by decide)] at digits
  exact digits

variable {script rest : CScript}

theorem serialize_giantScript (length : script.length = 2 ^ 32 - 6) :
    CScriptCompressor.serialize noKeys script = 0 :: script := by
  have plain : CScriptCompressor.compress noKeys script = none := by
    simp [CScriptCompressor.compress, CScriptCompressor.isToKeyID,
      CScriptCompressor.isToScriptID, CScriptCompressor.isToPubKey, length]
  have code : CScriptCompressor.codedSize script = 0 := by
    rw [CScriptCompressor.codedSize, length]
    rfl
  rw [CScriptCompressor.serialize, plain, code]
  change writeVarInt 0 ++ script = _
  rw [writeVarInt_zero, List.singleton_append]

/-- The record of such a script is read back as that of a key hash. -/
theorem reads_giantScript :
    Reads (CCoins.unserialize noKeys)
      (writeVarInt 1 ++ (writeVarInt 2 ++ ([] ++
        ((writeVarInt 0 ++ 0 :: List.replicate 20 0) ++ writeVarInt 0))))
      (coinsOfScript
        (CScriptCompressor.decompress noKeys 0 (List.replicate 20 0) [])) := by
  have version := reads_unserializeVarInt (by decide : (0 : Int) ≤ 1) (by decide)
  have code := reads_unserializeVarUInt (by decide : 2 < 2 ^ 32)
  have mask : Reads (CCoins.readMask 0) [] [] := fun rest => by
    change CCoins.readMask 0 rest = _
    rw [CCoins.readMask]
  have amount := reads_unserializeVarUInt (by decide : 0 < 2 ^ 64)
  have scriptPubKey : Reads (CScriptCompressor.unserialize noKeys CTxOut.null.scriptPubKey)
      (UInt8.ofNat 0 :: List.replicate 20 0)
      (CScriptCompressor.decompress noKeys 0 (List.replicate 20 0) []) :=
    reads_special (by decide) rfl rfl
  have txout : Reads (CTxOutCompressor.unserialize noKeys CTxOut.null)
      (writeVarInt 0 ++ 0 :: List.replicate 20 0)
      { nValue := 0
        scriptPubKey := CScriptCompressor.decompress noKeys 0 (List.replicate 20 0) [] } :=
    amount.bind scriptPubKey.bind_pure
  have spent : Reads (CCoins.readOutputs noKeys [false]) [] [CTxOut.null] :=
    (Reads.pure ([] : List CTxOut)).bind_pure
  have outputs : Reads (CCoins.readOutputs noKeys [true, false])
      ((writeVarInt 0 ++ 0 :: List.replicate 20 0) ++ [])
      [{ nValue := 0
         scriptPubKey := CScriptCompressor.decompress noKeys 0 (List.replicate 20 0) [] },
        CTxOut.null] := txout.bind spent.bind_pure
  rw [List.append_nil] at outputs
  have height := reads_unserializeVarInt (by decide : (0 : Int) ≤ 0) (by decide)
  exact version.bind (code.bind (mask.bind (outputs.bind height.bind_pure)))

/-- The record of a giant script is not read back. -/
theorem giantScript_lost :
    ¬∀ (keys : PubKeys) (coins : CCoins), keys.Recover → coins.Clean → coins.isPruned = false →
      0 ≤ coins.nVersion ∧ coins.nVersion < 2 ^ 31 → 0 ≤ coins.nHeight ∧ coins.nHeight < 2 ^ 31 →
      (∀ txout ∈ coins.vout, txout.isNull = false → moneyRange txout.nValue = true) →
      ∃ bytes, coins.serialize keys = some bytes ∧
        ∀ trailing, (CCoins.unserialize keys).run (bytes ++ trailing) =
          .ok (coins.spentNull, trailing) := by
  intro always
  obtain ⟨script, rest, split, length⟩ : ∃ script rest : CScript,
      script = List.replicate 20 0 ++ 0 :: rest ∧ script.length = 2 ^ 32 - 6 := by
    refine ⟨_, List.replicate (2 ^ 32 - 27) 0, rfl, ?_⟩
    rw [List.length_append, List.length_cons, List.length_replicate, List.length_replicate]
    norm_num
  obtain ⟨bytes, written, reads⟩ := always noKeys (coinsOfScript script) noKeys_recover
    (fun txout last => by cases last; rfl) rfl (by simp [coinsOfScript]) (by simp [coinsOfScript])
    (fun txout member _ => by rw [List.mem_singleton.mp member]; rfl)
  have record : (coinsOfScript script).serialize noKeys =
      some ((writeVarInt 1 ++ (writeVarInt 2 ++ ([] ++
        ((writeVarInt 0 ++ 0 :: List.replicate 20 0) ++ writeVarInt 0)))) ++
          (rest ++ writeVarInt 0)) := by
    have code : (coinsOfScript script).headerCode = some 2 := by
      simp [CCoins.headerCode, CCoins.isAvailable, CCoins.calcMaskSize, coinsOfScript, CTxOut.isNull]
    have outputs : ((coinsOfScript script).vout.flatMap fun txout =>
        if txout.isNull then [] else CTxOutCompressor.serialize noKeys txout) =
        writeVarInt 0 ++ 0 :: script := by
      have unspent : CTxOut.isNull { nValue := 0, scriptPubKey := script } = false := rfl
      simp only [coinsOfScript, List.flatMap_singleton, unspent, Bool.false_eq_true, if_false]
      rw [CTxOutCompressor.serialize, serialize_giantScript length]
      rfl
    have mask : (List.range (coinsOfScript script).calcMaskSize.1).map
        (coinsOfScript script).chAvail = [] := by
      simp [CCoins.calcMaskSize, coinsOfScript]
    rw [CCoins.serialize, code]
    simp only [Option.bind_eq_bind, Option.bind_some, outputs, mask]
    change some (writeVarInt 1 ++ writeVarInt 2 ++ [] ++ (writeVarInt 0 ++ 0 :: script) ++
      writeVarInt 0) = _
    rw [split, writeVarInt_zero]
    simp only [List.append_assoc, List.cons_append, List.nil_append]
  obtain rfl := Option.some.inj (written.symm.trans record)
  have misread := reads_giantScript (rest ++ writeVarInt 0)
  have whole := reads []
  rw [List.append_nil, misread] at whole
  have outputs := congrArg CCoins.vout (congrArg Prod.fst (Except.ok.inj whole))
  have scripts := congrArg (List.map fun txout => txout.scriptPubKey.length) outputs
  have lengths : [25] = [script.length] := scripts
  rw [length] at lengths
  exact absurd lengths (by decide)

end Samples

end Lycancoin
