import Lycancoin.Primitives.Serialize

namespace Lycancoin

open Lycancoin.Data

/-- The values of `int32_t`. -/
def InInt32 (value : Int) : Prop := -2 ^ 31 ≤ value ∧ value < 2 ^ 31

instance (value : Int) : Decidable (InInt32 value) := by unfold InInt32; infer_instance

section Words

theorem serWriteData_succ (width word : Nat) :
    serWriteData (width + 1) word = UInt8.ofNat word :: serWriteData width (word / 256) := by
  simp only [serWriteData, List.range_succ_eq_map, List.map_cons, List.map_map]
  congr 1
  apply List.map_congr_left
  intro i _
  simp only [Function.comp_apply, Nat.shiftRight_eq_div_pow, Nat.div_div_eq_div_mul]
  rw [show 8 * i.succ = 8 + 8 * i by omega, pow_add]
  norm_num

theorem littleEndian_serWriteData {width word : Nat} (fits : word < 256 ^ width) :
    littleEndian (serWriteData width word) = word := by
  induction width generalizing word with
  | zero =>
      have zero : word = 0 := by simpa using fits
      rw [zero]
      rfl
  | succ width ih =>
      have high : word / 256 < 256 ^ width := by
        apply Nat.div_lt_of_lt_mul
        rwa [pow_succ, Nat.mul_comm] at fits
      rw [serWriteData_succ, littleEndian, ih high, UInt8.toNat_ofNat']
      omega

theorem serWriteData_littleEndian (bytes : List UInt8) :
    serWriteData bytes.length (littleEndian bytes) = bytes := by
  induction bytes with
  | nil => rfl
  | cons byte bytes ih =>
      have small := byte.toNat_lt
      have high : (byte.toNat + 256 * littleEndian bytes) / 256 = littleEndian bytes := by omega
      rw [List.length_cons, littleEndian, serWriteData_succ, high, ih]
      congr 1
      apply UInt8.toNat_inj.mp
      rw [UInt8.toNat_ofNat']
      omega

theorem littleEndian_lt (bytes : List UInt8) : littleEndian bytes < 256 ^ bytes.length := by
  induction bytes with
  | nil => simp [littleEndian]
  | cons byte bytes ih =>
      have small := byte.toNat_lt
      rw [littleEndian, List.length_cons, pow_succ]
      omega

theorem inverse_serReadData (width : Nat) :
    Inverse (serReadData width) (serWriteData width) (· < 256 ^ width) where
  reads word fits := by
    have reads : Reads (serReadData width) (serWriteData width word)
        (littleEndian (serWriteData width word)) := by
      have taken := Reads.take ReadFailure.endOfData (serWriteData width word)
      rw [length_serWriteData] at taken
      exact taken.bind_pure
    rwa [littleEndian_serWriteData fits] at reads
  accepts stream word rest returns := by
    obtain ⟨bytes, middle, taken, returns⟩ := Reader.run_bind_eq_ok.mp returns
    obtain ⟨rfl, rfl⟩ := Reader.run_pure_eq_ok.mp returns
    obtain ⟨rfl, rfl⟩ := Reader.run_take_eq_ok.mp taken
    rw [serWriteData_littleEndian]
    exact ⟨rfl, littleEndian_lt bytes⟩

theorem inverse_unserializeInt32 : Inverse unserializeInt32 serializeInt32 InInt32 := by
  apply (inverse_serReadData 4).map fun value => (BitVec.ofInt 32 value).toNat
  · intro value ⟨lower, upper⟩
    have fits : (BitVec.ofInt 32 value).toNat < 2 ^ 32 := (BitVec.ofInt 32 value).isLt
    refine ⟨by omega, ?_⟩
    rw [BitVec.ofNat_toNat, BitVec.setWidth_eq, BitVec.toInt_ofInt]
    exact Int.bmod_eq_of_le (by omega) (by omega)
  · intro word fits
    have lower := (BitVec.ofNat 32 word).le_toInt
    have upper := (BitVec.ofNat 32 word).toInt_lt
    refine ⟨⟨by omega, by omega⟩, ?_⟩
    rw [BitVec.ofInt_toInt, BitVec.toNat_ofNat]
    exact Nat.mod_eq_of_lt (by omega)

theorem inverse_unserializeInt64 : Inverse unserializeInt64 serializeInt64 InInt64 := by
  apply (inverse_serReadData 8).map fun value => (BitVec.ofInt 64 value).toNat
  · intro value ⟨lower, upper⟩
    have fits : (BitVec.ofInt 64 value).toNat < 2 ^ 64 := (BitVec.ofInt 64 value).isLt
    refine ⟨by omega, ?_⟩
    rw [BitVec.ofNat_toNat, BitVec.setWidth_eq, BitVec.toInt_ofInt]
    exact Int.bmod_eq_of_le (by omega) (by omega)
  · intro word fits
    have lower := (BitVec.ofNat 64 word).le_toInt
    have upper := (BitVec.ofNat 64 word).toInt_lt
    refine ⟨⟨by omega, by omega⟩, ?_⟩
    rw [BitVec.ofInt_toInt, BitVec.toNat_ofNat]
    exact Nat.mod_eq_of_lt (by omega)

theorem inverse_unserializeUInt32 :
    Inverse unserializeUInt32 serializeUInt32 (fun _ => True) := by
  apply (inverse_serReadData 4).map UInt32.toNat
  · intro value _
    have fits := value.toNat_lt
    exact ⟨by omega, UInt32.ofNat_toNat⟩
  · intro word fits
    refine ⟨trivial, ?_⟩
    rw [UInt32.toNat_ofNat']
    omega

end Words

section CompactSize

theorem inverse_readMarkedSize (width least : Nat) :
    Inverse (readMarkedSize width least) (serWriteData width)
      (fun nSize => nSize < 256 ^ width ∧ ¬nSize < least) :=
  (inverse_serReadData width).check (· < least) .nonCanonical

/-- The first byte of a compact size. -/
def sizeMarker (nSize : Nat) : Nat :=
  if nSize < 253 then nSize
  else if nSize ≤ 0xffff then 253
  else if nSize ≤ 0xffffffff then 254
  else 255

def sizeBehind (nSize : Nat) : List UInt8 :=
  if nSize < 253 then []
  else if nSize ≤ 0xffff then serWriteData 2 nSize
  else if nSize ≤ 0xffffffff then serWriteData 4 nSize
  else serWriteData 8 nSize

theorem writeCompactSize_eq (nSize : Nat) :
    writeCompactSize nSize = serWriteData 1 (sizeMarker nSize) ++ sizeBehind nSize := by
  unfold writeCompactSize sizeMarker sizeBehind
  split_ifs <;> simp

theorem sizeMarker_lt (nSize : Nat) : sizeMarker nSize < 256 ^ 1 := by
  unfold sizeMarker
  split_ifs <;> omega

theorem inverse_readSizeBehind {chSize : Nat} (fits : chSize < 256 ^ 1) :
    Inverse (readSizeBehind chSize) sizeBehind
      (fun nSize => sizeMarker nSize = chSize ∧ nSize < 2 ^ 64) := by
  unfold readSizeBehind
  split_ifs with none two four
  · apply (Inverse.pure chSize).congr
    · intro nSize same
      rw [same, sizeBehind, if_pos none]
    · intro nSize
      grind [sizeMarker]
  · apply (inverse_readMarkedSize 2 253).congr
    · intro nSize range
      rw [sizeBehind, if_neg (by omega), if_pos (by omega)]
    · intro nSize
      grind [sizeMarker]
  · apply (inverse_readMarkedSize 4 0x10000).congr
    · intro nSize range
      rw [sizeBehind, if_neg (by omega), if_neg (by omega), if_pos (by omega)]
    · intro nSize
      grind [sizeMarker]
  · apply (inverse_readMarkedSize 8 0x100000000).congr
    · intro nSize range
      rw [sizeBehind, if_neg (by omega), if_neg (by omega), if_neg (by omega)]
    · intro nSize
      grind [sizeMarker]

theorem inverse_readCompactSize :
    Inverse readCompactSize writeCompactSize (· ≤ MAX_SIZE) := by
  have sizes : Inverse (serReadData 1 >>= readSizeBehind) writeCompactSize (· < 2 ^ 64) := by
    apply ((inverse_serReadData 1).bind sizeMarker fun _ fits => inverse_readSizeBehind fits).congr
    · intro nSize _
      exact writeCompactSize_eq nSize
    · intro nSize
      exact ⟨fun fits => ⟨sizeMarker_lt nSize, fits⟩, And.right⟩
  have checked := sizes.check (MAX_SIZE < ·) ReadFailure.tooLarge
  rw [bind_assoc] at checked
  apply checked.congr (fun _ _ => rfl)
  intro nSize
  have limit : MAX_SIZE < 2 ^ 64 := by decide
  omega

end CompactSize

section Vectors

variable {α : Type} {unserialize : ByteReader α} {serialize : α → List UInt8} {valid : α → Prop}

theorem ElementSize.perBlock_pos (size : ElementSize) : 0 < size.perBlock :=
  Nat.div_pos size.small size.positive

theorem inverse_unserializeVector (size : ElementSize)
    (each : Inverse unserialize serialize valid) :
    Inverse (unserializeVector size unserialize) (serializeVector serialize)
      (fun v => v.length ≤ MAX_SIZE ∧ ∀ element ∈ v, valid element) := by
  apply inverse_readCompactSize.bind List.length
  intro nSize _
  rw [Reader.chunked_eq rfl (Reader.many_add unserialize) size.perBlock_pos (Nat.sub_le _ _)]
  exact each.many nSize

theorem reads_unserializeVector (size : ElementSize) {v : List α} (few : v.length ≤ MAX_SIZE)
    (each : ∀ element ∈ v, Reads unserialize (serialize element) element) :
    Reads (unserializeVector size unserialize) (serializeVector serialize v) v := by
  have count := inverse_readCompactSize.reads v.length few
  have elements := Reads.many each
  have whole := Reader.chunked_eq rfl (Reader.many_add unserialize) size.perBlock_pos
    (Nat.sub_le v.length 0)
  rw [Nat.sub_zero] at whole
  rw [← whole] at elements
  exact count.bind elements

/-- A vector has as many elements as its first bytes say. -/
theorem length_of_unserializeVector {size : ElementSize} {nSize : Nat} {v : List α}
    {stream rest : List UInt8} (few : nSize ≤ MAX_SIZE)
    (returns : (unserializeVector size unserialize).run (writeCompactSize nSize ++ stream) =
      .ok (v, rest)) : v.length = nSize := by
  obtain ⟨count, middle, counted, returns⟩ := Reader.run_bind_eq_ok.mp returns
  rw [inverse_readCompactSize.reads nSize few stream] at counted
  cases counted
  rw [Reader.chunked_eq rfl (Reader.many_add unserialize) size.perBlock_pos (Nat.sub_le nSize 0),
    Nat.sub_zero] at returns
  exact Reader.length_of_run_many returns

theorem inverse_unserializeScript :
    Inverse CScript.unserialize CScript.serialize (fun script => script.length ≤ MAX_SIZE) := by
  have bytes : Inverse unserializeBytes (fun v => writeCompactSize v.length ++ id v)
      (fun v => v.length ≤ MAX_SIZE ∧ True) := by
    apply inverse_readCompactSize.bind List.length
    intro nSize _
    rw [Reader.chunked_eq Reader.take_zero Reader.take_add (by decide) (Nat.sub_le _ _)]
    exact (Inverse.take _ nSize).congr (fun _ _ => rfl) fun _ => iff_of_eq (and_true _)
  exact bytes.congr (fun _ _ => rfl) fun _ => iff_of_eq (and_true _).symm

end Vectors

section Objects

theorem Uint256.serialize_eq (blob : Uint256) :
    blob.serialize = serWriteData 32 blob.value.toNat := by
  rw [Uint256.serialize, Uint256.data, List.map_map, serWriteData]
  apply List.map_congr_left
  intro i _
  rw [Function.comp_apply, BitVec.extractLsb'_toNat]
  apply UInt8.toNat_inj.mp
  rw [UInt8.toNat_ofNat', UInt8.toNat_ofNat', Nat.mod_mod]

theorem inverse_unserializeUint256 :
    Inverse Uint256.unserialize Uint256.serialize (fun _ => True) where
  reads blob _ := by
    have taken := Reads.take ReadFailure.endOfData blob.serialize
    have length : blob.serialize.length = 32 := by
      rw [Uint256.serialize_eq, length_serWriteData]
    have same : (⟨BitVec.ofNat 256 (littleEndian blob.serialize)⟩ : Uint256) = blob := by
      have fits : blob.value.toNat < 256 ^ 32 := blob.value.isLt
      rw [Uint256.serialize_eq, littleEndian_serWriteData fits, BitVec.ofNat_toNat,
        BitVec.setWidth_eq]
    rw [length] at taken
    have reads : Reads Uint256.unserialize blob.serialize
        ⟨BitVec.ofNat 256 (littleEndian blob.serialize)⟩ := taken.bind_pure
    rwa [same] at reads
  accepts stream blob rest returns := by
    obtain ⟨bytes, middle, taken, returns⟩ := Reader.run_bind_eq_ok.mp returns
    obtain ⟨rfl, rfl⟩ := Reader.run_pure_eq_ok.mp returns
    obtain ⟨rfl, length⟩ := Reader.run_take_eq_ok.mp taken
    have fits := littleEndian_lt bytes
    rw [length] at fits
    refine ⟨?_, trivial⟩
    rw [Uint256.serialize_eq, BitVec.toNat_ofNat, Nat.mod_eq_of_lt (by omega), ← length,
      serWriteData_littleEndian]

theorem inverse_unserializeOutPoint :
    Inverse COutPoint.unserialize COutPoint.serialize (fun _ => True) where
  reads outpoint _ := by
    have hash := inverse_unserializeUint256.reads outpoint.hash trivial
    have n := inverse_unserializeUInt32.reads outpoint.n trivial
    exact hash.bind n.bind_pure
  accepts stream outpoint rest returns := by
    obtain ⟨hash, _, first, returns⟩ := Reader.run_bind_eq_ok.mp returns
    obtain ⟨n, _, second, returns⟩ := Reader.run_bind_eq_ok.mp returns
    obtain ⟨rfl, rfl⟩ := Reader.run_pure_eq_ok.mp returns
    obtain ⟨rfl, _⟩ := inverse_unserializeUint256.accepts _ _ _ first
    obtain ⟨rfl, _⟩ := inverse_unserializeUInt32.accepts _ _ _ second
    exact ⟨by rw [COutPoint.serialize, List.append_assoc], trivial⟩

def CTxIn.WithinMaxSize (txin : CTxIn) : Prop := txin.scriptSig.length ≤ MAX_SIZE

theorem inverse_unserializeTxIn :
    Inverse CTxIn.unserialize CTxIn.serialize CTxIn.WithinMaxSize where
  reads txin fits := by
    have prevout := inverse_unserializeOutPoint.reads txin.prevout trivial
    have scriptSig := inverse_unserializeScript.reads txin.scriptSig fits
    have nSequence := inverse_unserializeUInt32.reads txin.nSequence trivial
    rw [CTxIn.serialize, List.append_assoc]
    exact prevout.bind (scriptSig.bind nSequence.bind_pure)
  accepts stream txin rest returns := by
    obtain ⟨prevout, _, first, returns⟩ := Reader.run_bind_eq_ok.mp returns
    obtain ⟨scriptSig, _, second, returns⟩ := Reader.run_bind_eq_ok.mp returns
    obtain ⟨nSequence, _, third, returns⟩ := Reader.run_bind_eq_ok.mp returns
    obtain ⟨rfl, rfl⟩ := Reader.run_pure_eq_ok.mp returns
    obtain ⟨rfl, _⟩ := inverse_unserializeOutPoint.accepts _ _ _ first
    obtain ⟨rfl, fits⟩ := inverse_unserializeScript.accepts _ _ _ second
    obtain ⟨rfl, _⟩ := inverse_unserializeUInt32.accepts _ _ _ third
    exact ⟨by simp only [CTxIn.serialize, List.append_assoc], fits⟩

/-- The value is one of its type, and the script is not too long. -/
structure CTxOut.WithinMaxSize (txout : CTxOut) : Prop where
  nValue : InInt64 txout.nValue
  scriptPubKey : txout.scriptPubKey.length ≤ MAX_SIZE

theorem inverse_unserializeTxOut :
    Inverse CTxOut.unserialize CTxOut.serialize CTxOut.WithinMaxSize where
  reads txout fits := by
    have nValue := inverse_unserializeInt64.reads txout.nValue fits.nValue
    have scriptPubKey := inverse_unserializeScript.reads txout.scriptPubKey fits.scriptPubKey
    exact nValue.bind scriptPubKey.bind_pure
  accepts stream txout rest returns := by
    obtain ⟨nValue, _, first, returns⟩ := Reader.run_bind_eq_ok.mp returns
    obtain ⟨scriptPubKey, _, second, returns⟩ := Reader.run_bind_eq_ok.mp returns
    obtain ⟨rfl, rfl⟩ := Reader.run_pure_eq_ok.mp returns
    obtain ⟨rfl, range⟩ := inverse_unserializeInt64.accepts _ _ _ first
    obtain ⟨rfl, fits⟩ := inverse_unserializeScript.accepts _ _ _ second
    exact ⟨by rw [CTxOut.serialize, List.append_assoc], range, fits⟩

/-- The version is one of its type, and no vector or script is too long. -/
structure CMutableTransaction.WithinMaxSize (tx : CMutableTransaction) : Prop where
  nVersion : InInt32 tx.nVersion
  inputs : tx.vin.length ≤ MAX_SIZE
  vin : ∀ txin ∈ tx.vin, txin.WithinMaxSize
  outputs : tx.vout.length ≤ MAX_SIZE
  vout : ∀ txout ∈ tx.vout, txout.WithinMaxSize

variable {hash : List UInt8 → Uint256} {sizes : ObjectSizes}

theorem inverse_unserializeMutableTransaction :
    Inverse (CMutableTransaction.unserialize sizes) CMutableTransaction.serialize
      CMutableTransaction.WithinMaxSize where
  reads tx fits := by
    have nVersion := inverse_unserializeInt32.reads tx.nVersion fits.nVersion
    have vin := (inverse_unserializeVector sizes.sizeofCTxIn inverse_unserializeTxIn).reads tx.vin
      ⟨fits.inputs, fits.vin⟩
    have vout := (inverse_unserializeVector sizes.sizeofCTxOut inverse_unserializeTxOut).reads
      tx.vout ⟨fits.outputs, fits.vout⟩
    have nLockTime := inverse_unserializeUInt32.reads tx.nLockTime trivial
    simp only [CMutableTransaction.serialize, List.append_assoc]
    exact nVersion.bind (vin.bind (vout.bind nLockTime.bind_pure))
  accepts stream tx rest returns := by
    obtain ⟨nVersion, _, first, returns⟩ := Reader.run_bind_eq_ok.mp returns
    obtain ⟨vin, _, second, returns⟩ := Reader.run_bind_eq_ok.mp returns
    obtain ⟨vout, _, third, returns⟩ := Reader.run_bind_eq_ok.mp returns
    obtain ⟨nLockTime, _, fourth, returns⟩ := Reader.run_bind_eq_ok.mp returns
    obtain ⟨rfl, rfl⟩ := Reader.run_pure_eq_ok.mp returns
    obtain ⟨rfl, range⟩ := inverse_unserializeInt32.accepts _ _ _ first
    obtain ⟨rfl, inputs, eachIn⟩ :=
      (inverse_unserializeVector sizes.sizeofCTxIn inverse_unserializeTxIn).accepts _ _ _ second
    obtain ⟨rfl, outputs, eachOut⟩ :=
      (inverse_unserializeVector sizes.sizeofCTxOut inverse_unserializeTxOut).accepts _ _ _ third
    obtain ⟨rfl, _⟩ := inverse_unserializeUInt32.accepts _ _ _ fourth
    exact ⟨by simp only [CMutableTransaction.serialize, List.append_assoc],
      range, inputs, eachIn, outputs, eachOut⟩

/-- The transaction caches its own hash, and no vector or script is too long. -/
structure CTransaction.WithinMaxSize (hash : List UInt8 → Uint256) (tx : CTransaction) : Prop where
  cached : tx.hash = hash tx.serialize
  content : tx.toMutable.WithinMaxSize

theorem inverse_unserializeTransaction :
    Inverse (CTransaction.unserialize hash sizes) CTransaction.serialize
      (CTransaction.WithinMaxSize hash) := by
  apply inverse_unserializeMutableTransaction.map CTransaction.toMutable
  · intro tx fits
    refine ⟨fits.content, ?_⟩
    rw [CTransaction.ofMutable]
    cases tx
    congr 1
    exact fits.cached.symm
  · intro tx fits
    exact ⟨⟨rfl, fits⟩, rfl⟩

theorem inverse_unserializeHeader :
    Inverse CBlockHeader.unserialize CBlockHeader.serialize
      (fun header => InInt32 header.nVersion) where
  reads header range := by
    have nVersion := inverse_unserializeInt32.reads header.nVersion range
    have hashPrevBlock := inverse_unserializeUint256.reads header.hashPrevBlock trivial
    have hashMerkleRoot := inverse_unserializeUint256.reads header.hashMerkleRoot trivial
    have nTime := inverse_unserializeUInt32.reads header.nTime trivial
    have nBits := inverse_unserializeUInt32.reads header.nBits trivial
    have nNonce := inverse_unserializeUInt32.reads header.nNonce trivial
    simp only [CBlockHeader.serialize, List.append_assoc]
    exact nVersion.bind (hashPrevBlock.bind (hashMerkleRoot.bind
      (nTime.bind (nBits.bind nNonce.bind_pure))))
  accepts stream header rest returns := by
    obtain ⟨nVersion, _, first, returns⟩ := Reader.run_bind_eq_ok.mp returns
    obtain ⟨hashPrevBlock, _, second, returns⟩ := Reader.run_bind_eq_ok.mp returns
    obtain ⟨hashMerkleRoot, _, third, returns⟩ := Reader.run_bind_eq_ok.mp returns
    obtain ⟨nTime, _, fourth, returns⟩ := Reader.run_bind_eq_ok.mp returns
    obtain ⟨nBits, _, fifth, returns⟩ := Reader.run_bind_eq_ok.mp returns
    obtain ⟨nNonce, _, sixth, returns⟩ := Reader.run_bind_eq_ok.mp returns
    obtain ⟨rfl, rfl⟩ := Reader.run_pure_eq_ok.mp returns
    obtain ⟨rfl, range⟩ := inverse_unserializeInt32.accepts _ _ _ first
    obtain ⟨rfl, _⟩ := inverse_unserializeUint256.accepts _ _ _ second
    obtain ⟨rfl, _⟩ := inverse_unserializeUint256.accepts _ _ _ third
    obtain ⟨rfl, _⟩ := inverse_unserializeUInt32.accepts _ _ _ fourth
    obtain ⟨rfl, _⟩ := inverse_unserializeUInt32.accepts _ _ _ fifth
    obtain ⟨rfl, _⟩ := inverse_unserializeUInt32.accepts _ _ _ sixth
    exact ⟨by simp only [CBlockHeader.serialize, List.append_assoc], range⟩

structure CBlock.WithinMaxSize (hash : List UInt8 → Uint256) (block : CBlock) : Prop where
  nVersion : InInt32 block.nVersion
  transactions : block.vtx.length ≤ MAX_SIZE
  vtx : ∀ tx ∈ block.vtx, tx.WithinMaxSize hash

theorem inverse_unserializeTransactions (sizes : ObjectSizes) :
    Inverse (unserializeVector sizes.sizeofCTransaction (CTransaction.unserialize hash sizes))
      (serializeVector CTransaction.serialize)
      (fun vtx => vtx.length ≤ MAX_SIZE ∧ ∀ tx ∈ vtx, tx.WithinMaxSize hash) :=
  inverse_unserializeVector sizes.sizeofCTransaction inverse_unserializeTransaction

theorem inverse_unserializeBlock :
    Inverse (CBlock.unserialize hash sizes) CBlock.serialize (CBlock.WithinMaxSize hash) where
  reads block fits := by
    have header := inverse_unserializeHeader.reads block.toCBlockHeader fits.nVersion
    have vtx := (inverse_unserializeTransactions sizes).reads block.vtx ⟨fits.transactions, fits.vtx⟩
    exact header.bind vtx.bind_pure
  accepts stream block rest returns := by
    obtain ⟨header, _, first, returns⟩ := Reader.run_bind_eq_ok.mp returns
    obtain ⟨vtx, _, second, returns⟩ := Reader.run_bind_eq_ok.mp returns
    obtain ⟨rfl, rfl⟩ := Reader.run_pure_eq_ok.mp returns
    obtain ⟨rfl, range⟩ := inverse_unserializeHeader.accepts _ _ _ first
    obtain ⟨rfl, length, each⟩ := (inverse_unserializeTransactions sizes).accepts _ _ _ second
    exact ⟨by rw [CBlock.serialize, List.append_assoc], range, length, each⟩

/-- Transactions and blocks are read back from what is written for them, the sizes
are those of the bytes written, and each of them has one encoding. -/
theorem serialization_round_trip (hash : List UInt8 → Uint256) (sizes : ObjectSizes) :
    (∀ tx : CTransaction, tx.WithinMaxSize hash → ∀ trailing,
      (CTransaction.unserialize hash sizes).run (tx.serialize ++ trailing) = .ok (tx, trailing)) ∧
    (∀ block : CBlock, block.WithinMaxSize hash → ∀ trailing,
      (CBlock.unserialize hash sizes).run (block.serialize ++ trailing) = .ok (block, trailing)) ∧
    (∀ tx : CTransaction, tx.getSerializeSize = tx.serialize.length) ∧
    (∀ block : CBlock, block.getSerializeSize = block.serialize.length) ∧
    (∀ bytes tx rest, (CTransaction.unserialize hash sizes).run bytes = .ok (tx, rest) →
      bytes = tx.serialize ++ rest ∧ tx.WithinMaxSize hash) ∧
    (∀ bytes block rest, (CBlock.unserialize hash sizes).run bytes = .ok (block, rest) →
      bytes = block.serialize ++ rest ∧ block.WithinMaxSize hash) ∧
    ∀ tx first second firstRest secondRest,
      (CTransaction.unserialize hash sizes).run (first ++ firstRest) = .ok (tx, firstRest) →
      (CTransaction.unserialize hash sizes).run (second ++ secondRest) = .ok (tx, secondRest) →
      first = second :=
  ⟨inverse_unserializeTransaction.reads, inverse_unserializeBlock.reads,
    fun tx => tx.length_serialize.symm, fun block => block.length_serialize.symm,
    inverse_unserializeTransaction.accepts, inverse_unserializeBlock.accepts,
    fun _ _ _ _ _ => inverse_unserializeTransaction.encoding_unique⟩

/-- A transaction with one input and one output, which caches the given hash. -/
def smallTransaction (hash : List UInt8 → Uint256) : CTransaction :=
  CTransaction.ofMutable hash
    { nVersion := 1
      vin := [{ prevout := ⟨7, 1⟩, scriptSig := [0x51], nSequence := 0xffffffff }]
      vout := [{ nValue := 50, scriptPubKey := [] }]
      nLockTime := 0 }

/-- The sizes that a 64-bit compiler gives the types. -/
def objectSizes64 : ObjectSizes where
  sizeofCTxIn := ⟨72, by decide, by decide⟩
  sizeofCTxOut := ⟨32, by decide, by decide⟩
  sizeofCTransaction := ⟨96, by decide, by decide⟩

theorem smallTransaction_round_trip :
    (CTransaction.unserialize (fun _ => 3) objectSizes64).run
      ((smallTransaction fun _ => 3).serialize ++ [1, 2]) =
        .ok (smallTransaction fun _ => 3, [1, 2]) := by
  apply (serialization_round_trip (fun _ => 3) objectSizes64).1
  refine ⟨rfl, ⟨by decide, by decide⟩, by decide, ?_, by decide, ?_⟩
  · intro txin member
    rw [List.mem_singleton.mp member]
    exact (by decide : 1 ≤ MAX_SIZE)
  · intro txout member
    rw [List.mem_singleton.mp member]
    exact ⟨by decide, by decide⟩

end Objects

end Lycancoin
