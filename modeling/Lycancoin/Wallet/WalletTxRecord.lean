import Lycancoin.Wallet.AccountingEntry
import Lycancoin.Wallet.WalletTx

namespace Lycancoin

open Lycancoin.Data

/-- A `CWalletTx` with all the fields that its record keeps. -/
structure WalletTxRecord extends CWalletTx where
  mapValue : StringMap
  vOrderForm : List (StdString × StdString)
  fTimeReceivedIsTxTime : UInt32
  nTimeReceived : UInt32
  nTimeSmart : UInt32
  fFromMe : UInt8
  strFromAccount : StdString
  nOrderPos : Int

/-- The element types of the vectors in a wallet transaction. -/
structure WalletObjectSizes extends ObjectSizes where
  sizeofUint256 : ElementSize
  sizeofCMerkleTx : ElementSize
  sizeofStringPair : ElementSize

namespace WalletTxRecord

def fromAccountKey : StdString := stdString "fromaccount"

def versionKey : StdString := stdString "version"

def spentKey : StdString := stdString "spent"

def timeSmartKey : StdString := stdString "timesmart"

/-- The keys that are erased from `mapValue` whenever a record is written or read. -/
def reservedKeys : List StdString :=
  [fromAccountKey, versionKey, spentKey, orderPosKey, timeSmartKey]

/-- The map with the account, the order position and the time. -/
def writtenMap (wtx : WalletTxRecord) : StringMap :=
  let mapValue := wtx.mapValue.insert fromAccountKey wtx.strFromAccount
  let mapValue := writeOrderPos wtx.nOrderPos mapValue
  if wtx.nTimeSmart ≠ 0 then mapValue.insert timeSmartKey (i64tostr wtx.nTimeSmart.toNat)
  else mapValue

def eraseReserved (mapValue : StringMap) : StringMap :=
  reservedKeys.foldl (fun mapValue key => mapValue.erase key) mapValue

/-- `SerializationOp` of `CMerkleTx`, for writing. -/
def serializeMerkleTx (wtx : CWalletTx) : List UInt8 :=
  wtx.tx.serialize ++ (wtx.hashBlock.serialize ++
    (serializeVector Uint256.serialize wtx.vMerkleBranch ++ serializeInt32 wtx.nIndex))

/-- `SerializationOp` for writing: the bytes, and the transaction as it is left.  `vUnused` is
empty, and `fSpent` is false. -/
def serialize (wtx : WalletTxRecord) : List UInt8 × WalletTxRecord :=
  (serializeMerkleTx wtx.toCWalletTx ++ (writeCompactSize 0 ++ (serializeMap wtx.writtenMap ++
    (serializeVector serializePair wtx.vOrderForm ++
      (serializeUInt32 wtx.fTimeReceivedIsTxTime ++ (serializeUInt32 wtx.nTimeReceived ++
        ([wtx.fFromMe] ++ [0])))))),
    { wtx with mapValue := eraseReserved wtx.writtenMap })

/-- `SerializationOp` of `CMerkleTx`, for reading. -/
def unserializeMerkleTx (hash : List UInt8 → Uint256) (sizes : WalletObjectSizes) :
    ByteReader CWalletTx := do
  let tx ← CTransaction.unserialize hash sizes.toObjectSizes
  let hashBlock ← Uint256.unserialize
  let vMerkleBranch ← unserializeVector sizes.sizeofUint256 Uint256.unserialize
  let nIndex ← unserializeInt32
  pure { tx, hashBlock, vMerkleBranch, nIndex, fMerkleVerified := false }

def unserializeChar : ByteReader UInt8 := do
  let word ← serReadData 1
  pure (UInt8.ofNat word)

/-- `SerializationOp` for reading. -/
def unserialize (hash : List UInt8 → Uint256) (sizes : WalletObjectSizes) :
    ByteReader WalletTxRecord := do
  let merkleTx ← unserializeMerkleTx hash sizes
  let _ ← unserializeVector sizes.sizeofCMerkleTx (unserializeMerkleTx hash sizes)
  let mapValue ← unserializeMap
  let vOrderForm ← unserializeVector sizes.sizeofStringPair unserializePair
  let fTimeReceivedIsTxTime ← unserializeUInt32
  let nTimeReceived ← unserializeUInt32
  let fFromMe ← unserializeChar
  let _ ← unserializeChar
  pure
    { toCWalletTx := merkleTx
      mapValue := eraseReserved mapValue
      vOrderForm, fTimeReceivedIsTxTime, nTimeReceived, fFromMe
      strFromAccount := mapValue[fromAccountKey]?.getD []
      nOrderPos := readOrderPos mapValue
      nTimeSmart :=
        match mapValue[timeSmartKey]? with
        | none => 0
        | some text => UInt32.ofInt (atoi64String text) }

/-! ## The map -/

variable {wtx : WalletTxRecord}

theorem getElem?_eraseReserved (mapValue : StringMap) (key : StdString) :
    (eraseReserved mapValue)[key]? = if key ∈ reservedKeys then none else mapValue[key]? := by
  unfold eraseReserved
  generalize reservedKeys = keys
  induction keys generalizing mapValue with
  | nil => simp
  | cons first rest ih =>
      rw [List.foldl_cons, ih, KeyedBatch.getElem?_erase_eq]
      by_cases own : key = first <;> by_cases later : key ∈ rest <;> simp [own, later]

theorem keys_apart :
    fromAccountKey ≠ orderPosKey ∧ fromAccountKey ≠ timeSmartKey ∧ orderPosKey ≠ timeSmartKey := by
  decide

/-- The values of the types of the fields, and a map without reserved keys. -/
structure Creatable (wtx : WalletTxRecord) : Prop where
  nIndex : InInt32 wtx.nIndex
  nOrderPos : InInt64 wtx.nOrderPos
  mapValue : ∀ key ∈ reservedKeys, wtx.mapValue[key]? = none

theorem getElem?_writtenMap (key : StdString) (apart : key ≠ fromAccountKey)
    (apart' : key ≠ orderPosKey) (apart'' : key ≠ timeSmartKey) :
    wtx.writtenMap[key]? = wtx.mapValue[key]? := by
  unfold writtenMap writeOrderPos
  split <;> split <;> simp only [KeyedBatch.getElem?_insert_eq, apart, apart', apart'', if_false]

theorem eraseReserved_writtenMap (free : ∀ key ∈ reservedKeys, wtx.mapValue[key]? = none) :
    eraseReserved wtx.writtenMap = wtx.mapValue := by
  apply Std.ExtTreeMap.ext_getElem?
  intro key
  rw [getElem?_eraseReserved]
  by_cases reserved : key ∈ reservedKeys
  · rw [if_pos reserved, free key reserved]
  · simp only [reservedKeys, List.mem_cons, List.not_mem_nil, or_false, not_or] at reserved
    rw [if_neg (by simpa [reservedKeys] using reserved),
      getElem?_writtenMap key reserved.1 reserved.2.2.2.1 reserved.2.2.2.2]

theorem fromAccount_writtenMap : wtx.writtenMap[fromAccountKey]? = some wtx.strFromAccount := by
  obtain ⟨first, second, -⟩ := keys_apart
  unfold writtenMap writeOrderPos
  split <;> split <;> simp only [KeyedBatch.getElem?_insert_eq, first, second, if_true, if_false]

theorem readOrderPos_writtenMap (range : InInt64 wtx.nOrderPos)
    (free : wtx.mapValue[orderPosKey]? = none) : readOrderPos wtx.writtenMap = wtx.nOrderPos := by
  obtain ⟨first, -, third⟩ := keys_apart
  have written := @readOrderPos_writeOrderPos
    (wtx.mapValue.insert fromAccountKey wtx.strFromAccount) wtx.nOrderPos range
    (by rw [KeyedBatch.getElem?_insert_eq, if_neg first.symm, free])
  have same : wtx.writtenMap[orderPosKey]? = (writeOrderPos wtx.nOrderPos
      (wtx.mapValue.insert fromAccountKey wtx.strFromAccount))[orderPosKey]? := by
    unfold writtenMap
    split
    · rw [KeyedBatch.getElem?_insert_eq, if_neg third]
    · rfl
  unfold readOrderPos at written ⊢
  rw [same]
  exact written

theorem timeSmart_writtenMap (free : wtx.mapValue[timeSmartKey]? = none) :
    (match wtx.writtenMap[timeSmartKey]? with
      | none => 0
      | some text => UInt32.ofInt (atoi64String text)) = wtx.nTimeSmart := by
  obtain ⟨-, second, third⟩ := keys_apart
  unfold writtenMap
  by_cases unset : wtx.nTimeSmart = 0
  · have absent : (writeOrderPos wtx.nOrderPos
        (wtx.mapValue.insert fromAccountKey wtx.strFromAccount))[timeSmartKey]? = none := by
      unfold writeOrderPos
      split <;>
        simp only [KeyedBatch.getElem?_insert_eq, second.symm, third.symm, if_false, free]
    simp only [unset, ne_eq, not_true_eq_false, if_false, absent]
  · have range : InInt64 (wtx.nTimeSmart.toNat : Int) := by
      have bound := wtx.nTimeSmart.toNat_lt
      unfold InInt64
      omega
    simp only [ne_eq, unset, not_false_eq_true, if_true, KeyedBatch.getElem?_insert_eq,
      atoi64String_i64tostr range]
    have word : ((wtx.nTimeSmart.toNat : Int) % 2 ^ 32).toNat = wtx.nTimeSmart.toNat := by
      have bound := wtx.nTimeSmart.toNat_lt
      omega
    rw [UInt32.ofInt, word, UInt32.ofNat_toNat]

/-! ## The record -/

variable {hash : List UInt8 → Uint256} {sizes : WalletObjectSizes}

theorem inverse_unserializeMerkleTx :
    Inverse (unserializeMerkleTx hash sizes) serializeMerkleTx
      (fun wtx => wtx.tx.WithinMaxSize hash ∧ wtx.vMerkleBranch.length ≤ MAX_SIZE ∧
        InInt32 wtx.nIndex ∧ wtx.fMerkleVerified = false) where
  reads wtx fits := by
    have tx := (@inverse_unserializeTransaction hash sizes.toObjectSizes).reads wtx.tx fits.1
    have hashBlock := inverse_unserializeUint256.reads wtx.hashBlock trivial
    have vMerkleBranch := (inverse_unserializeVector sizes.sizeofUint256
      inverse_unserializeUint256).reads wtx.vMerkleBranch ⟨fits.2.1, fun _ _ => trivial⟩
    have nIndex := inverse_unserializeInt32.reads wtx.nIndex fits.2.2.1
    have whole : Reads (unserializeMerkleTx hash sizes) (serializeMerkleTx wtx)
        { wtx with fMerkleVerified := false } :=
      tx.bind (hashBlock.bind (vMerkleBranch.bind nIndex.bind_pure))
    rwa [← fits.2.2.2] at whole
  accepts stream wtx rest returns := by
    obtain ⟨tx, _, first, returns⟩ := Reader.run_bind_eq_ok.mp returns
    obtain ⟨hashBlock, _, second, returns⟩ := Reader.run_bind_eq_ok.mp returns
    obtain ⟨vMerkleBranch, _, third, returns⟩ := Reader.run_bind_eq_ok.mp returns
    obtain ⟨nIndex, _, fourth, returns⟩ := Reader.run_bind_eq_ok.mp returns
    obtain ⟨rfl, rfl⟩ := Reader.run_pure_eq_ok.mp returns
    obtain ⟨rfl, fits⟩ := inverse_unserializeTransaction.accepts _ _ _ first
    obtain ⟨rfl, _⟩ := inverse_unserializeUint256.accepts _ _ _ second
    obtain ⟨rfl, few, _⟩ := (inverse_unserializeVector sizes.sizeofUint256
      inverse_unserializeUint256).accepts _ _ _ third
    obtain ⟨rfl, range⟩ := inverse_unserializeInt32.accepts _ _ _ fourth
    exact ⟨by simp only [serializeMerkleTx, List.append_assoc], fits, few, range, rfl⟩

theorem inverse_unserializeChar : Inverse unserializeChar (fun char => [char]) (fun _ => True) := by
  have word : Inverse unserializeChar (fun char => serWriteData 1 char.toNat) (fun _ => True) := by
    apply (inverse_serReadData 1).map UInt8.toNat
    · intro char _
      exact ⟨char.toNat_lt, UInt8.ofNat_toNat⟩
    · intro word fits
      exact ⟨trivial, by rw [UInt8.toNat_ofNat', Nat.mod_eq_of_lt (by simpa using fits)]⟩
  apply word.congr
  · intro char _
    simp [serWriteData, List.range_succ]
  · intro char
    rfl

structure Storable (hash : List UInt8 → Uint256) (wtx : WalletTxRecord) : Prop where
  tx : wtx.tx.WithinMaxSize hash
  vMerkleBranch : wtx.vMerkleBranch.length ≤ MAX_SIZE
  writtenMap : MapWithinMaxSize wtx.writtenMap
  vOrderForm : wtx.vOrderForm.length ≤ MAX_SIZE
  pairs : ∀ item ∈ wtx.vOrderForm, PairWithinMaxSize item

/-- The transaction without what is kept in memory only. -/
def unverified (wtx : WalletTxRecord) : WalletTxRecord :=
  { wtx with toCWalletTx := { wtx.toCWalletTx with fMerkleVerified := false } }

theorem reads_unused (hash : List UInt8 → Uint256) (sizes : WalletObjectSizes) :
    Reads (unserializeVector sizes.sizeofCMerkleTx (unserializeMerkleTx hash sizes))
      (writeCompactSize 0) [] := by
  have empty := @reads_unserializeVector _ (unserializeMerkleTx hash sizes) serializeMerkleTx
    sizes.sizeofCMerkleTx [] (Nat.zero_le MAX_SIZE) (fun _ member => by cases member)
  simpa [serializeVector] using empty

theorem unserialize_of_storable (creatable : wtx.Creatable) (storable : wtx.Storable hash) :
    (unserialize hash sizes).run wtx.serialize.1 = .ok (wtx.unverified, []) := by
  have merkleTx := (@inverse_unserializeMerkleTx hash sizes).reads
    { wtx.toCWalletTx with fMerkleVerified := false }
    ⟨storable.tx, storable.vMerkleBranch, creatable.nIndex, rfl⟩
  have vUnused := reads_unused hash sizes
  have mapValue := reads_unserializeMap storable.writtenMap
  have vOrderForm := (inverse_unserializeVector sizes.sizeofStringPair
    inverse_unserializePair).reads wtx.vOrderForm ⟨storable.vOrderForm, storable.pairs⟩
  have received := inverse_unserializeUInt32.reads wtx.fTimeReceivedIsTxTime trivial
  have nTimeReceived := inverse_unserializeUInt32.reads wtx.nTimeReceived trivial
  have fFromMe := inverse_unserializeChar.reads wtx.fFromMe trivial
  have fSpent := inverse_unserializeChar.reads 0 trivial
  rw [unserialize, serialize, Reader.run_bind_eq_ok]
  refine ⟨_, _, merkleTx _, ?_⟩
  rw [Reader.run_bind_eq_ok]
  refine ⟨_, _, vUnused _, ?_⟩
  rw [Reader.run_bind_eq_ok]
  refine ⟨_, _, mapValue _, ?_⟩
  rw [Reader.run_bind_eq_ok]
  refine ⟨_, _, vOrderForm _, ?_⟩
  rw [Reader.run_bind_eq_ok]
  refine ⟨_, _, received _, ?_⟩
  rw [Reader.run_bind_eq_ok]
  refine ⟨_, _, nTimeReceived _, ?_⟩
  rw [Reader.run_bind_eq_ok]
  refine ⟨_, _, fFromMe _, ?_⟩
  rw [Reader.run_bind_eq_ok]
  refine ⟨_, [], fSpent [], ?_⟩
  have free : ∀ key ∈ [orderPosKey, timeSmartKey], wtx.mapValue[key]? = none := by
    intro key member
    apply creatable.mapValue
    simp only [List.mem_cons, List.not_mem_nil, or_false] at member
    simp only [reservedKeys, List.mem_cons, List.not_mem_nil, or_false]
    tauto
  have timeSmart := timeSmart_writtenMap (free timeSmartKey (by simp))
  have orderPos := readOrderPos_writtenMap creatable.nOrderPos (free orderPosKey (by simp))
  simp only [eraseReserved_writtenMap creatable.mapValue, fromAccount_writtenMap, orderPos,
    Option.getD_some]
  rw [timeSmart]
  rfl

theorem storable_of_unserialize (returns :
    (unserialize hash sizes).run wtx.serialize.1 = .ok (wtx.unverified, [])) :
    wtx.Storable hash := by
  obtain ⟨merkleTx, _, first, returns⟩ := Reader.run_bind_eq_ok.mp returns
  obtain ⟨vUnused, _, second, returns⟩ := Reader.run_bind_eq_ok.mp returns
  obtain ⟨mapValue, _, third, returns⟩ := Reader.run_bind_eq_ok.mp returns
  obtain ⟨vOrderForm, _, fourth, returns⟩ := Reader.run_bind_eq_ok.mp returns
  obtain ⟨received, _, _, returns⟩ := Reader.run_bind_eq_ok.mp returns
  obtain ⟨nTimeReceived, _, _, returns⟩ := Reader.run_bind_eq_ok.mp returns
  obtain ⟨fFromMe, _, _, returns⟩ := Reader.run_bind_eq_ok.mp returns
  obtain ⟨fSpent, _, _, returns⟩ := Reader.run_bind_eq_ok.mp returns
  obtain ⟨same, _⟩ := Reader.run_pure_eq_ok.mp returns
  have sameTx := congrArg WalletTxRecord.toCWalletTx same
  have sameForm := congrArg WalletTxRecord.vOrderForm same
  simp only [unverified] at sameTx sameForm
  subst sameTx sameForm
  obtain ⟨split, tx, few, -, -⟩ := inverse_unserializeMerkleTx.accepts _ _ _ first
  have behind := List.append_cancel_left split
  rw [← behind, reads_unused hash sizes] at second
  cases second
  have fits := unserializeMap_back third
  rw [reads_unserializeMap fits] at third
  cases third
  obtain ⟨-, count, pairs⟩ := (inverse_unserializeVector sizes.sizeofStringPair
    inverse_unserializePair).accepts _ _ _ fourth
  exact ⟨tx, few, fits, count, pairs⟩

/-- A wallet transaction is read back as it was, and writing leaves it, if and only if its strings
and vectors can be stored. -/
theorem readBack_iff_storable (creatable : wtx.Creatable) :
    ((unserialize hash sizes).run wtx.serialize.1 = .ok (wtx.unverified, []) ∧
      wtx.serialize.2 = wtx) ↔ wtx.Storable hash := by
  constructor
  · intro back
    exact storable_of_unserialize back.1
  · intro storable
    apply And.intro (unserialize_of_storable creatable storable)
    simp only [serialize, eraseReserved_writtenMap creatable.mapValue]

end WalletTxRecord

/-- Accounting entries and wallet transactions are read back as they were, and left as they were,
if and only if the reader takes their strings, maps and vectors. -/
theorem walletRecords_exact {entry : CAccountingEntry} {wtx : WalletTxRecord}
    (hash : List UInt8 → Uint256) (sizes : WalletObjectSizes) (entryCreatable : entry.Creatable)
    (wtxCreatable : wtx.Creatable) :
    (((∃ back, CAccountingEntry.unserialize.run entry.serialize.1 = .ok (back, []) ∧
          entry.SameFields back) ∧ entry.serialize.2 = entry) ↔ entry.Storable) ∧
      (((WalletTxRecord.unserialize hash sizes).run wtx.serialize.1 = .ok (wtx.unverified, []) ∧
        wtx.serialize.2 = wtx) ↔ wtx.Storable hash) := by
  constructor
  · exact CAccountingEntry.readBack_iff_storable entryCreatable
  · exact WalletTxRecord.readBack_iff_storable wtxCreatable

def transferEntry (strComment : StdString) : CAccountingEntry where
  strAccount := []
  nCreditDebit := -50
  nTime := 1391489000
  strOtherAccount := []
  strComment
  mapValue := ∅
  nOrderPos := 3
  nEntryNo := 1
  ssExtra := []

theorem transferEntry_creatable (strComment : StdString) :
    (transferEntry strComment).Creatable where
  nCreditDebit := (by decide : InInt64 (-50))
  nTime := (by decide : InInt64 1391489000)
  nOrderPos := (by decide : InInt64 3)
  mapValue := Std.ExtTreeMap.getElem?_empty

theorem transferEntry_storable : (transferEntry [65]).Storable where
  strOtherAccount := by decide
  strComment := by decide
  record := by decide

def receivedRecord : WalletTxRecord where
  tx := smallTransaction fun _ => 3
  hashBlock := 9
  vMerkleBranch := [4]
  nIndex := 1
  fMerkleVerified := true
  mapValue := (∅ : StringMap).insert (stdString "comment") (stdString "rent")
  vOrderForm := []
  fTimeReceivedIsTxTime := 0
  nTimeReceived := 1391489000
  nTimeSmart := 1391489000
  fFromMe := 0
  strFromAccount := []
  nOrderPos := 4

theorem receivedRecord_creatable : receivedRecord.Creatable := by
  refine ⟨by decide, by decide, ?_⟩
  intro key member
  have apart : key ≠ stdString "comment" := by
    rintro rfl
    exact absurd member (by decide)
  change ((∅ : StringMap).insert (stdString "comment") (stdString "rent"))[key]? = none
  rw [KeyedBatch.getElem?_insert_eq, if_neg apart, Std.ExtTreeMap.getElem?_empty]

theorem sizeofUint256_positive : 0 < 32 := by decide

theorem sizeofUint256_small : 32 ≤ 5000000 := by decide

def walletObjectSizes64 : WalletObjectSizes where
  toObjectSizes := objectSizes64
  sizeofUint256 := ⟨32, sizeofUint256_positive, sizeofUint256_small⟩
  sizeofCMerkleTx := ⟨168, by decide, by decide⟩
  sizeofStringPair := ⟨64, by decide, by decide⟩

theorem receivedRecord_storable : receivedRecord.Storable fun _ => 3 where
  tx := by
    refine ⟨rfl, ⟨by decide, by decide⟩, by decide, ?_, by decide, ?_⟩
    · intro txin member
      rw [List.mem_singleton.mp member]
      exact (by decide : 1 ≤ MAX_SIZE)
    · intro txout member
      rw [List.mem_singleton.mp member]
      exact ⟨by decide, by decide⟩
  vMerkleBranch := by decide
  writtenMap := mapWithinMaxSize_of_length (by decide)
  vOrderForm := by decide
  pairs := fun _ member => by cases member

theorem walletRecords_exact_small :
    ((∃ back, CAccountingEntry.unserialize.run (transferEntry [65]).serialize.1 = .ok (back, []) ∧
        (transferEntry [65]).SameFields back) ∧
      (transferEntry [65]).serialize.2 = transferEntry [65]) ∧
    (WalletTxRecord.unserialize (fun _ => 3) walletObjectSizes64).run receivedRecord.serialize.1 =
        .ok (receivedRecord.unverified, []) ∧
      receivedRecord.serialize.2 = receivedRecord := by
  have exact := walletRecords_exact (fun _ => 3) walletObjectSizes64
    (transferEntry_creatable [65]) receivedRecord_creatable
  exact ⟨exact.1.2 transferEntry_storable, exact.2.2 receivedRecord_storable⟩

/-- The part of a comment behind a zero byte is read as a map, and cut off in memory. -/
theorem zeroByte_not_readBack :
    (transferEntry [65, 0, 66]).Creatable ∧
      (transferEntry [65, 0, 66]).serialize.2.strComment = [65] ∧
      ¬ ∃ back, CAccountingEntry.unserialize.run (transferEntry [65, 0, 66]).serialize.1 =
          .ok (back, []) ∧ (transferEntry [65, 0, 66]).SameFields back := by
  refine ⟨transferEntry_creatable _, ?_, ?_⟩
  · simp only [CAccountingEntry.serialize, CAccountingEntry.beforeZero_append_appended]
    rfl
  · rintro ⟨back, returns, same⟩
    have storable :=
      CAccountingEntry.storable_of_unserialize (transferEntry_creatable _) returns same
    exact storable.strComment (by simp [transferEntry])

end Lycancoin
