import Lycancoin.Chain.BlockFiles
import Lycancoin.Coins.UndoRecord
import Lycancoin.Data.RingBuffer
import Lycancoin.Validation.Conservation

namespace Lycancoin

open Lycancoin.Data

/-- What the bytes of an undo file depend on; `hash` is that of `CHashWriter`. -/
structure UndoFormat where
  network : Network
  keys : PubKeys
  sizes : UndoSizes
  hash : List UInt8 → Uint256

namespace UndoFormat

def hashChecksum (format : UndoFormat) (hashBlock : Uint256) (blockundo : CBlockUndo) : Uint256 :=
  format.hash (hashBlock.serialize ++ CBlockUndo.serialize format.keys blockundo)

/-- The index header in front of a record. -/
def header (format : UndoFormat) (blockundo : CBlockUndo) : List UInt8 :=
  format.network.pchMessageStart ++
    serializeUInt32 (CBlockUndo.getSerializeSize format.keys blockundo)

/-- `UndoWriteToDisk`, in a file that can be opened: the position behind the
header, and the file. -/
def undoWriteToDisk (format : UndoFormat) (blockundo : CBlockUndo) (pos : CDiskBlockPos)
    (hashBlock : Uint256) (fileout : List UInt8) : CDiskBlockPos × List UInt8 :=
  let fileOutPos := pos.nPos.toNat + (format.header blockundo).length
  ({ pos with nPos := UInt32.ofNat fileOutPos },
    overwrite 0 fileout pos.nPos.toNat
      (format.header blockundo ++ CBlockUndo.serialize format.keys blockundo ++
        (format.hashChecksum hashBlock blockundo).serialize))

def unserializeRecord (format : UndoFormat) : ByteReader (CBlockUndo × Uint256) := do
  let blockundo ← CBlockUndo.unserialize format.sizes format.keys
  let hashChecksum ← Uint256.unserialize
  pure (blockundo, hashChecksum)

def undoReadFromDisk (format : UndoFormat) (pos : CDiskBlockPos) (hashBlock : Uint256)
    (filein : List UInt8) : Except String CBlockUndo :=
  match format.unserializeRecord.run (filein.drop pos.nPos.toNat) with
  | .error failure => .error ("UndoReadFromDisk : Deserialize or I/O error - " ++ failure.what)
  | .ok ((blockundo, hashChecksum), _) =>
      if hashChecksum ≠ format.hashChecksum hashBlock blockundo then
        .error "UndoReadFromDisk : Checksum mismatch"
      else .ok blockundo

/-- The part of `ConnectBlock` that stores the undo data of an entry that has
none: the new `nUndoPos` and the undo file.  `fileout` is the file after it was
allocated, and nothing is stored where the disk is full. -/
def storeUndo (format : UndoFormat) (disk : BlockFiles.Disk) (blockundo : CBlockUndo) (nFile : Nat)
    (hashBlock : Uint256) (files : BlockFiles) (fileout : List UInt8) :
    Option (BlockFiles × Option (UInt32 × List UInt8)) := do
  let (files, pos) ←
    files.findUndoPos disk nFile (CBlockUndo.getSerializeSize format.keys blockundo + 40)
  pure (files, pos.map fun pos =>
    let (pos, fileout) := format.undoWriteToDisk blockundo pos hashBlock fileout
    (pos.nPos, fileout))

end UndoFormat

section Storable

/-- What undo data needs of the coins in a view. -/
structure CCoins.Storable (coins : CCoins) : Prop where
  nHeight : 0 < coins.nHeight ∧ coins.nHeight < 2 ^ 30
  nVersion : 0 ≤ coins.nVersion ∧ coins.nVersion < 2 ^ 31
  outputs : ∀ txout ∈ coins.vout, txout.isNull = false → txout.Compressible

def UtxoView.Storable (view : UtxoView) : Prop :=
  ∀ txid coins, view.coins txid = some coins → coins.Storable

structure CTransaction.Storable (tx : CTransaction) : Prop where
  nVersion : 0 ≤ tx.nVersion ∧ tx.nVersion < 2 ^ 31
  vin : tx.vin.length ≤ MAX_SIZE
  vout : ∀ txout ∈ tx.vout, txout.Compressible

variable {coins : CCoins} {tx : CTransaction} {view after : UtxoView} {n : Nat}
  {prevout : COutPoint} {undo : CTxInUndo} {nHeight : Int}

theorem CCoins.Storable.of_vout {vout : List CTxOut} (storable : coins.Storable)
    (kept : ∀ txout ∈ vout, txout.isNull = false → txout ∈ coins.vout) :
    ({ coins with vout } : CCoins).Storable :=
  ⟨storable.nHeight, storable.nVersion,
    fun txout member notNull => storable.outputs txout (kept txout member notNull) notNull⟩

theorem CCoins.Storable.cleanup (storable : coins.Storable) : coins.cleanup.Storable :=
  storable.of_vout fun _ member _ => (List.rdropWhile_prefix CTxOut.isNull _).subset member

theorem CCoins.Storable.spend (storable : coins.Storable) : (coins.spend n).2.Storable := by
  rw [CCoins.spend]
  split
  · apply CCoins.Storable.cleanup
    apply storable.of_vout
    intro txout member notNull
    rcases List.mem_or_eq_of_mem_set member with old | rfl
    · exact old
    · contradiction
  · exact storable

theorem CTransaction.Storable.fromTx (storable : tx.Storable)
    (height : 0 < nHeight ∧ nHeight < 2 ^ 30) : (CCoins.fromTx tx nHeight).Storable := by
  apply CCoins.Storable.cleanup
  refine ⟨height, storable.nVersion, fun txout member notNull => ?_⟩
  obtain ⟨original, listed, rfl⟩ := List.mem_map.mp member
  split at notNull
  · contradiction
  · rename_i spendable
    rw [if_neg spendable]
    exact storable.vout original listed

theorem CCoins.Storable.of_live {entry : CCoins} (storable : coins.Storable)
    (kept : coins.live = some entry) : entry.Storable := by
  rw [CCoins.live] at kept
  split at kept
  · contradiction
  · cases kept
    exact storable

namespace UtxoView

theorem Storable.update {txid : Uint256} {entry : CCoins} (storable : view.Storable)
    (kept : entry.Storable) :
    ({ view with coins := Function.update view.coins txid entry.live } : UtxoView).Storable := by
  intro other found present
  dsimp only at present
  rw [Function.update_apply] at present
  split at present
  · exact kept.of_live present
  · exact storable other found present

theorem Storable.addOutputs (storable : view.Storable) (fits : tx.Storable)
    (height : 0 < nHeight ∧ nHeight < 2 ^ 30) : (view.addOutputs tx nHeight).Storable := by
  have updated := @Storable.update view tx.hash _ storable (fits.fromTx height)
  intro txid coins found
  rw [coins_addOutputs] at found
  exact updated txid coins found

/-- An input that is spent is recorded so that it can be read back. -/
theorem Storable.spendInput (storable : view.Storable)
    (spent : view.spendInput prevout = .ok (after, undo)) : after.Storable ∧ undo.Recordable := by
  obtain ⟨coins, txout, found, available, rfl, rfl⟩ := spendInput_spec spent
  have before := storable _ _ found
  have left : (coins.spend prevout.n.toNat).2.Storable := before.spend
  obtain ⟨stored, notNull⟩ := CCoins.output_eq_some available
  have fits := before.outputs txout (List.mem_of_getElem? stored) notNull
  refine ⟨storable.update left, ?_⟩
  split
  · refine ⟨fits, ?_, before.nVersion, fun isZero => ?_⟩
    · exact ⟨before.nHeight.1.le, before.nHeight.2⟩
    · exact absurd isZero before.nHeight.1.ne'
  · exact ⟨fits, ⟨le_rfl, by norm_num⟩, ⟨le_rfl, by norm_num⟩, fun _ => ⟨rfl, rfl⟩⟩

theorem Storable.spendInputs {vin : List CTxIn} {undos : CTxUndo} (storable : view.Storable)
    (spent : view.spendInputs vin = .ok (after, undos)) :
    after.Storable ∧ undos.length = vin.length ∧ ∀ undo ∈ undos, undo.Recordable := by
  induction vin generalizing view undos with
  | nil =>
      cases spent
      exact ⟨storable, rfl, fun undo member => absurd member List.not_mem_nil⟩
  | cons txin rest ih =>
      obtain ⟨next, undo, restUndos, first, others, rfl⟩ := spendInputs_cons spent
      obtain ⟨nextStorable, recordable⟩ := storable.spendInput first
      obtain ⟨afterStorable, length, allRecordable⟩ := ih nextStorable others
      refine ⟨afterStorable, ?_, List.forall_mem_cons.mpr ⟨recordable, allRecordable⟩⟩
      rw [List.length_cons, List.length_cons, length]

theorem Storable.updateCoins {txundo : CTxUndo} (storable : view.Storable) (fits : tx.Storable)
    (height : 0 < nHeight ∧ nHeight < 2 ^ 30)
    (updated : view.updateCoins tx nHeight = .ok (after, txundo)) :
    after.Storable ∧ txundo.length ≤ MAX_SIZE ∧ ∀ undo ∈ txundo, undo.Recordable := by
  cases isCoinBase : tx.isCoinBase with
  | true =>
      rw [UtxoView.updateCoins, isCoinBase] at updated
      cases updated
      exact ⟨storable.addOutputs fits height, Nat.zero_le _,
        fun undo member => absurd member List.not_mem_nil⟩
  | false =>
      obtain ⟨spent, spentInputs, rfl⟩ := updateCoins_of_not_coinBase isCoinBase updated
      obtain ⟨spentStorable, length, recordable⟩ := storable.spendInputs spentInputs
      refine ⟨spentStorable.addOutputs fits height, ?_, recordable⟩
      rw [length]
      exact fits.vin

end UtxoView

/-- The loop of `ConnectBlock` keeps the view storable, and it makes undo data
that can be read back. -/
theorem UtxoView.Storable.connectTransactions {rules : ConnectRules} {first : Bool} {nFees : Int}
    {nSigOps : Nat} {txs : List CTransaction} {connected : Connected} (storable : view.Storable)
    (fits : ∀ tx ∈ txs, tx.Storable)
    (height : 0 < (rules.nHeight : Int) ∧ (rules.nHeight : Int) < 2 ^ 30)
    (ran : Lycancoin.connectTransactions rules first view nFees nSigOps txs = .ok connected) :
    connected.view.Storable ∧ connected.vtxundo.length ≤ txs.length ∧
      ∀ txundo ∈ connected.vtxundo, txundo.length ≤ MAX_SIZE ∧ ∀ undo ∈ txundo, undo.Recordable := by
  induction txs generalizing first view nFees nSigOps connected with
  | nil =>
      cases ran
      exact ⟨storable, le_rfl, fun txundo member => absurd member List.not_mem_nil⟩
  | cons tx rest ih =>
      obtain ⟨_, _, next, txundo, others, _, updated, restRan, rfl⟩ := connectTransactions_cons ran
      obtain ⟨fitsFirst, fitsRest⟩ := List.forall_mem_cons.mp fits
      obtain ⟨nextStorable, few, recordable⟩ := storable.updateCoins fitsFirst height updated
      obtain ⟨afterStorable, length, allRecordable⟩ := ih nextStorable fitsRest restRan
      refine ⟨afterStorable, ?_, ?_⟩
      · cases first with
        | true => exact length.trans (Nat.le_succ _)
        | false => exact Nat.succ_le_succ length
      · cases first with
        | true => exact allRecordable
        | false => exact List.forall_mem_cons.mpr ⟨⟨few, recordable⟩, allRecordable⟩

theorem checkBlock_sizes {env : Environment} {nAdjustedTime : Int} {block : CBlock}
    (passed : checkBlock env nAdjustedTime block true true = .ok ()) :
    block.vtx.length ≤ MAX_BLOCK_SIZE ∧ ∀ tx ∈ block.vtx, tx.getSerializeSize ≤ MAX_BLOCK_SIZE := by
  obtain ⟨_, passed⟩ := check_seq_eq_ok.mp passed
  obtain ⟨_, passed⟩ := check_seq_eq_ok.mp passed
  obtain ⟨sizes, _⟩ := check_seq_eq_ok.mp passed
  rw [rejectIf_eq_ok, Bool.or_eq_false_iff, Bool.or_eq_false_iff, decide_eq_false_iff_not,
    decide_eq_false_iff_not] at sizes
  obtain ⟨⟨_, few⟩, small⟩ := sizes
  refine ⟨by omega, fun tx member => ?_⟩
  have inside : tx.getSerializeSize ≤ (block.vtx.map CTransaction.getSerializeSize).sum :=
    List.single_le_sum (fun _ _ => Nat.zero_le _) _ (List.mem_map_of_mem member)
  rw [CBlock.getSerializeSize] at small
  omega

theorem CTransaction.storable_of_size (version : 0 ≤ tx.nVersion ∧ tx.nVersion < 2 ^ 31)
    (checked : TransactionSound tx) (size : tx.getSerializeSize ≤ MAX_BLOCK_SIZE) :
    tx.Storable := by
  have limit : MAX_BLOCK_SIZE = 1000000 := rfl
  rw [CTransaction.getSerializeSize] at size
  refine ⟨version, ?_, fun txout member => ⟨?_, ?_⟩⟩
  · have inputs : tx.vin.length ≤ (tx.vin.map CTxIn.getSerializeSize).sum := by
      have each : ∀ nSize ∈ tx.vin.map CTxIn.getSerializeSize, 1 ≤ nSize := by
        intro nSize member
        obtain ⟨txin, _, rfl⟩ := List.mem_map.mp member
        rw [CTxIn.getSerializeSize]
        omega
      have counted := List.length_le_sum_of_one_le _ each
      rwa [List.length_map] at counted
    rw [MAX_SIZE]
    omega
  · exact moneyRange_iff.mpr (checked.values txout member)
  · have inside : txout.getSerializeSize ≤ (tx.vout.map CTxOut.getSerializeSize).sum :=
      List.single_le_sum (fun _ _ => Nat.zero_le _) _ (List.mem_map_of_mem member)
    rw [CTxOut.getSerializeSize, CScript.getSerializeSize] at inside
    rw [CScriptCompressor.nSpecialScripts]
    omega

variable {env : Environment} {scripts : ScriptInterpreter} {index : BlockMap}

theorem UtxoView.Storable.connectBlock {nAdjustedTime : Int} {block : CBlock} {hash : Uint256}
    {vtxundo : Option CBlockUndo} (indexed : PredecessorsIndexed index)
    (low : ∀ (hash : Uint256) (pindex : CBlockIndex), index[hash]? = some pindex →
      pindex.nHeight < 2 ^ 30)
    (storable : view.Storable)
    (versions : ∀ tx ∈ block.vtx, 0 ≤ tx.nVersion ∧ tx.nVersion < 2 ^ 31)
    (passed : Lycancoin.connectBlock env scripts index nAdjustedTime block hash view =
      .ok (after, vtxundo)) :
    after.Storable ∧ ∀ blockundo ∈ vtxundo, CBlockUndo.Recordable blockundo := by
  obtain ⟨checked, pindex, found, _, ⟨_, rfl, rfl⟩ |
    ⟨prev, pindexPrev, connected, pprevEq, _, ran, _, rfl, rfl⟩⟩ := connectBlock_spec passed
  · exact ⟨storable, fun blockundo member => by contradiction⟩
  · obtain ⟨few, sizes⟩ := checkBlock_sizes checked
    have sound := (checkBlock_spec checked).transactions
    have fits : ∀ tx ∈ block.vtx, tx.Storable := fun tx member =>
      CTransaction.storable_of_size (versions tx member) (sound tx member) (sizes tx member)
    have above : 0 < pindex.nHeight := indexed.height_pos found pprevEq
    have below := low hash pindex found
    obtain ⟨kept, length, recordable⟩ := storable.connectTransactions fits
      ⟨Int.natCast_pos.mpr above, by exact_mod_cast below⟩ ran
    refine ⟨kept, fun blockundo member => ?_⟩
    obtain rfl := Option.some.inj member
    refine ⟨?_, fun txundo inside => (recordable txundo inside).1,
      fun txundo inside => (recordable txundo inside).2⟩
    rw [MAX_SIZE]
    rw [MAX_BLOCK_SIZE] at few
    omega

theorem UtxoView.Storable.connectChain {calls : List ConnectCall}
    (indexed : PredecessorsIndexed index)
    (low : ∀ (hash : Uint256) (pindex : CBlockIndex), index[hash]? = some pindex →
      pindex.nHeight < 2 ^ 30)
    (storable : view.Storable)
    (versions : ∀ call ∈ calls, ∀ tx ∈ call.block.vtx, 0 ≤ tx.nVersion ∧ tx.nVersion < 2 ^ 31)
    (passed : Lycancoin.connectChain env scripts index view calls = .ok after) :
    after.Storable := by
  induction calls generalizing view with
  | nil =>
      cases passed
      exact storable
  | cons call rest ih =>
      obtain ⟨next, first, others⟩ := check_bind_eq_ok.mp passed
      obtain ⟨ownVersions, restVersions⟩ := List.forall_mem_cons.mp versions
      apply ih _ restVersions others
      rw [connectTip] at first
      split at first
      · contradiction
      · split at first
        · contradiction
        · obtain ⟨⟨made, vtxundo⟩, connected, finished⟩ := check_bind_eq_ok.mp first
          cases finished
          exact (storable.connectBlock indexed low ownVersions connected).1

end Storable

namespace UndoFormat

/-- What is promised of undo data that `storeUndo` has put into a file: it is
recovered from its bytes, the room taken for it is what it needs, and it is
found again under the position that the entry records. -/
structure Kept (format : UndoFormat) (blockundo : CBlockUndo) (hashBlock : Uint256)
    (file stored : CBlockFileInfo) (nUndoPos : UInt32) (before after : List UInt8) : Prop where
  recovered : ∀ trailing, (CBlockUndo.unserialize format.sizes format.keys).run
    (CBlockUndo.serialize format.keys blockundo ++ trailing) = .ok (blockundo, trailing)
  size : (CBlockUndo.getSerializeSize format.keys blockundo).toNat =
    (CBlockUndo.serialize format.keys blockundo).length
  reserved : stored.nUndoSize.toNat =
    file.nUndoSize.toNat + (CBlockUndo.getSerializeSize format.keys blockundo).toNat + 40
  region : (after.drop file.nUndoSize.toNat).take
      ((CBlockUndo.getSerializeSize format.keys blockundo).toNat + 40) =
    format.network.pchMessageStart ++
      serializeUInt32 (CBlockUndo.getSerializeSize format.keys blockundo) ++
      CBlockUndo.serialize format.keys blockundo ++
      (format.hashChecksum hashBlock blockundo).serialize
  outside : ∀ i, i < file.nUndoSize.toNat ∨ stored.nUndoSize.toNat ≤ i → i < before.length →
    after[i]? = before[i]?
  returned : ∀ nFile, format.undoReadFromDisk ⟨nFile, nUndoPos⟩ hashBlock after = .ok blockundo

variable {format : UndoFormat} {blockundo : CBlockUndo} {hashBlock : Uint256}

@[simp] theorem length_pchMessageStart (network : Network) :
    network.pchMessageStart.length = 4 := by
  cases network <;> rfl

theorem length_header : (format.header blockundo).length = 8 := by
  simp [header, serializeUInt32]

@[simp] theorem length_serializeUint256 (blob : Uint256) : blob.serialize.length = 32 := by
  rw [Uint256.serialize_eq, length_serWriteData]

theorem undoReadFromDisk_of_drop {pos : CDiskBlockPos} {filein trailing : List UInt8}
    (recover : format.keys.Recover) (fits : CBlockUndo.Recordable blockundo)
    (found : filein.drop pos.nPos.toNat = CBlockUndo.serialize format.keys blockundo ++
      (format.hashChecksum hashBlock blockundo).serialize ++ trailing) :
    format.undoReadFromDisk pos hashBlock filein = .ok blockundo := by
  have record := reads_blockUndo format.sizes recover fits
  have checksum := inverse_unserializeUint256.reads
    (format.hashChecksum hashBlock blockundo) trivial
  have both : Reads format.unserializeRecord (CBlockUndo.serialize format.keys blockundo ++
      (format.hashChecksum hashBlock blockundo).serialize)
      (blockundo, format.hashChecksum hashBlock blockundo) := record.bind checksum.bind_pure
  simp only [undoReadFromDisk, found, both trailing, ne_eq, not_true_eq_false, if_false]

theorem storeUndo_spec {disk : BlockFiles.Disk} {nFile : Nat} {files after : BlockFiles}
    {file : CBlockFileInfo} {fileout written : List UInt8} {nUndoPos : UInt32}
    (found : files.vinfoBlockFile[nFile]? = some file)
    (stored : format.storeUndo disk blockundo nFile hashBlock files fileout =
      some (after, some (nUndoPos, written))) :
    after.vinfoBlockFile[nFile]? = some { file with
      nUndoSize := file.nUndoSize +
        (CBlockUndo.getSerializeSize format.keys blockundo + 40) } ∧
    nUndoPos = UInt32.ofNat (file.nUndoSize.toNat + 8) ∧
    written = overwrite 0 fileout file.nUndoSize.toNat
      (format.header blockundo ++ CBlockUndo.serialize format.keys blockundo ++
        (format.hashChecksum hashBlock blockundo).serialize) := by
  obtain ⟨⟨next, pos⟩, took, stored⟩ := Option.bind_eq_some_iff.mp stored
  rw [BlockFiles.findUndoPos, found, Option.bind_eq_bind, Option.bind_some] at took
  obtain ⟨changed, position⟩ := @BlockFiles.takeUndoPos_spec files disk
    (CBlockUndo.getSerializeSize format.keys blockundo + 40) nFile file
  rw [Option.some.inj took] at changed position
  obtain ⟨sameFiles, sameWrite⟩ := Prod.mk.inj (Option.some.inj stored)
  obtain ⟨place, isPlace, isWritten⟩ := Option.map_eq_some_iff.mp sameWrite
  obtain rfl := position place isPlace
  obtain ⟨isPos, isFile⟩ := Prod.mk.inj isWritten
  subst sameFiles
  refine ⟨?_, ?_, isFile.symm⟩
  · have inside := (List.getElem?_eq_some_iff.mp found).1
    rw [changed, List.getElem?_set_self inside]
  · rw [← isPos]
    simp only [length_header]

end UndoFormat

/-- The undo data of every block that `ConnectBlock` connects is kept if and only
if the undo file stays below 4 GiB. -/
theorem undoData_kept_iff (format : UndoFormat) (recover : format.keys.Recover)
    (env : Environment) (scripts : ScriptInterpreter) (headers : List HeaderCall)
    (calls : List ConnectCall) (view after : UtxoView) (call : ConnectCall)
    (blockundo : CBlockUndo)
    (low : ∀ (hash : Uint256) (pindex : CBlockIndex),
      (HeaderIndex.run env headers).mapBlockIndex[hash]? = some pindex → pindex.nHeight < 2 ^ 30)
    (versions : ∀ call' ∈ call :: calls, ∀ tx ∈ call'.block.vtx,
      0 ≤ tx.nVersion ∧ tx.nVersion < 2 ^ 31)
    (chain : connectChain env scripts (HeaderIndex.run env headers).mapBlockIndex
      (UtxoView.genesis env) calls = .ok view)
    (connected : connectBlock env scripts (HeaderIndex.run env headers).mapBlockIndex
      call.nAdjustedTime call.block call.hash view = .ok (after, some blockundo))
    (disk : BlockFiles.Disk) (nFile : Nat) (hashBlock : Uint256) (files next : BlockFiles)
    (file stored : CBlockFileInfo) (fileout written : List UInt8) (nUndoPos : UInt32)
    (found : files.vinfoBlockFile[nFile]? = some file)
    (kept : format.storeUndo disk blockundo nFile hashBlock files fileout =
      some (next, some (nUndoPos, written)))
    (changed : next.vinfoBlockFile[nFile]? = some stored) :
    format.Kept blockundo hashBlock file stored nUndoPos fileout written ↔
      file.nUndoSize.toNat + CBlockUndo.recordSize format.keys blockundo + 40 < 2 ^ 32 := by
  obtain ⟨isStored, isPos, isWritten⟩ := UndoFormat.storeUndo_spec found kept
  obtain rfl := Option.some.inj (changed.symm.trans isStored)
  have total := @CBlockUndo.length_serialize format.keys blockundo
  have counted := @CBlockUndo.toNat_getSerializeSize format.keys blockundo
  constructor
  · intro kept
    have size := kept.size
    have reserved := kept.reserved
    have bound := UInt32.toNat_lt (file.nUndoSize +
      (CBlockUndo.getSerializeSize format.keys blockundo + 40))
    rw [reserved] at bound
    omega
  · intro room
    have indexed := (indexSound_run env headers).1.indexed
    obtain ⟨ownVersions, otherVersions⟩ := List.forall_mem_cons.mp versions
    have genesis : (UtxoView.genesis env).Storable := fun txid coins found => by contradiction
    have storable := genesis.connectChain indexed low otherVersions chain
    have fits : CBlockUndo.Recordable blockundo :=
      (storable.connectBlock indexed low ownVersions connected).2 blockundo rfl
    have size : (CBlockUndo.getSerializeSize format.keys blockundo).toNat =
        CBlockUndo.recordSize format.keys blockundo := by
      rw [counted, Nat.mod_eq_of_lt (by omega)]
    have reserved : (file.nUndoSize +
        (CBlockUndo.getSerializeSize format.keys blockundo + 40)).toNat =
        file.nUndoSize.toNat + CBlockUndo.recordSize format.keys blockundo + 40 := by
      have forty : (40 : UInt32).toNat = 40 := rfl
      rw [UInt32.toNat_add, UInt32.toNat_add, size, forty]
      omega
    have whole : (format.header blockundo ++ CBlockUndo.serialize format.keys blockundo ++
        (format.hashChecksum hashBlock blockundo).serialize).length =
        CBlockUndo.recordSize format.keys blockundo + 40 := by
      rw [List.length_append, List.length_append, UndoFormat.length_header, total,
        UndoFormat.length_serializeUint256]
      omega
    refine ⟨reads_blockUndo format.sizes recover fits, by rw [size, total], ?_, ?_, ?_, ?_⟩
    · rw [reserved, size]
    · rw [size, ← whole, isWritten]
      exact take_drop_overwrite _ _ _ _
    · intro i outside inside
      rw [isWritten]
      apply getElem?_overwrite_outside _ inside
      rw [whole]
      rw [reserved] at outside
      omega
    · intro nFile
      have position : nUndoPos.toNat = file.nUndoSize.toNat + 8 := by
        rw [isPos, UInt32.toNat_ofNat', Nat.mod_eq_of_lt (by omega)]
      apply UndoFormat.undoReadFromDisk_of_drop recover fits
      rw [position, ← List.drop_drop, isWritten, drop_overwrite, List.append_assoc,
        List.append_assoc, List.append_assoc,
        List.drop_left' UndoFormat.length_header, ← List.append_assoc]

section Samples

def sampleFormat : UndoFormat where
  network := .main
  keys := generatorKeys
  sizes := ⟨⟨56, by decide, by decide⟩, ⟨24, by decide, by decide⟩⟩
  hash bytes := ⟨BitVec.ofNat 256 bytes.length⟩

def fileWithUndo (nUndoSize : UInt32) : CBlockFileInfo := { CBlockFileInfo.null with nUndoSize }

def filesWithUndo (nUndoSize : UInt32) : BlockFiles where
  vinfoBlockFile := [fileWithUndo nUndoSize]
  nLastBlockFile := 0
  fCheckForPruning := false
  setDirtyFileInfo := []

def roomyDisk : BlockFiles.Disk where
  fPruneMode := false
  checkDiskSpace _ := true

theorem preallocate_roomyDisk (chunk nPos nNewSize : UInt32) (files : BlockFiles) :
    (BlockFiles.preallocate roomyDisk chunk nPos nNewSize files).2 = true := by
  rw [BlockFiles.preallocate]
  split
  · rfl
  · rfl

theorem storeUndo_roomyDisk (format : UndoFormat) (blockundo : CBlockUndo) (hashBlock : Uint256)
    (nUndoSize : UInt32) (fileout : List UInt8) :
    ∃ next nUndoPos written stored,
      format.storeUndo roomyDisk blockundo 0 hashBlock (filesWithUndo nUndoSize) fileout =
        some (next, some (nUndoPos, written)) ∧ next.vinfoBlockFile[0]? = some stored := by
  have placed : ∀ nAddSize, (BlockFiles.takeUndoPos roomyDisk 0 nAddSize (fileWithUndo nUndoSize)
      (filesWithUndo nUndoSize)).2 = some ⟨0, nUndoSize⟩ := by
    intro nAddSize
    rw [BlockFiles.takeUndoPos]
    simp only [preallocate_roomyDisk, if_true]
    rfl
  have took : (filesWithUndo nUndoSize).findUndoPos roomyDisk 0
      (CBlockUndo.getSerializeSize format.keys blockundo + 40) =
        some (BlockFiles.takeUndoPos roomyDisk 0
          (CBlockUndo.getSerializeSize format.keys blockundo + 40)
          (fileWithUndo nUndoSize) (filesWithUndo nUndoSize)) := rfl
  have changed := (@BlockFiles.takeUndoPos_spec (filesWithUndo nUndoSize) roomyDisk
    (CBlockUndo.getSerializeSize format.keys blockundo + 40) 0 (fileWithUndo nUndoSize)).1
  specialize placed (CBlockUndo.getSerializeSize format.keys blockundo + 40)
  generalize BlockFiles.takeUndoPos roomyDisk 0 _ _ _ = taken at placed took changed
  obtain ⟨next, place⟩ := taken
  dsimp only at placed changed
  subst placed
  have stores : format.storeUndo roomyDisk blockundo 0 hashBlock (filesWithUndo nUndoSize)
      fileout = some (next,
        some ((format.undoWriteToDisk blockundo ⟨0, nUndoSize⟩ hashBlock fileout).1.nPos,
          (format.undoWriteToDisk blockundo ⟨0, nUndoSize⟩ hashBlock fileout).2)) := by
    rw [UndoFormat.storeUndo, took]
    rfl
  have stored : ∃ stored, next.vinfoBlockFile[0]? = some stored := by
    rw [changed]
    exact ⟨_, rfl⟩
  obtain ⟨stored, isStored⟩ := stored
  exact ⟨_, _, _, _, stores, isStored⟩

/-- The undo data of `spendingBlock`: an old reward, and an output of the block itself. -/
def spendingUndo : CBlockUndo := [
  [{ txout := { nValue := 297000000000, scriptPubKey := generatorScript }
     fCoinBase := true, nHeight := 1, nVersion := 1 }],
  [{ txout := { nValue := 296999999900, scriptPubKey := [] }
     fCoinBase := false, nHeight := 16, nVersion := 1 }]]

/-- The record of a block that spends nothing. -/
def emptyRecord : List UInt8 :=
  sampleFormat.header [] ++ CBlockUndo.serialize generatorKeys [] ++
    (sampleFormat.hashChecksum 1391485385 []).serialize

theorem connectBlock_spendingBlock : ∃ view after,
    connectChain sampleEnvironment sampleScripts spendingIndex
      (UtxoView.genesis sampleEnvironment) (maturedBlocks.map connectCallOf) = .ok view ∧
    connectBlock sampleEnvironment sampleScripts spendingIndex 1391485371 spendingBlock
      1391485386 view = .ok (after, some spendingUndo) := by
  have succeeds : (connectChain sampleEnvironment sampleScripts spendingIndex
      (UtxoView.genesis sampleEnvironment) (maturedBlocks.map connectCallOf)).toOption.any
        (fun view => (connectBlock sampleEnvironment sampleScripts spendingIndex 1391485371
          spendingBlock 1391485386 view).toOption.any fun result =>
            result.2 == some spendingUndo) = true := by decide +kernel
  obtain ⟨view, chain, connects⟩ := exists_ok_of_any succeeds
  obtain ⟨⟨after, undo⟩, connected, same⟩ := exists_ok_of_any connects
  obtain rfl : undo = some spendingUndo := eq_of_beq same
  exact ⟨view, after, chain, connected⟩

/-- The undo data of a block with spends, behind a record that is there already. -/
theorem undoData_kept_spendingBlock :
    ∃ next nUndoPos written stored,
      sampleFormat.storeUndo roomyDisk spendingUndo 0 1391485386 (filesWithUndo 41) emptyRecord =
        some (next, some (nUndoPos, written)) ∧
      sampleFormat.Kept spendingUndo 1391485386 (fileWithUndo 41) stored nUndoPos emptyRecord
        written := by
  obtain ⟨view, after, chain, connected⟩ := connectBlock_spendingBlock
  obtain ⟨next, nUndoPos, written, stored, kept, changed⟩ :=
    storeUndo_roomyDisk sampleFormat spendingUndo 1391485386 41 emptyRecord
  refine ⟨next, nUndoPos, written, stored, kept, ?_⟩
  have low : ∀ (hash : Uint256) (pindex : CBlockIndex), spendingIndex[hash]? = some pindex →
      pindex.nHeight < 2 ^ 30 := by
    intro hash pindex found
    have within := nHeight_le_spendingIndex hash pindex found
    omega
  apply (undoData_kept_iff sampleFormat generatorKeys_recover sampleEnvironment sampleScripts
    spendingHeaders (maturedBlocks.map connectCallOf) view after (connectCallOf spendingBlock)
    spendingUndo low (by decide) chain connected roomyDisk 0 1391485386 (filesWithUndo 41) next
    (fileWithUndo 41) stored emptyRecord written nUndoPos rfl kept changed).mpr
  decide +kernel

def sampleReward : CBlock :=
  { sampleBlock with hashMerkleRoot := 1, vtx := [sampleCoinbase] }

theorem connectBlock_sampleReward : ∃ after,
    connectBlock sampleEnvironment sampleScripts
      (HeaderIndex.run sampleEnvironment
        [⟨1391485371, sampleReward.toCBlockHeader⟩]).mapBlockIndex
      1391485371 sampleReward 1391485371 (UtxoView.genesis sampleEnvironment) =
        .ok (after, some []) := by
  have succeeds : (connectBlock sampleEnvironment sampleScripts
      (HeaderIndex.run sampleEnvironment
        [⟨1391485371, sampleReward.toCBlockHeader⟩]).mapBlockIndex
      1391485371 sampleReward 1391485371 (UtxoView.genesis sampleEnvironment)).toOption.any
        (fun result => result.2 == some []) = true := by decide
  obtain ⟨⟨after, undo⟩, connected, same⟩ := exists_ok_of_any succeeds
  obtain rfl : undo = some [] := eq_of_beq same
  exact ⟨after, connected⟩

theorem nHeight_lt_sampleReward (hash : Uint256) (pindex : CBlockIndex)
    (found : (HeaderIndex.run sampleEnvironment
      [⟨1391485371, sampleReward.toCBlockHeader⟩]).mapBlockIndex[hash]? = some pindex) :
    pindex.nHeight < 2 ^ 30 := by
  have within := nHeight_le_length_run sampleEnvironment _ found
  rw [List.length_singleton] at within
  omega

/-- Where the undo file is 8 bytes short of 4 GiB, the position of the record
wraps to 0.  What stands there is the start of the first record. -/
theorem undoData_lost : ¬∀ (format : UndoFormat) (env : Environment) (scripts : ScriptInterpreter)
    (headers : List HeaderCall) (calls : List ConnectCall) (view after : UtxoView)
    (call : ConnectCall) (blockundo : CBlockUndo), format.keys.Recover →
    (∀ (hash : Uint256) (pindex : CBlockIndex),
      (HeaderIndex.run env headers).mapBlockIndex[hash]? = some pindex →
        pindex.nHeight < 2 ^ 30) →
    (∀ call' ∈ call :: calls, ∀ tx ∈ call'.block.vtx, 0 ≤ tx.nVersion ∧ tx.nVersion < 2 ^ 31) →
    connectChain env scripts (HeaderIndex.run env headers).mapBlockIndex
      (UtxoView.genesis env) calls = .ok view →
    connectBlock env scripts (HeaderIndex.run env headers).mapBlockIndex
      call.nAdjustedTime call.block call.hash view = .ok (after, some blockundo) →
    ∀ (disk : BlockFiles.Disk) (nFile : Nat) (hashBlock : Uint256) (files next : BlockFiles)
      (file stored : CBlockFileInfo) (fileout written : List UInt8) (nUndoPos : UInt32),
      files.vinfoBlockFile[nFile]? = some file →
      format.storeUndo disk blockundo nFile hashBlock files fileout =
        some (next, some (nUndoPos, written)) →
      next.vinfoBlockFile[nFile]? = some stored →
      format.Kept blockundo hashBlock file stored nUndoPos fileout written := by
  intro always
  obtain ⟨after, connected⟩ := connectBlock_sampleReward
  obtain ⟨next, nUndoPos, written, stored, stores, changed⟩ :=
    storeUndo_roomyDisk sampleFormat [] 0 4294967288 Network.main.pchMessageStart
  have kept := always sampleFormat sampleEnvironment sampleScripts
    [⟨1391485371, sampleReward.toCBlockHeader⟩] [] (UtxoView.genesis sampleEnvironment) after
    ⟨1391485371, sampleReward, 1391485371⟩ [] generatorKeys_recover
    nHeight_lt_sampleReward (by decide)
    rfl connected roomyDisk 0 0 (filesWithUndo 4294967288) next (fileWithUndo 4294967288) stored
    Network.main.pchMessageStart written nUndoPos rfl stores changed
  have present : (filesWithUndo 4294967288).vinfoBlockFile[0]? =
    some (fileWithUndo 4294967288) := rfl
  obtain ⟨_, isPos, isWritten⟩ := UndoFormat.storeUndo_spec present stores
  have position : nUndoPos = 0 := isPos
  have front : ∃ behind, written = writeCompactSize 252 ++ behind := by
    rw [isWritten, overwrite]
    exact ⟨_, rfl⟩
  obtain ⟨behind, isFront⟩ := front
  have returned := kept.returned 0
  rw [UndoFormat.undoReadFromDisk, position] at returned
  split at returned
  · contradiction
  · rename_i record hashChecksum rest reads
    split at returned
    · contradiction
    · cases returned
      obtain ⟨found, middle, first, others⟩ := Reader.run_bind_eq_ok.mp reads
      obtain ⟨_, _, _, finished⟩ := Reader.run_bind_eq_ok.mp others
      cases finished
      change (CBlockUndo.unserialize _ _).run written = _ at first
      rw [isFront] at first
      have length := length_of_unserializeVector (by decide) first
      contradiction

end Samples

end Lycancoin
