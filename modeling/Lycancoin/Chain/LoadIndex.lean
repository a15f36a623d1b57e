import Lycancoin.Chain.DiskIndex
import Lycancoin.Data.KeyedBatch

namespace Lycancoin

open Std Lycancoin.Data

/-! ## One record -/

namespace IndexEntry

/-- The fields are in the ranges of their types, the height and the file are not negative, and what
is not stored is zero. -/
structure Storable (pindex : IndexEntry) : Prop where
  nHeight : 0 ≤ pindex.nHeight ∧ pindex.nHeight < 2 ^ 31
  nFile : 0 ≤ pindex.nFile ∧ pindex.nFile < 2 ^ 31
  nVersion : InInt32 pindex.nVersion
  noFile : ¬ hasFile pindex.nStatus → pindex.nFile = 0
  noData : ¬ hasData pindex.nStatus → pindex.nDataPos = 0
  noUndo : ¬ hasUndo pindex.nStatus → pindex.nUndoPos = 0

def onDisk (pindex : IndexEntry) : DiskIndex :=
  { pindex with pprev := none, hashPrev := pindex.hashPrev }

end IndexEntry

theorem reads_unserializeWhere {present : Prop} [Decidable present] {α : Type} {zero value : α}
    {read : ByteReader α} {tokens : List UInt8} (there : Reads read tokens value)
    (absent : ¬ present → value = zero) :
    Reads (DiskIndex.unserializeWhere present zero read) (if present then tokens else []) value := by
  unfold DiskIndex.unserializeWhere
  by_cases isPresent : present
  · rw [if_pos isPresent, if_pos isPresent]
    exact there
  · rw [if_neg isPresent, if_neg isPresent, absent isPresent]
    exact Reads.pure zero

theorem reads_unserializeVarWord (word : UInt32) :
    Reads DiskIndex.unserializeVarWord (writeVarInt word.toNat) word := by
  have reads : Reads DiskIndex.unserializeVarWord (writeVarInt word.toNat)
      (UInt32.ofNat word.toNat) := (reads_unserializeVarUInt word.toNat_lt).bind_pure
  rwa [UInt32.ofNat_toNat] at reads

theorem reads_diskIndex {pindex : IndexEntry} (storable : pindex.Storable) :
    Reads DiskIndex.unserialize pindex.serialize pindex.onDisk := by
  have version := reads_unserializeVarInt (show (0 : Int) ≤ CLIENT_VERSION by decide) (by decide)
  have nHeight := reads_unserializeVarInt storable.nHeight.1 storable.nHeight.2
  have nStatus := reads_unserializeVarWord pindex.nStatus
  have nTx := reads_unserializeVarWord pindex.nTx
  have nFile := reads_unserializeWhere
    (reads_unserializeVarInt storable.nFile.1 storable.nFile.2) storable.noFile
  have nDataPos := reads_unserializeWhere (reads_unserializeVarWord pindex.nDataPos) storable.noData
  have nUndoPos := reads_unserializeWhere (reads_unserializeVarWord pindex.nUndoPos) storable.noUndo
  have header := inverse_unserializeHeader.reads pindex.header storable.nVersion
  simp only [IndexEntry.serialize, List.append_assoc]
  exact version.bind (nHeight.bind (nStatus.bind (nTx.bind (nFile.bind (nDataPos.bind
    (nUndoPos.bind header.bind_pure))))))

/-! ## The database after the writes -/

theorem serialize_injective {left right : Uint256} (same : left.serialize = right.serialize) :
    left = right := by
  have first := inverse_unserializeUint256.reads left trivial []
  have second := inverse_unserializeUint256.reads right trivial []
  rw [same, second] at first
  cases first
  rfl

def indexKey (hash : Uint256) : List UInt8 := DB_BLOCK_INDEX :: hash.serialize

/-- Under the keys of entries the database has the records of the entries, and no others. -/
structure Mirrors (written : IndexMap) (db : LevelDB) : Prop where
  stored : ∀ hash pindex, written[hash]? = some pindex → db[indexKey hash]? = some pindex.serialize
  others : ∀ key value, db[key]? = some value → key.head? = some DB_BLOCK_INDEX →
    ∃ hash pindex, written[hash]? = some pindex ∧ key = indexKey hash ∧ value = pindex.serialize

variable {written mapBlockIndex : IndexMap} {db : LevelDB}

theorem Mirrors.insert (mirrors : Mirrors written db) (hash : Uint256) (pindex : IndexEntry) :
    Mirrors (written.insert hash pindex) (db.insert (indexKey hash) pindex.serialize) where
  stored other entry found := by
    rw [KeyedBatch.getElem?_insert_eq] at found ⊢
    by_cases here : other = hash
    · rw [if_pos here] at found
      cases found
      rw [if_pos (by rw [here])]
    · have apart : indexKey other ≠ indexKey hash := fun same =>
        here (serialize_injective (List.cons.inj same).2)
      rw [if_neg here] at found
      rw [if_neg apart]
      exact mirrors.stored other entry found
  others key value found tagged := by
    rw [KeyedBatch.getElem?_insert_eq] at found
    by_cases here : key = indexKey hash
    · rw [if_pos here] at found
      cases found
      exact ⟨hash, pindex, by rw [KeyedBatch.getElem?_insert_eq, if_pos rfl], here, rfl⟩
    · rw [if_neg here] at found
      obtain ⟨other, entry, isWritten, isKey, isValue⟩ := mirrors.others key value found tagged
      refine ⟨other, entry, ?_, isKey, isValue⟩
      rw [KeyedBatch.getElem?_insert_eq, if_neg fun same => here (by rw [isKey, same])]
      exact isWritten

/-- A record under another tag. -/
theorem Mirrors.insert_other (mirrors : Mirrors written db) {key : List UInt8}
    (other : key.head? ≠ some DB_BLOCK_INDEX) (value : List UInt8) :
    Mirrors written (db.insert key value) where
  stored hash pindex found := by
    rw [KeyedBatch.getElem?_insert_eq, if_neg fun same => other (by rw [← same]; rfl)]
    exact mirrors.stored hash pindex found
  others place found read tagged := by
    rw [KeyedBatch.getElem?_insert_eq, if_neg fun same => other (by rw [← same, tagged])] at read
    exact mirrors.others place found read tagged

def writeEntries (blocks : List (Uint256 × IndexEntry)) (written : IndexMap) : IndexMap :=
  blocks.foldl (fun written block => written.insert block.1 block.2) written

theorem Mirrors.foldl_others {records : List (List UInt8 × List UInt8)} (mirrors : Mirrors written db)
    (other : ∀ record ∈ records, record.1.head? ≠ some DB_BLOCK_INDEX) :
    Mirrors written (records.foldl (fun db record => db.insert record.1 record.2) db) := by
  induction records generalizing db with
  | nil => exact mirrors
  | cons record rest ih =>
      obtain ⟨first, others⟩ := List.forall_mem_cons.mp other
      exact ih (mirrors.insert_other first record.2) others

theorem Mirrors.foldl_blocks (mirrors : Mirrors written db) (blocks : List (Uint256 × IndexEntry)) :
    Mirrors (writeEntries blocks written)
      ((blocks.map fun block => (DB_BLOCK_INDEX :: block.1.serialize, block.2.serialize)).foldl
        (fun db record => db.insert record.1 record.2) db) := by
  induction blocks generalizing written db with
  | nil => exact mirrors
  | cons block rest ih => exact ih (mirrors.insert block.1 block.2)

theorem Mirrors.writeBatchSync (mirrors : Mirrors written db) (batch : IndexBatch) :
    Mirrors (writeEntries batch.blockinfo written) (batch.writeBatchSync db) := by
  rw [IndexBatch.writeBatchSync, IndexBatch.records, List.foldl_append]
  apply Mirrors.foldl_blocks
  apply mirrors.foldl_others
  intro record member
  cases List.mem_append.mp member with
  | inl file =>
      obtain ⟨file, -, rfl⟩ := List.mem_map.mp file
      change some DB_BLOCK_FILES ≠ some DB_BLOCK_INDEX
      decide
  | inr last =>
      rw [List.mem_singleton.mp last]
      change some DB_LAST_BLOCK ≠ some DB_BLOCK_INDEX
      decide

theorem Mirrors.writeBatches (mirrors : Mirrors written db) (batches : List IndexBatch) :
    Mirrors (writeEntries (batches.flatMap IndexBatch.blockinfo) written)
      (writeBatches batches db) := by
  induction batches generalizing written db with
  | nil => exact mirrors
  | cons batch rest ih =>
      rw [List.flatMap_cons, writeEntries, List.foldl_append]
      exact ih (mirrors.writeBatchSync batch)

def lastWritten (blocks : List (Uint256 × IndexEntry)) (hash : Uint256) : Option IndexEntry :=
  (blocks.reverse.find? fun block => block.1 == hash).map Prod.snd

theorem getElem?_writeEntries (blocks : List (Uint256 × IndexEntry)) (hash : Uint256) :
    (writeEntries blocks ∅)[hash]? = lastWritten blocks hash := by
  unfold writeEntries lastWritten
  induction blocks using List.reverseRecOn with
  | nil => rfl
  | append_singleton blocks block ih =>
      rw [List.foldl_append, List.foldl_cons, List.foldl_nil, KeyedBatch.getElem?_insert_eq, ih,
        List.reverse_append, List.reverse_singleton, List.singleton_append]
      by_cases here : hash = block.1
      · rw [if_pos here, List.find?_cons_of_pos (by simp [here])]
        rfl
      · rw [if_neg here, List.find?_cons_of_neg (by simpa using fun same => here same.symm)]

theorem mem_of_lastWritten {blocks : List (Uint256 × IndexEntry)} {hash : Uint256}
    {pindex : IndexEntry} (last : lastWritten blocks hash = some pindex) : (hash, pindex) ∈ blocks := by
  obtain ⟨block, found, rfl⟩ := Option.map_eq_some_iff.mp last
  have same : block.1 = hash := by simpa using List.find?_some found
  rw [← same]
  exact List.mem_reverse.mp (List.mem_of_find?_eq_some found)

theorem exists_lastWritten {blocks : List (Uint256 × IndexEntry)} {block : Uint256 × IndexEntry}
    (member : block ∈ blocks) : ∃ pindex, lastWritten blocks block.1 = some pindex := by
  have found : (blocks.reverse.find? fun other => other.1 == block.1).isSome = true :=
    List.find?_isSome.mpr ⟨block, List.mem_reverse.mpr member, by simp⟩
  obtain ⟨last, found⟩ := Option.isSome_iff_exists.mp found
  exact ⟨last.2, by rw [lastWritten, found]; rfl⟩

/-! ## Loading -/

variable {params : Consensus.Params} {hashes : Digests}

structure Writable (params : Consensus.Params) (hashes : Digests) (block : Uint256 × IndexEntry) :
    Prop extends block.2.Storable where
  hash : hashes.getHash block.2.header = block.1
  notNull : block.1 ≠ Uint256.null
  target : TargetInRange params block.2.nBits

/-- The map while it is loaded: the entries whose records are done, and empty entries for
predecessors of these. -/
structure Loading (written mapBlockIndex : IndexMap) (done : Set Uint256) : Prop where
  loaded : ∀ hash ∈ done, ∃ pindex,
    written[hash]? = some pindex ∧ mapBlockIndex[hash]? = some pindex
  others : ∀ hash, hash ∉ done → mapBlockIndex[hash]? = none ∨
    mapBlockIndex[hash]? = some IndexEntry.null ∧ ∃ pindex, written[hash]? = some pindex

theorem insertBlockIndex_null : insertBlockIndex Uint256.null mapBlockIndex = (none, mapBlockIndex) :=
  rfl

theorem insertBlockIndex_of_ne {hash : Uint256} (notNull : hash ≠ Uint256.null) :
    (insertBlockIndex hash mapBlockIndex).1 = some hash ∧
      ∀ other, (insertBlockIndex hash mapBlockIndex).2[other]? = mapBlockIndex[other]? ∨
        other = hash ∧ mapBlockIndex[other]? = none ∧
          (insertBlockIndex hash mapBlockIndex).2[other]? = some IndexEntry.null := by
  have some : hash.isNull = false := by
    rw [Uint256.isNull, beq_eq_false_iff_ne]
    exact notNull
  unfold insertBlockIndex
  rw [some]
  by_cases there : mapBlockIndex.contains hash = true
  · rw [if_neg (by decide), if_pos there]
    exact ⟨rfl, fun other => Or.inl rfl⟩
  · rw [if_neg (by decide), if_neg there]
    refine ⟨rfl, ?_⟩
    intro other
    rw [KeyedBatch.getElem?_insert_eq]
    by_cases here : other = hash
    · rw [if_pos here, here]
      refine Or.inr ⟨rfl, ?_, rfl⟩
      rwa [← ExtTreeMap.isSome_getElem?_eq_contains, Bool.not_eq_true,
        Option.isSome_eq_false_iff, Option.isNone_iff_eq_none] at there
    · rw [if_neg here]
      exact Or.inl rfl

theorem insertBlockIndex_hashPrev {pindex : IndexEntry}
    (parent : ∀ hash, pindex.pprev = some hash → hash ≠ Uint256.null) :
    (insertBlockIndex pindex.hashPrev mapBlockIndex).1 = pindex.pprev ∧
      ∀ other, (insertBlockIndex pindex.hashPrev mapBlockIndex).2[other]? = mapBlockIndex[other]? ∨
        pindex.pprev = some other ∧ mapBlockIndex[other]? = none ∧
          (insertBlockIndex pindex.hashPrev mapBlockIndex).2[other]? = some IndexEntry.null := by
  cases previous : pindex.pprev with
  | none =>
      have null : pindex.hashPrev = Uint256.null := by rw [IndexEntry.hashPrev, previous]; rfl
      rw [null, insertBlockIndex_null]
      exact ⟨rfl, fun other => Or.inl rfl⟩
  | some hash =>
      have there : pindex.hashPrev = hash := by rw [IndexEntry.hashPrev, previous]; rfl
      obtain ⟨pointer, lookups⟩ :=
        @insertBlockIndex_of_ne mapBlockIndex hash (parent hash previous)
      rw [there]
      refine ⟨pointer, fun other => ?_⟩
      cases lookups other with
      | inl same => exact Or.inl same
      | inr placed => exact Or.inr ⟨by rw [placed.1], placed.2⟩

theorem Loading.loadRecord {done : Set Uint256} (loading : Loading written mapBlockIndex done)
    {hash : Uint256} {pindex : IndexEntry} (isWritten : written[hash]? = some pindex)
    (writable : Writable params hashes (hash, pindex))
    (parent : ∀ hash, pindex.pprev = some hash →
      hash ≠ Uint256.null ∧ ∃ pprev, written[hash]? = some pprev) :
    ∃ after, loadRecord params hashes pindex.onDisk mapBlockIndex = some (true, after) ∧
      Loading written after (insert hash done) := by
  have own : pindex.onDisk.getBlockHash hashes = hash := writable.hash
  have prev : pindex.onDisk.hashPrev = pindex.hashPrev := rfl
  have passes : checkProofOfWork hash pindex.onDisk.nBits params = true :=
    checkProofOfWork_iff.mpr writable.target
  obtain ⟨pointer, placed⟩ := @insertBlockIndex_of_ne mapBlockIndex hash writable.notNull
  obtain ⟨pprev, placed'⟩ := @insertBlockIndex_hashPrev (insertBlockIndex hash mapBlockIndex).2
    pindex fun previous is => (parent previous is).1
  refine ⟨(insertBlockIndex pindex.hashPrev (insertBlockIndex hash mapBlockIndex).2).2.insert hash
    pindex, ?_, ?_, ?_⟩
  · simp only [Lycancoin.loadRecord, own, prev, pointer, pprev, passes]
    rfl
  · intro other isDone
    rw [KeyedBatch.getElem?_insert_eq]
    by_cases here : other = hash
    · rw [if_pos here, here]
      exact ⟨pindex, isWritten, rfl⟩
    · obtain ⟨entry, isEntry, found⟩ :=
        loading.loaded other ((Set.mem_insert_iff.mp isDone).resolve_left here)
      have first : (insertBlockIndex hash mapBlockIndex).2[other]? = some entry := by
        cases placed other with
        | inl same => rw [same, found]
        | inr new => exact absurd new.1 here
      refine ⟨entry, isEntry, ?_⟩
      rw [if_neg here]
      cases placed' other with
      | inl same => rw [same, first]
      | inr new => simp [first] at new
  · intro other notDone
    rw [Set.mem_insert_iff, not_or] at notDone
    obtain ⟨here, before⟩ := notDone
    have first : (insertBlockIndex hash mapBlockIndex).2[other]? = mapBlockIndex[other]? := by
      cases placed other with
      | inl same => exact same
      | inr new => exact absurd new.1 here
    rw [KeyedBatch.getElem?_insert_eq, if_neg here]
    cases placed' other with
    | inl same =>
        rw [same, first]
        exact loading.others other before
    | inr new => exact Or.inr ⟨new.2.2, (parent other new.1).2⟩

theorem Loading.loadLoop {done : Set Uint256} {records : List (List UInt8 × List UInt8)}
    (loading : Loading written mapBlockIndex done)
    (nonempty : ∀ record ∈ records, record.1 ≠ [])
    (entries : ∀ record ∈ KeyRange.scan DB_BLOCK_INDEX records, ∃ hash pindex,
      written[hash]? = some pindex ∧ record = (indexKey hash, pindex.serialize))
    (writable : ∀ hash pindex, written[hash]? = some pindex →
      Writable params hashes (hash, pindex) ∧ ∀ previous, pindex.pprev = some previous →
        previous ≠ Uint256.null ∧ ∃ pprev, written[previous]? = some pprev) :
    ∃ after, loadLoop params hashes records mapBlockIndex = some (true, after) ∧
      Loading written after
        (done ∪ {hash | ∃ value, (indexKey hash, value) ∈ KeyRange.scan DB_BLOCK_INDEX records}) := by
  induction records generalizing mapBlockIndex done with
  | nil => exact ⟨mapBlockIndex, rfl, by simpa [KeyRange.scan] using loading⟩
  | cons record rest ih =>
      obtain ⟨key, value⟩ := record
      obtain ⟨first, others⟩ := List.forall_mem_cons.mp nonempty
      cases key with
      | nil => exact absurd rfl first
      | cons chType tail =>
          by_cases tagged : chType = DB_BLOCK_INDEX
          · have scanned : KeyRange.scan DB_BLOCK_INDEX ((chType :: tail, value) :: rest) =
                (chType :: tail, value) :: KeyRange.scan DB_BLOCK_INDEX rest :=
              List.takeWhile_cons_of_pos (by simp [tagged])
            rw [scanned] at entries ⊢
            obtain ⟨entry, entries⟩ := List.forall_mem_cons.mp entries
            obtain ⟨hash, pindex, isWritten, isRecord⟩ := entry
            obtain ⟨own, parent⟩ := writable hash pindex isWritten
            obtain ⟨next, run, loading⟩ := loading.loadRecord isWritten own parent
            obtain ⟨after, later, loading⟩ := ih loading others entries
            have read := reads_diskIndex own.toStorable []
            rw [List.append_nil] at read
            rw [isRecord]
            refine ⟨after, ?_, ?_⟩
            · simp only [Lycancoin.loadLoop, indexKey, ↓reduceIte]
              rw [show DiskIndex.unserialize pindex.serialize = .ok (pindex.onDisk, []) from read]
              simp only [run, Option.bind_eq_bind, Option.bind_some, ↓reduceIte]
              exact later
            · have same : insert hash done ∪
                  {hash | ∃ value, (indexKey hash, value) ∈ KeyRange.scan DB_BLOCK_INDEX rest} =
                done ∪ {other | ∃ value, (indexKey other, value) ∈
                  (indexKey hash, pindex.serialize) :: KeyRange.scan DB_BLOCK_INDEX rest} := by
                ext other
                have key : indexKey other = indexKey hash ↔ other = hash :=
                  ⟨fun same => serialize_injective (List.cons.inj same).2, fun same => by rw [same]⟩
                simp [key, exists_or, or_assoc, or_left_comm]
              rw [← same]
              exact loading
          · have scanned : KeyRange.scan DB_BLOCK_INDEX ((chType :: tail, value) :: rest) = [] :=
              List.takeWhile_cons_of_neg (by simpa using tagged)
            rw [scanned]
            exact ⟨mapBlockIndex, by simp [Lycancoin.loadLoop, tagged], by simpa using loading⟩

/-- The key that is searched for is the least one of an entry. -/
theorem compare_indexKey_ne_lt (hash : Uint256) :
    compare (indexKey hash) (DB_BLOCK_INDEX :: Uint256.null.serialize) ≠ .lt := by
  have zeros : Uint256.null.serialize = List.replicate hash.serialize.length 0 := by
    have length : hash.serialize.length = 32 := by simp [Uint256.serialize, Uint256.data]
    rw [length]
    decide
  have least : ∀ byte : UInt8, compare byte 0 ≠ .lt := by
    intro byte below
    change compareOfLessAndEq byte 0 = .lt at below
    rw [compareOfLessAndEq_eq_lt] at below
    exact absurd below (by simp)
  rw [indexKey, KeyRange.compare_cons, zeros, Std.ReflOrd.compare_self]
  exact KeyRange.compare_replicate_ne_lt least

/-- What was written is loaded, in whatever order and however often it was written. -/
theorem blockIndex_round_trip {params : Consensus.Params} {hashes : Digests} {db : LevelDB}
    (fresh : ∀ key ∈ db, key.head? ≠ some DB_BLOCK_INDEX) {batches : List IndexBatch}
    (writable : ∀ block ∈ batches.flatMap IndexBatch.blockinfo, Writable params hashes block)
    (closed : ∀ block ∈ batches.flatMap IndexBatch.blockinfo, ∀ hash, block.2.pprev = some hash →
      ∃ pprev ∈ batches.flatMap IndexBatch.blockinfo, pprev.1 = hash) :
    ∃ loaded, loadBlockIndexGuts params hashes (writeBatches batches db) ∅ = some (true, loaded) ∧
      ∀ hash, loaded[hash]? = lastWritten (batches.flatMap IndexBatch.blockinfo) hash := by
  generalize blocks : batches.flatMap IndexBatch.blockinfo = written at writable closed ⊢
  have nothing : Mirrors ∅ db := by
    constructor
    · intro hash pindex found
      simp at found
    · intro key value found tagged
      have member : key ∈ db := by
        rw [ExtTreeMap.mem_iff_isSome_getElem?, found]
        rfl
      exact absurd tagged (fresh key member)
  have mirrors := nothing.writeBatches batches
  rw [blocks] at mirrors
  unfold loadBlockIndexGuts
  have ordered : KeyRange.Ordered (writeBatches batches db).toList := ExtTreeMap.ordered_keys_toList
  have listed : ∀ key value, (key, value) ∈ (writeBatches batches db).toList ↔
      (writeBatches batches db)[key]? = some value :=
    fun key value => ExtTreeMap.mem_toList_iff_getElem?_eq_some
  generalize (writeBatches batches db).toList = records at ordered listed ⊢
  have nonempty : ∀ record ∈ KeyRange.seek (DB_BLOCK_INDEX :: Uint256.null.serialize) records,
      record.1 ≠ [] := by
    intro record member empty
    have above := KeyRange.above_of_mem_seek ordered member
    rw [empty] at above
    exact above List.compareLex_nil_cons
  have entries : ∀ record ∈ KeyRange.scan DB_BLOCK_INDEX
      (KeyRange.seek (DB_BLOCK_INDEX :: Uint256.null.serialize) records), ∃ hash pindex,
        (writeEntries written ∅)[hash]? = some pindex ∧
          record = (indexKey hash, pindex.serialize) := by
    intro record member
    have tagged : record.1.head? = some DB_BLOCK_INDEX := by
      simpa using List.mem_takeWhile_imp member
    have found := (listed record.1 record.2).mp
      (KeyRange.mem_of_mem_seek ((List.takeWhile_sublist _).mem member))
    obtain ⟨hash, pindex, isWritten, isKey, isValue⟩ := mirrors.others _ _ found tagged
    exact ⟨hash, pindex, isWritten, Prod.ext isKey isValue⟩
  have sound : ∀ hash pindex, (writeEntries written ∅)[hash]? = some pindex →
      Writable params hashes (hash, pindex) ∧ ∀ previous, pindex.pprev = some previous →
        previous ≠ Uint256.null ∧ ∃ pprev, (writeEntries written ∅)[previous]? = some pprev := by
    intro hash pindex isWritten
    rw [getElem?_writeEntries] at isWritten
    have member := mem_of_lastWritten isWritten
    refine ⟨writable _ member, ?_⟩
    intro previous isPrevious
    obtain ⟨pprev, isBlock, rfl⟩ := closed _ member previous isPrevious
    obtain ⟨entry, last⟩ := exists_lastWritten isBlock
    exact ⟨(writable pprev isBlock).notNull, entry, by rw [getElem?_writeEntries, last]⟩
  have start : Loading (writeEntries written ∅) ∅ ∅ := by
    constructor
    · intro hash isDone
      contradiction
    · intro hash _
      exact Or.inl (by simp)
  obtain ⟨loaded, run, loading⟩ := start.loadLoop nonempty entries sound
  refine ⟨loaded, run, ?_⟩
  intro hash
  rw [← getElem?_writeEntries]
  cases isWritten : (writeEntries written ∅)[hash]? with
  | some pindex =>
      have record := (listed _ _).mpr (mirrors.stored hash pindex isWritten)
      have scanned := KeyRange.mem_scan_seek ordered record rfl (compare_indexKey_ne_lt hash)
      obtain ⟨entry, isEntry, found⟩ := loading.loaded hash (Or.inr ⟨_, scanned⟩)
      rw [found, ← isEntry, isWritten]
  | none =>
      have undone : hash ∉ (∅ : Set Uint256) ∪ {hash | ∃ value, (indexKey hash, value) ∈
          KeyRange.scan DB_BLOCK_INDEX
            (KeyRange.seek (DB_BLOCK_INDEX :: Uint256.null.serialize) records)} := by
        intro isDone
        obtain ⟨entry, isEntry, -⟩ := loading.loaded hash isDone
        simp [isWritten] at isEntry
      cases loading.others hash undone with
      | inl absent => exact absent
      | inr placed => simp [isWritten] at placed

/-! ## Two entries -/

/-- Digests that tell headers apart by their times. -/
def timeHashes : Digests where
  getHash := fun header => ⟨BitVec.ofNat 256 header.nTime.toNat⟩
  getPoWHash := fun _ => 0
  hashPair := fun _ _ => 0

def firstEntry : IndexEntry :=
  { IndexEntry.null with nTx := 1, nStatus := 29, nDataPos := 8, nTime := 1, nBits := 0x1e0fffff }

def secondEntry : IndexEntry :=
  { IndexEntry.null with
    pprev := some 1, nHeight := 1, nStatus := 2, nTime := 2, nBits := 0x1e0fffff }

/-- The child is written first, and its predecessor twice. -/
def entryBatches : List IndexBatch :=
  [{ fileInfo := [], nLastFile := 0, blockinfo := [(2, secondEntry), (1, { firstEntry with nTx := 0 })] },
    { fileInfo := [(0, CBlockFileInfo.null)], nLastFile := 0, blockinfo := [(1, firstEntry)] }]

theorem blockIndex_round_trip_two :
    ∃ loaded, loadBlockIndexGuts (mainParams timeHashes).consensus timeHashes
        (writeBatches entryBatches ∅) ∅ = some (true, loaded) ∧
      loaded[(1 : Uint256)]? = some firstEntry ∧ loaded[(2 : Uint256)]? = some secondEntry ∧
      loaded[(3 : Uint256)]? = none := by
  have writable : ∀ block ∈ entryBatches.flatMap IndexBatch.blockinfo,
      Writable (mainParams timeHashes).consensus timeHashes block := by
    have target : TargetInRange (mainParams timeHashes).consensus 0x1e0fffff := by
      unfold TargetInRange
      decide
    simp only [entryBatches, List.flatMap_cons, List.flatMap_nil, List.append_nil, List.cons_append,
      List.nil_append, List.forall_mem_cons]
    refine ⟨⟨?_, by decide, by decide, target⟩, ⟨?_, by decide, by decide, target⟩,
      ⟨?_, by decide, by decide, target⟩, by simp⟩
    · constructor <;> decide
    · constructor <;> decide
    · constructor <;> decide
  have closed : ∀ block ∈ entryBatches.flatMap IndexBatch.blockinfo, ∀ hash,
      block.2.pprev = some hash → ∃ pprev ∈ entryBatches.flatMap IndexBatch.blockinfo,
        pprev.1 = hash := by
    simp [entryBatches, firstEntry, secondEntry, IndexEntry.null]
  obtain ⟨loaded, run, entries⟩ := @blockIndex_round_trip (mainParams timeHashes).consensus timeHashes ∅
    (by simp) entryBatches writable closed
  refine ⟨loaded, run, ?_, ?_, ?_⟩
  · rw [entries]
    decide
  · rw [entries]
    decide
  · rw [entries]
    decide

end Lycancoin
