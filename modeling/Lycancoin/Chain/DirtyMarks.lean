import Lycancoin.Chain.Pruning
import Lycancoin.Data.KeyedBatch
import Lycancoin.Data.WriteBack

namespace Lycancoin

open Std

/-- What is stored of an entry of `mapBlockIndex`. -/
structure CDiskBlockIndex where
  nHeight : Nat
  nStatus : BlockStatus
  nTx : Nat
  nFile : Option Nat
  nDataPos : Option UInt32
  nUndoPos : Option UInt32
  nVersion : Int
  hashPrev : Uint256
  hashMerkleRoot : Uint256
  nTime : UInt32
  nBits : UInt32
  nNonce : UInt32
deriving DecidableEq, Repr

/-- `CDiskBlockIndex(pindex)`, as it is serialized. -/
def CDiskBlockIndex.ofIndex (pindex : StoredIndex) : CDiskBlockIndex where
  nHeight := pindex.nHeight
  nStatus := pindex.nStatus
  nTx := pindex.nTx
  nFile := if pindex.nStatus.haveData || pindex.nStatus.haveUndo then some pindex.nFile else none
  nDataPos := if pindex.nStatus.haveData then some pindex.nDataPos else none
  nUndoPos := if pindex.nStatus.haveUndo then some pindex.nUndoPos else none
  nVersion := pindex.nVersion
  hashPrev := pindex.pprev.getD Uint256.null
  hashMerkleRoot := pindex.hashMerkleRoot
  nTime := pindex.nTime
  nBits := pindex.nBits
  nNonce := pindex.nNonce

/-- `CBlockTreeDB`: the records under `DB_BLOCK_FILES`, `DB_LAST_BLOCK` and
`DB_BLOCK_INDEX`, and the flag `"prunedblockfiles"`. -/
structure CBlockTreeDB where
  blockFiles : ExtTreeMap Nat CBlockFileInfo
  lastBlock : Option Nat
  blockIndex : ExtTreeMap Uint256 CDiskBlockIndex
  prunedBlockFiles : Bool

namespace CBlockTreeDB

/-- `WriteBatchSync` where it succeeds. -/
def writeBatchSync (fileInfo : List (Nat × CBlockFileInfo)) (nLastFile : Nat)
    (blockinfo : List (Uint256 × StoredIndex)) (pblocktree : CBlockTreeDB) : CBlockTreeDB :=
  { pblocktree with
    blockFiles := fileInfo.foldl (fun batch file => batch.insert file.1 file.2) pblocktree.blockFiles
    lastBlock := some nLastFile
    blockIndex := blockinfo.foldl
      (fun batch pindex => batch.insert pindex.1 (.ofIndex pindex.2)) pblocktree.blockIndex }

end CBlockTreeDB

inductive FlushStateMode
  | none
  | ifNeeded
  | periodic
  | always
deriving DecidableEq, Repr

/-- How a write ends: a failure changes nothing and is reported by `false` or thrown. -/
inductive WriteOutcome
  | done
  | refused
  | exception
deriving DecidableEq, Repr

/-- What a call of `FlushStateToDisk` finds around it: the arguments of the node, the
height of `chainActive.Tip()`, whether the coins cache is too large and the last write
long ago, and how the storage behaves. -/
structure FlushSurroundings where
  fPruneMode : Bool
  network : Network
  nPruneTarget : UInt64
  tip : Option Nat
  fCacheFull : Bool
  fWriteDue : Bool
  checkDiskSpace : Bool
  writeFlag : WriteOutcome
  writeBatchSync : WriteOutcome
  flushCoins : WriteOutcome
  unlinkPrunedFiles : WriteOutcome

/-- What `FlushStateToDisk` returns: `false`, or `true` without or with its writes. -/
inductive FlushResult
  | failed
  | skipped
  | written
deriving DecidableEq, Repr

/-- The node as far as `FlushStateToDisk` sees it: the best blocks of `pcoinsTip` and of
the coins database stand for the coins. -/
structure FlushState where
  store : BlockStore
  fHavePruned : Bool
  pblocktree : CBlockTreeDB
  hashBlock : Uint256
  hashBestChain : Option Uint256

namespace FlushState

/-- The first part of `FlushStateToDisk`: the files to prune. -/
def chooseFiles (around : FlushSurroundings) (state : FlushState) : FlushState × List Nat :=
  if around.fPruneMode && state.store.fCheckForPruning then
    let (store, setFilesToPrune) :=
      state.store.findFilesToPrune around.network around.nPruneTarget around.tip
    ({ state with store }, setFilesToPrune)
  else (state, [])

/-- Whether `FlushStateToDisk` comes to its writes. -/
def mustWrite (around : FlushSurroundings) (mode : FlushStateMode) (fFlushForPrune : Bool) : Bool :=
  mode == .always ||
    (mode == .periodic || mode == .ifNeeded) && around.fCacheFull ||
    mode == .periodic && around.fWriteDue ||
    fFlushForPrune

/-- The record in the block index database that files were pruned. -/
def writePrunedFlag (around : FlushSurroundings) (state : FlushState) : FlushState :=
  { state with
    fHavePruned := true
    pblocktree := if around.writeFlag = .done then
        { state.pblocktree with prunedBlockFiles := true }
      else state.pblocktree }

def vFiles (store : BlockStore) : List (Nat × CBlockFileInfo) :=
  store.setDirtyFileInfo.map fun nFile =>
    (nFile, store.vinfoBlockFile.getD nFile CBlockFileInfo.null)

def vBlocks (store : BlockStore) : List (Uint256 × StoredIndex) :=
  store.setDirtyBlockIndex.filterMap fun hash =>
    store.mapBlockIndex[hash]?.map fun pindex => (hash, pindex)

/-- The state behind the loops that take the dirty files and entries. -/
def drained (state : FlushState) : FlushState :=
  { state with
    store := { state.store with setDirtyFileInfo := [], setDirtyBlockIndex := [] } }

/-- The state behind `pblocktree->WriteBatchSync`. -/
def indexWritten (state : FlushState) : FlushState :=
  { state.drained with
    pblocktree := state.pblocktree.writeBatchSync (vFiles state.store) state.store.nLastBlockFile
      (vBlocks state.store) }

/-- The state behind `pcoinsTip->Flush`. -/
def coinsWritten (state : FlushState) : FlushState :=
  { state with
    hashBestChain := if state.hashBlock = Uint256.null then state.hashBestChain
      else some state.hashBlock }

/-- The writes of `FlushStateToDisk`. -/
def write (around : FlushSurroundings) (fFlushForPrune : Bool) (state : FlushState) :
    FlushState × FlushResult :=
  if !around.checkDiskSpace then (state, .failed)
  else if around.writeBatchSync ≠ .done then (state.drained, .failed)
  else if around.flushCoins ≠ .done then (state.indexWritten, .failed)
  else
    let state := state.indexWritten.coinsWritten
    if fFlushForPrune then
      if around.unlinkPrunedFiles = .exception then (state, .failed)
      else ({ state with store := { state.store with fCheckForPruning := false } }, .written)
    else (state, .written)

def flushStateToDisk (around : FlushSurroundings) (mode : FlushStateMode) (state : FlushState) :
    FlushState × FlushResult :=
  let (state, setFilesToPrune) := state.chooseFiles around
  let fFlushForPrune := !setFilesToPrune.isEmpty
  let firstPruned := fFlushForPrune && !state.fHavePruned
  if firstPruned && around.writeFlag = .exception then (state, .failed)
  else
    let state := if firstPruned then state.writePrunedFlag around else state
    if mustWrite around mode fFlushForPrune then state.write around fFlushForPrune
    else (state, .skipped)

end FlushState

namespace BlockStore

/-- An entry after a change that is marked for the next flush. -/
def editDirty (hash : Uint256) (change : StoredIndex → StoredIndex) (store : BlockStore) :
    BlockStore :=
  { store with
    mapBlockIndex := store.mapBlockIndex.alter hash (Option.map change)
    setDirtyBlockIndex := store.setDirtyBlockIndex.insert hash }

end BlockStore

/-- What changes the index, the block files or the coins, call by call.  The calls of
`AcceptBlock` and `ConnectBlock` are as far as these functions change them, with what
`WriteBlockToDisk` and `UndoWriteToDisk` return. -/
inductive FlushCall
  | addToBlockIndex (hash : Uint256) (pindexNew : StoredIndex)
  | acceptBlock (hash : Uint256) (nTx : Nat) (disk : BlockFiles.Disk) (nAddSize : UInt32)
      (nTime : UInt64) (fWritten : Bool)
  | acceptKnownBlock (hash : Uint256) (nTx : Nat) (pos : CDiskBlockPos) (nAddSize : UInt32)
      (nTime : UInt64)
  | linkBlock (hash : Uint256) (nChainTx nSequenceId : Nat)
  | connectBlock (hash : Uint256) (disk : BlockFiles.Disk) (nAddSize : UInt32) (fWritten : Bool)
  | setFailedValid (hash : Uint256)
  | setFailedChild (hash : Uint256)
  | clearFailed (hash : Uint256)
  | failCandidate (hash : Uint256)
  | setBestBlock (hash : Uint256)
  | checkForPruning
  | flush (around : FlushSurroundings) (mode : FlushStateMode)

namespace FlushState

def addToBlockIndex (hash : Uint256) (pindexNew : StoredIndex) (store : BlockStore) : BlockStore :=
  if hash ∈ store.mapBlockIndex then store
  else
    { store with
      mapBlockIndex := store.mapBlockIndex.insert hash pindexNew
      setDirtyBlockIndex := store.setDirtyBlockIndex.insert hash }

/-- The end of `AcceptBlock` for a block that is new: `FindBlockPos` and
`ReceivedBlockTransactions`. -/
def acceptBlock (hash : Uint256) (nTx : Nat) (disk : BlockFiles.Disk) (nAddSize : UInt32)
    (nTime : UInt64) (fWritten : Bool) (store : BlockStore) : Option BlockStore := do
  let pindex ← store.mapBlockIndex[hash]?
  if pindex.nStatus.haveData then pure store
  else
    let (files, pos) ← store.findBlockPos disk nAddSize (UInt32.ofNat pindex.nHeight) nTime
    let store := { store with toBlockFiles := files }
    match pos with
    | none => pure store
    | some pos => pure (if fWritten then store.editDirty hash (.storeData nTx pos) else store)

/-- The end of `AcceptBlock` for a block that lies in a file already. -/
def acceptKnownBlock (hash : Uint256) (nTx : Nat) (pos : CDiskBlockPos) (nAddSize : UInt32)
    (nTime : UInt64) (store : BlockStore) : Option BlockStore := do
  let pindex ← store.mapBlockIndex[hash]?
  if pindex.nStatus.haveData then pure store
  else
    let files ← store.findKnownBlockPos pos nAddSize (UInt32.ofNat pindex.nHeight) nTime
    pure ({ store with toBlockFiles := files }.editDirty hash (.storeData nTx pos))

/-- The end of `ConnectBlock`: the undo data and the validity of the block. -/
def connectBlock (hash : Uint256) (disk : BlockFiles.Disk) (nAddSize : UInt32) (fWritten : Bool)
    (store : BlockStore) : Option BlockStore := do
  let pindex ← store.mapBlockIndex[hash]?
  if !pindex.nStatus.haveUndo then
    let (files, pos) ← store.findUndoPos disk pindex.nFile nAddSize
    let store := { store with toBlockFiles := files }
    match pos with
    | none => pure store
    | some pos => pure (if fWritten then store.editDirty hash (.storeUndo pos) else store)
  else if !pindex.nStatus.isValid .scripts then
    pure (store.editDirty hash fun pindex =>
      { pindex with nStatus := pindex.nStatus.raiseValidity .scripts })
  else pure store

/-- The queue of `ReceivedBlockTransactions`, entry by entry. -/
def linkBlock (hash : Uint256) (nChainTx nSequenceId : Nat) (store : BlockStore) : BlockStore :=
  { store with
    mapBlockIndex := store.mapBlockIndex.alter hash
      (Option.map fun pindex => { pindex with nChainTx, nSequenceId }) }

/-- A failed candidate in `FindMostWorkChain`. -/
def failCandidate (hash : Uint256) (store : BlockStore) : BlockStore :=
  { store with
    mapBlockIndex := store.mapBlockIndex.alter hash
      (Option.map fun pindex =>
        { pindex with nStatus := { pindex.nStatus with failedChild := true } }) }

def step (call : FlushCall) (state : FlushState) : Option FlushState :=
  match call with
  | .addToBlockIndex hash pindexNew =>
      some { state with store := addToBlockIndex hash pindexNew state.store }
  | .acceptBlock hash nTx disk nAddSize nTime fWritten =>
      (acceptBlock hash nTx disk nAddSize nTime fWritten state.store).map
        fun store => { state with store }
  | .acceptKnownBlock hash nTx pos nAddSize nTime =>
      (acceptKnownBlock hash nTx pos nAddSize nTime state.store).map fun store => { state with store }
  | .linkBlock hash nChainTx nSequenceId =>
      some { state with store := linkBlock hash nChainTx nSequenceId state.store }
  | .connectBlock hash disk nAddSize fWritten =>
      (connectBlock hash disk nAddSize fWritten state.store).map fun store => { state with store }
  | .setFailedValid hash =>
      some { state with store := state.store.editDirty hash fun pindex =>
        { pindex with nStatus := { pindex.nStatus with failedValid := true } } }
  | .setFailedChild hash =>
      some { state with store := state.store.editDirty hash fun pindex =>
        { pindex with nStatus := { pindex.nStatus with failedChild := true } } }
  | .clearFailed hash =>
      some { state with store := state.store.editDirty hash fun pindex =>
        { pindex with nStatus := { pindex.nStatus with failedValid := false, failedChild := false } } }
  | .failCandidate hash => some { state with store := failCandidate hash state.store }
  | .setBestBlock hash =>
      if hash ∈ state.store.mapBlockIndex then some { state with hashBlock := hash } else none
  | .checkForPruning => some { state with store := { state.store with fCheckForPruning := true } }
  | .flush around mode => some (state.flushStateToDisk around mode).1

end FlushState

open Std Lycancoin.Data

namespace BlockFiles

/-- The entry of a file, as `ReadBlockFileInfo` leaves it for a file without a record. -/
def fileInfo (files : BlockFiles) (nFile : Nat) : CBlockFileInfo :=
  files.vinfoBlockFile.getD nFile CBlockFileInfo.null

/-- A change of the block files that marks each file whose entry changes. -/
structure Marked (before after : BlockFiles) : Prop where
  grows : before.vinfoBlockFile.length ≤ after.vinfoBlockFile.length
  marks : Marks {nFile | nFile ∈ before.setDirtyFileInfo} before.fileInfo
    {nFile | nFile ∈ after.setDirtyFileInfo} after.fileInfo

theorem Marked.refl (files : BlockFiles) : Marked files files := ⟨le_rfl, .refl _ _⟩

theorem Marked.trans {before middle after : BlockFiles} (first : Marked before middle)
    (second : Marked middle after) : Marked before after :=
  ⟨first.grows.trans second.grows, first.marks.trans second.marks⟩

variable {files after : BlockFiles} {nFile : Nat}

theorem getD_grown (vinfoBlockFile : List CBlockFileInfo) (count i : Nat) :
    (grown vinfoBlockFile count).getD i CBlockFileInfo.null =
      vinfoBlockFile.getD i CBlockFileInfo.null := by
  rw [grown, List.getD_eq_getElem?_getD, List.getD_eq_getElem?_getD]
  rcases Nat.lt_or_ge i vinfoBlockFile.length with inside | outside
  · rw [List.getElem?_append_left inside]
  · rw [List.getElem?_append_right outside, List.getElem?_eq_none outside, List.getElem?_replicate]
    split_ifs <;> rfl

theorem Marked.of_set {count : Nat} {stored : CBlockFileInfo}
    (isAfter : after.vinfoBlockFile = (grown files.vinfoBlockFile count).set nFile stored)
    (dirty : after.setDirtyFileInfo = files.setDirtyFileInfo.insert nFile) :
    Marked files after := by
  constructor
  · rw [isAfter, List.length_set, grown, List.length_append]
    omega
  · refine Marks.of_changed {nFile} (fun i => ?_) (fun i other => ?_)
    · rw [dirty]
      exact List.mem_insert_iff
    · rw [fileInfo, fileInfo, isAfter, ← getD_grown files.vinfoBlockFile count,
        List.getD_eq_getElem?_getD, List.getD_eq_getElem?_getD,
        List.getElem?_set_ne (Ne.symm other)]

theorem searchFile_grown {nAddSize : UInt32} {fuel : Nat} {vinfoBlockFile found : List CBlockFileInfo}
    {first : Nat} (searched : searchFile nAddSize fuel first vinfoBlockFile = some (nFile, found)) :
    ∃ count, found = grown vinfoBlockFile count := by
  induction fuel generalizing first vinfoBlockFile with
  | zero => contradiction
  | succ fuel ih =>
      rw [searchFile] at searched
      obtain ⟨file, _, rest⟩ := Option.bind_eq_some_iff.mp searched
      split_ifs at rest
      · obtain ⟨count, isFound⟩ := ih rest
        rw [resizeFor_eq_grown, grown_grown] at isFound
        exact ⟨_, isFound⟩
      · cases rest
        exact ⟨0, grown_zero.symm⟩

@[simp] theorem setDirtyFileInfo_preallocate (disk : Disk) (chunk nPos nNewSize : UInt32)
    (files : BlockFiles) :
    (preallocate disk chunk nPos nNewSize files).1.setDirtyFileInfo = files.setDirtyFileInfo := by
  rw [preallocate]
  split_ifs <;> rfl

/-- A position that `FindBlockPos` returns lies in a file that it marks. -/
theorem marked_findBlockPos {disk : Disk} {nAddSize nHeight : UInt32} {nTime : UInt64}
    {pos : CDiskBlockPos}
    (returned : files.findBlockPos disk nAddSize nHeight nTime = some (after, some pos)) :
    Marked files after := by
  rw [findBlockPos, resizeFor_eq_grown] at returned
  obtain ⟨⟨nFile, vinfoBlockFile⟩, searched, rest⟩ := Option.bind_eq_some_iff.mp returned
  obtain ⟨file, _, taken⟩ := Option.bind_eq_some_iff.mp rest
  obtain ⟨count, rfl⟩ := searchFile_grown searched
  rw [grown_grown] at taken
  generalize files.nLastBlockFile + 1 - files.vinfoBlockFile.length + count = more at taken
  have isTaken := Option.some.inj taken
  have isAfter := (@takeBlockPos_spec { files with vinfoBlockFile := grown files.vinfoBlockFile more }
    disk nAddSize nHeight nTime nFile file).1
  rw [isTaken] at isAfter
  refine .of_set isAfter ?_
  rw [takeBlockPos] at isTaken
  simp only at isTaken
  split_ifs at isTaken
  · rw [← (Prod.mk.inj isTaken).1, markDirty, setDirtyFileInfo_preallocate]
  · cases (Prod.mk.inj isTaken).2

theorem marked_findKnownBlockPos {pos : CDiskBlockPos} {nAddSize nHeight : UInt32}
    {nTime : UInt64} (returned : files.findKnownBlockPos pos nAddSize nHeight nTime = some after) :
    Marked files after := by
  rw [findKnownBlockPos, resizeFor_eq_grown] at returned
  obtain ⟨file, _, stored⟩ := Option.bind_eq_some_iff.mp returned
  rw [← Option.some.inj stored]
  exact .of_set rfl rfl

theorem marked_findUndoPos {disk : Disk} {nAddSize : UInt32} {pos : Option CDiskBlockPos}
    (returned : files.findUndoPos disk nFile nAddSize = some (after, pos)) :
    Marked files after := by
  obtain ⟨file, _, taken⟩ := Option.bind_eq_some_iff.mp returned
  have isTaken := Option.some.inj taken
  have isAfter := (@takeUndoPos_spec files disk nAddSize nFile file).1
  have whole : grown files.vinfoBlockFile 0 = files.vinfoBlockFile := grown_zero
  rw [isTaken, ← whole] at isAfter
  refine .of_set isAfter ?_
  rw [takeUndoPos] at isTaken
  rw [← (Prod.mk.inj isTaken).1, setDirtyFileInfo_preallocate]
  rfl

end BlockFiles

namespace BlockStore

def indexRecord (store : BlockStore) (hash : Uint256) : Option CDiskBlockIndex :=
  store.mapBlockIndex[hash]?.map .ofIndex

/-- A change of the index and the block files that marks what must be written. -/
structure Marked (before after : BlockStore) : Prop where
  files : before.toBlockFiles.Marked after.toBlockFiles
  index : Marks {hash | hash ∈ before.setDirtyBlockIndex} before.indexRecord
    {hash | hash ∈ after.setDirtyBlockIndex} after.indexRecord
  present : ∀ hash ∈ before.mapBlockIndex, hash ∈ after.mapBlockIndex

theorem Marked.refl (store : BlockStore) : Marked store store :=
  ⟨.refl _, .refl _ _, fun _ => id⟩

theorem Marked.trans {before middle after : BlockStore} (first : Marked before middle)
    (second : Marked middle after) : Marked before after :=
  ⟨first.files.trans second.files, first.index.trans second.index,
    fun hash member => second.present hash (first.present hash member)⟩

variable {store after : BlockStore} {hash : Uint256}

theorem marked_of_files {files : BlockFiles} (marked : store.toBlockFiles.Marked files) :
    Marked store { store with toBlockFiles := files } :=
  ⟨marked, .refl _ _, fun _ => id⟩

theorem getElem?_alter (index : ExtTreeMap Uint256 StoredIndex) (hash other : Uint256)
    (change : StoredIndex → StoredIndex) :
    (index.alter hash (Option.map change))[other]? =
      if other = hash then index[other]?.map change else index[other]? := by
  rcases eq_or_ne other hash with rfl | different
  · rw [if_pos rfl, ExtTreeMap.getElem?_alter_self]
  · rw [if_neg different, ExtTreeMap.getElem?_alter,
      if_neg (by simpa using fun equal => different equal.symm)]

theorem mem_alter (index : ExtTreeMap Uint256 StoredIndex) (change : StoredIndex → StoredIndex)
    {other : Uint256} (member : other ∈ index) : other ∈ index.alter hash (Option.map change) := by
  rw [ExtTreeMap.mem_iff_isSome_getElem?] at member ⊢
  rw [getElem?_alter]
  split_ifs
  · rw [Option.isSome_map]
    exact member
  · exact member

theorem marked_editDirty (hash : Uint256) (change : StoredIndex → StoredIndex)
    (store : BlockStore) : Marked store (store.editDirty hash change) := by
  refine ⟨.refl _, Marks.of_changed {hash} (fun other => List.mem_insert_iff) ?_,
    fun other member => mem_alter _ _ member⟩
  intro other different
  rw [indexRecord, editDirty]
  simp only
  rw [getElem?_alter, if_neg (show ¬other = hash from different)]
  rfl

/-- A change that does not show in the record of the entry. -/
theorem marked_unstored (hash : Uint256) (change : StoredIndex → StoredIndex)
    (same : ∀ pindex, store.mapBlockIndex[hash]? = some pindex → hash ∉ store.setDirtyBlockIndex →
      CDiskBlockIndex.ofIndex (change pindex) = .ofIndex pindex) :
    Marked store { store with
      mapBlockIndex := store.mapBlockIndex.alter hash (Option.map change) } := by
  refine ⟨.refl _, fun other clean => ⟨clean, ?_⟩, fun other member => mem_alter _ _ member⟩
  rw [indexRecord, indexRecord]
  simp only
  rw [getElem?_alter]
  split_ifs with isHash
  · subst isHash
    cases found : store.mapBlockIndex[other]? with
    | none => rfl
    | some pindex => exact congrArg some (same pindex found clean)
  · rfl

theorem marked_pruneOneBlockFile (fileNumber : Nat) (store : BlockStore) :
    Marked store (store.pruneOneBlockFile fileNumber) := by
  have isAfter : (store.pruneOneBlockFile fileNumber).vinfoBlockFile =
      (grown store.vinfoBlockFile 0).set fileNumber CBlockFileInfo.null := by
    rw [grown_zero]
    rfl
  refine ⟨.of_set isAfter rfl, ?_, ?_⟩
  · refine Marks.of_changed {hash | hash ∈ store.storedIn fileNumber}
      (fun hash => List.mem_union_iff) (fun hash elsewhere => ?_)
    rw [indexRecord, indexRecord, getElem?_pruneOneBlockFile]
    cases found : store.mapBlockIndex[hash]? with
    | none => rfl
    | some pindex =>
        have inOther : pindex.nFile ≠ fileNumber := by
          intro isHere
          apply elsewhere
          refine List.mem_filter.mpr ⟨?_, ?_⟩
          · rw [ExtTreeMap.mem_keys, ExtTreeMap.mem_iff_isSome_getElem?, found]
            rfl
          · rw [found, Option.any_some, beq_iff_eq]
            exact isHere
        simp only [Option.map_some, if_neg inOther]
  · intro hash member
    rw [ExtTreeMap.mem_iff_isSome_getElem?] at member ⊢
    rw [getElem?_pruneOneBlockFile, Option.isSome_map]
    exact member

theorem marked_pruneFiles (bounds : PruneBounds) (fileNumbers : List Nat) (nCurrentUsage : UInt64)
    (store : BlockStore) : Marked store (pruneFiles bounds fileNumbers nCurrentUsage store).1 := by
  induction fileNumbers generalizing nCurrentUsage store with
  | nil => exact .refl store
  | cons fileNumber rest ih =>
      rcases @pruneFiles_cons bounds rest nCurrentUsage store fileNumber with
        ⟨skipped, _⟩ | ⟨stopped, _⟩ | ⟨after, setFilesToPrune, below, pruned, _⟩
      · rw [skipped]
        exact ih nCurrentUsage store
      · rw [stopped]
        exact .refl store
      · rw [pruned]
        have further := ih (nCurrentUsage -
          (store.vinfoBlockFile.getD fileNumber CBlockFileInfo.null).usage)
          (store.pruneOneBlockFile fileNumber)
        rw [below] at further
        exact (marked_pruneOneBlockFile fileNumber store).trans further

theorem marked_findFilesToPrune (network : Network) (nPruneTarget : UInt64) (tip : Option Nat)
    (store : BlockStore) : Marked store (store.findFilesToPrune network nPruneTarget tip).1 := by
  rcases findFilesToPrune_cases network nPruneTarget tip store with
    ⟨nothing, _⟩ | ⟨nHeight, rfl, _, run⟩
  · rw [nothing]
    exact .refl store
  · rw [run]
    exact marked_pruneFiles _ _ _ store

end BlockStore

namespace FlushState

open BlockStore

variable {store after : BlockStore} {hash : Uint256} {nTx : Nat} {nAddSize : UInt32}
  {nTime : UInt64} {fWritten : Bool} {disk : BlockFiles.Disk}

theorem marked_addToBlockIndex (hash : Uint256) (pindexNew : StoredIndex) (store : BlockStore) :
    store.Marked (addToBlockIndex hash pindexNew store) := by
  rw [addToBlockIndex]
  split_ifs
  · exact .refl store
  · refine ⟨.refl _, Marks.of_changed {hash} (fun other => List.mem_insert_iff) ?_,
      fun other member => ExtTreeMap.mem_insert.mpr (Or.inr member)⟩
    intro other different
    rw [indexRecord, indexRecord]
    simp only
    rw [KeyedBatch.getElem?_insert_eq, if_neg (show ¬other = hash from different)]

/-- `AcceptBlock` marks what it changes unless the disk is full. -/
theorem marked_acceptBlock
    (accepted : acceptBlock hash nTx disk nAddSize nTime fWritten store = some after)
    (plenty : ∀ nHeight files, store.findBlockPos disk nAddSize nHeight nTime ≠ some (files, none)) :
    store.Marked after := by
  obtain ⟨pindex, _, rest⟩ := Option.bind_eq_some_iff.mp accepted
  by_cases stored : pindex.nStatus.haveData = true
  · rw [if_pos stored] at rest
    cases rest
    exact .refl store
  · rw [if_neg stored] at rest
    obtain ⟨⟨files, pos⟩, returned, rest⟩ := Option.bind_eq_some_iff.mp rest
    cases pos with
    | none => exact absurd returned (plenty _ files)
    | some pos =>
        have marked := marked_of_files (BlockFiles.marked_findBlockPos returned)
        cases fWritten with
        | false =>
            cases rest
            exact marked
        | true =>
            cases rest
            exact marked.trans (marked_editDirty hash _ _)

theorem marked_acceptKnownBlock {pos : CDiskBlockPos}
    (accepted : acceptKnownBlock hash nTx pos nAddSize nTime store = some after) :
    store.Marked after := by
  obtain ⟨pindex, _, rest⟩ := Option.bind_eq_some_iff.mp accepted
  split_ifs at rest
  · cases rest
    exact .refl store
  · obtain ⟨files, returned, rest⟩ := Option.bind_eq_some_iff.mp rest
    cases rest
    exact (marked_of_files (BlockFiles.marked_findKnownBlockPos returned)).trans
      (marked_editDirty hash _ _)

theorem marked_connectBlock
    (connected : connectBlock hash disk nAddSize fWritten store = some after) :
    store.Marked after := by
  obtain ⟨pindex, _, rest⟩ := Option.bind_eq_some_iff.mp connected
  by_cases missing : (!pindex.nStatus.haveUndo) = true
  · rw [if_pos missing] at rest
    obtain ⟨⟨files, pos⟩, returned, rest⟩ := Option.bind_eq_some_iff.mp rest
    have marked := marked_of_files (BlockFiles.marked_findUndoPos returned)
    cases pos with
    | none =>
        cases rest
        exact marked
    | some pos =>
        cases fWritten with
        | false =>
            cases rest
            exact marked
        | true =>
            cases rest
            exact marked.trans (marked_editDirty hash _ _)
  · rw [if_neg missing] at rest
    split_ifs at rest
    · cases rest
      exact marked_editDirty hash _ store
    · cases rest
      exact .refl store

end FlushState

end Lycancoin
