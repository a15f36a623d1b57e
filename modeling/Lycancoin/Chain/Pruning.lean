import Lycancoin.Chain.BlockFiles

namespace Lycancoin

open Std

@[simp] theorem BlockStatus.haveData_raiseValidity (status : BlockStatus) (nUpTo : BlockValidity) :
    (status.raiseValidity nUpTo).haveData = status.haveData := by
  rw [raiseValidity]
  split
  · rfl
  · split <;> rfl

@[simp] theorem BlockStatus.haveUndo_raiseValidity (status : BlockStatus) (nUpTo : BlockValidity) :
    (status.raiseValidity nUpTo).haveUndo = status.haveUndo := by
  rw [raiseValidity]
  split
  · rfl
  · split <;> rfl

namespace StoredIndex

/-- What `ReceivedBlockTransactions` writes into the entry of the block. -/
def storeData (nTx : Nat) (pos : CDiskBlockPos) (pindexNew : StoredIndex) : StoredIndex :=
  { pindexNew with
    nTx
    nChainTx := 0
    nFile := pos.nFile
    nDataPos := pos.nPos
    nUndoPos := 0
    nStatus := { pindexNew.nStatus with haveData := true }.raiseValidity .transactions }

/-- What `ConnectBlock` writes into the entry of the block.  The position is
that behind the magic and the size. -/
def storeUndo (pos : CDiskBlockPos) (pindex : StoredIndex) : StoredIndex :=
  { pindex with
    nUndoPos := pos.nPos + 8
    nStatus := { pindex.nStatus with haveUndo := true }.raiseValidity .scripts }

/-- The block or its undo data is on disk. -/
def Located (pindex : StoredIndex) : Prop :=
  pindex.nStatus.haveData = true ∨ pindex.nStatus.haveUndo = true

/-- Two states of an entry that say the same of its place on disk. -/
structure SamePlace (before after : StoredIndex) : Prop where
  nHeight : after.nHeight = before.nHeight
  nFile : after.nFile = before.nFile
  nDataPos : after.nDataPos = before.nDataPos
  nUndoPos : after.nUndoPos = before.nUndoPos
  haveData : after.nStatus.haveData = before.nStatus.haveData
  haveUndo : after.nStatus.haveUndo = before.nStatus.haveUndo

theorem not_located_pruned (pindex : StoredIndex) : ¬pindex.pruned.Located := by
  intro located
  rcases located with data | undo
  · exact Bool.false_ne_true data
  · exact Bool.false_ne_true undo

end StoredIndex

namespace BlockStore

/-- Everything that changes the block files or the places in the index.  Heights
are of type `int`, and no block that passes its checks is larger than a file. -/
inductive Step : BlockStore → BlockStore → Prop
  | addToBlockIndex {store : BlockStore} {hash : Uint256} (pindexNew : StoredIndex)
      (absent : hash ∉ store.mapBlockIndex) (header : ¬pindexNew.Located)
      (nFile : pindexNew.nFile = 0) (nHeight : pindexNew.nHeight < 2 ^ 31) :
      Step store { store with
        mapBlockIndex := store.mapBlockIndex.insert hash pindexNew
        setDirtyBlockIndex := store.setDirtyBlockIndex.insert hash }
  | changeElsewhere {store : BlockStore} (mapBlockIndex : ExtTreeMap Uint256 StoredIndex)
      (mapBlocksUnlinked : List (Uint256 × Uint256)) (setDirtyBlockIndex : List Uint256)
      (same : ∀ hash : Uint256, Option.Rel StoredIndex.SamePlace store.mapBlockIndex[hash]?
        mapBlockIndex[hash]?) :
      Step store { store with mapBlockIndex, mapBlocksUnlinked, setDirtyBlockIndex }
  | acceptKnownBlock {store : BlockStore} {hash : Uint256} {pindex : StoredIndex}
      {pos : CDiskBlockPos} {nAddSize : UInt32} {nTime : UInt64} {files : BlockFiles} (nTx : Nat)
      (found : store.mapBlockIndex[hash]? = some pindex)
      (missing : pindex.nStatus.haveData = false)
      (stored : store.findKnownBlockPos pos nAddSize (UInt32.ofNat pindex.nHeight) nTime =
        some files) :
      Step store { store with
        toBlockFiles := files
        mapBlockIndex := store.mapBlockIndex.insert hash (pindex.storeData nTx pos)
        setDirtyBlockIndex := store.setDirtyBlockIndex.insert hash }
  | acceptBlock {store : BlockStore} {hash : Uint256} {pindex : StoredIndex}
      {disk : BlockFiles.Disk} {pos : CDiskBlockPos} {nAddSize : UInt32} {nTime : UInt64}
      {files : BlockFiles} (nTx : Nat) (found : store.mapBlockIndex[hash]? = some pindex)
      (missing : pindex.nStatus.haveData = false) (small : nAddSize < MAX_BLOCKFILE_SIZE)
      (stored : store.findBlockPos disk nAddSize (UInt32.ofNat pindex.nHeight) nTime =
        some (files, some pos)) :
      Step store { store with
        toBlockFiles := files
        mapBlockIndex := store.mapBlockIndex.insert hash (pindex.storeData nTx pos)
        setDirtyBlockIndex := store.setDirtyBlockIndex.insert hash }
  | acceptBlockFails {store : BlockStore} {disk : BlockFiles.Disk} {nAddSize nHeight : UInt32}
      {nTime : UInt64} {files : BlockFiles} (small : nAddSize < MAX_BLOCKFILE_SIZE)
      (full : store.findBlockPos disk nAddSize nHeight nTime = some (files, none)) :
      Step store { store with toBlockFiles := files }
  | connectBlock {store : BlockStore} {hash : Uint256} {pindex : StoredIndex}
      {disk : BlockFiles.Disk} {pos : CDiskBlockPos} {nAddSize : UInt32} {files : BlockFiles}
      (found : store.mapBlockIndex[hash]? = some pindex)
      (readable : pindex.nStatus.haveData = true)
      (stored : store.findUndoPos disk pindex.nFile nAddSize = some (files, some pos)) :
      Step store { store with
        toBlockFiles := files
        mapBlockIndex := store.mapBlockIndex.insert hash (pindex.storeUndo pos)
        setDirtyBlockIndex := store.setDirtyBlockIndex.insert hash }
  | connectBlockFails {store : BlockStore} {disk : BlockFiles.Disk} {nFile : Nat}
      {nAddSize : UInt32} {files : BlockFiles} {pos : Option CDiskBlockPos}
      (full : store.findUndoPos disk nFile nAddSize = some (files, pos)) :
      Step store { store with toBlockFiles := files }
  | findFilesToPrune {store : BlockStore} (network : Network) (nPruneTarget : UInt64)
      (tip : Option Nat) : Step store (store.findFilesToPrune network nPruneTarget tip).1

def start : BlockStore where
  vinfoBlockFile := []
  nLastBlockFile := 0
  fCheckForPruning := false
  setDirtyFileInfo := []
  mapBlockIndex := ∅
  mapBlocksUnlinked := []
  setDirtyBlockIndex := []

inductive Reachable : BlockStore → Prop
  | start : Reachable start
  | step {store after : BlockStore} (reachable : Reachable store) (step : Step store after) :
      Reachable after

structure HeightsCounted (store : BlockStore) : Prop where
  int : ∀ (hash : Uint256) (pindex : StoredIndex), store.mapBlockIndex[hash]? = some pindex → pindex.nHeight < 2 ^ 31
  counted : ∀ (hash : Uint256) (pindex : StoredIndex), store.mapBlockIndex[hash]? = some pindex → pindex.Located →
    ∃ file, store.vinfoBlockFile[pindex.nFile]? = some file ∧
      pindex.nHeight ≤ file.nHeightLast.toNat

section Run

variable {bounds : PruneBounds} {fileNumbers : List Nat} {nCurrentUsage : UInt64}
  {store : BlockStore}

theorem getElem?_pruneOneBlockFile (fileNumber : Nat) (hash : Uint256) :
    (store.pruneOneBlockFile fileNumber).mapBlockIndex[hash]? =
      store.mapBlockIndex[hash]?.map fun pindex =>
        if pindex.nFile = fileNumber then pindex.pruned else pindex := by
  rw [pruneOneBlockFile]
  exact ExtTreeMap.getElem?_map

theorem pruned_pruned (pindex : StoredIndex) : pindex.pruned.pruned = pindex.pruned := rfl

/-- What the loop of `FindFilesToPrune` leaves behind. -/
structure Pruned (bounds : PruneBounds) (fileNumbers : List Nat) (store after : BlockStore)
    (setFilesToPrune : List Nat) : Prop where
  chosen : ∀ fileNumber ∈ setFilesToPrune, fileNumber ∈ fileNumbers
  files : ∀ i, after.vinfoBlockFile.getD i CBlockFileInfo.null =
    if i ∈ setFilesToPrune then CBlockFileInfo.null
    else store.vinfoBlockFile.getD i CBlockFileInfo.null
  untouched : ∀ i ∉ setFilesToPrune, after.vinfoBlockFile[i]? = store.vinfoBlockFile[i]?
  old : ∀ fileNumber ∈ setFilesToPrune,
    (store.vinfoBlockFile.getD fileNumber CBlockFileInfo.null).nHeightLast ≤
      bounds.nLastBlockWeMustKeep
  entries : ∀ hash : Uint256, after.mapBlockIndex[hash]? = store.mapBlockIndex[hash]?.map fun pindex =>
    if pindex.nFile ∈ setFilesToPrune then pindex.pruned else pindex
  last : after.nLastBlockFile = store.nLastBlockFile

theorem Pruned.refl : Pruned bounds fileNumbers store store [] where
  chosen fileNumber member := by contradiction
  files i := by rw [if_neg List.not_mem_nil]
  untouched i _ := rfl
  old fileNumber member := by contradiction
  entries hash := by
    simp only [List.not_mem_nil, if_false]
    exact Option.map_id'.symm
  last := rfl

theorem Pruned.skip {fileNumber : Nat} {after : BlockStore} {setFilesToPrune : List Nat}
    (rest : Pruned bounds fileNumbers store after setFilesToPrune) :
    Pruned bounds (fileNumber :: fileNumbers) store after setFilesToPrune :=
  { rest with chosen := fun other member => List.mem_cons_of_mem _ (rest.chosen other member) }

theorem Pruned.cons {fileNumber : Nat} {after : BlockStore} {setFilesToPrune : List Nat}
    (fresh : fileNumber ∉ fileNumbers)
    (isOld : (store.vinfoBlockFile.getD fileNumber CBlockFileInfo.null).nHeightLast ≤
      bounds.nLastBlockWeMustKeep)
    (rest : Pruned bounds fileNumbers (store.pruneOneBlockFile fileNumber) after setFilesToPrune) :
    Pruned bounds (fileNumber :: fileNumbers) store after (fileNumber :: setFilesToPrune) where
  chosen other member := by
    rcases List.mem_cons.mp member with rfl | member
    · exact List.mem_cons_self
    · exact List.mem_cons_of_mem _ (rest.chosen other member)
  files i := by
    rw [rest.files, vinfoBlockFile_pruneOneBlockFile, getD_set_null]
    by_cases same : i = fileNumber
    · simp [same]
    · simp [same]
  untouched i outside := by
    rw [List.mem_cons, not_or] at outside
    rw [rest.untouched i outside.2, vinfoBlockFile_pruneOneBlockFile,
      List.getElem?_set_ne (Ne.symm outside.1)]
  old other member := by
    rcases List.mem_cons.mp member with rfl | member
    · exact isOld
    · have different : other ≠ fileNumber := by
        intro same
        exact fresh (same ▸ rest.chosen other member)
      have kept := rest.old other member
      rwa [vinfoBlockFile_pruneOneBlockFile, getD_set_null, if_neg different] at kept
  entries hash := by
    rw [rest.entries, getElem?_pruneOneBlockFile, Option.map_map]
    apply Option.map_congr
    intro pindex _
    by_cases same : pindex.nFile = fileNumber
    · simp only [Function.comp_apply, same, if_true, List.mem_cons, true_or, pruned_pruned, ite_self]
    · simp only [Function.comp_apply, same, if_false, List.mem_cons, false_or]
  last := rest.last

theorem pruned_pruneFiles (distinct : fileNumbers.Nodup) (nCurrentUsage : UInt64)
    (store : BlockStore) :
    Pruned bounds fileNumbers store (pruneFiles bounds fileNumbers nCurrentUsage store).1
      (pruneFiles bounds fileNumbers nCurrentUsage store).2 := by
  induction fileNumbers generalizing nCurrentUsage store with
  | nil => exact .refl
  | cons fileNumber rest ih =>
      obtain ⟨fresh, distinct⟩ := List.nodup_cons.mp distinct
      rcases @pruneFiles_cons bounds rest nCurrentUsage store fileNumber with
        ⟨skipped, _⟩ | ⟨stopped, _⟩ | ⟨after, setFilesToPrune, below, pruned, _, isOld⟩
      · rw [skipped]
        exact (ih distinct nCurrentUsage store).skip
      · rw [stopped]
        exact .refl
      · rw [pruned]
        have further := ih distinct (nCurrentUsage -
          (store.vinfoBlockFile.getD fileNumber CBlockFileInfo.null).usage)
          (store.pruneOneBlockFile fileNumber)
        rw [below] at further
        exact further.cons fresh isOld

theorem usage_set_null (vinfoBlockFile : List CBlockFileInfo) (fileNumber : Nat) :
    ((vinfoBlockFile.set fileNumber CBlockFileInfo.null).map CBlockFileInfo.usage).sum =
      (vinfoBlockFile.map CBlockFileInfo.usage).sum -
        (vinfoBlockFile.getD fileNumber CBlockFileInfo.null).usage := by
  have none : CBlockFileInfo.null.usage = 0 := by decide
  induction vinfoBlockFile generalizing fileNumber with
  | nil => exact (UInt64.sub_self _).symm
  | cons file rest ih =>
      cases fileNumber with
      | zero =>
          simp only [List.set_cons_zero, List.map_cons, List.sum_cons, none, UInt64.zero_add,
            List.getD_cons_zero]
          rw [UInt64.add_comm, UInt64.add_sub_cancel]
      | succ fileNumber =>
          simp only [List.set_cons_succ, List.map_cons, List.sum_cons, List.getD_cons_succ, ih]
          rw [UInt64.sub_eq_add_neg, UInt64.sub_eq_add_neg, UInt64.add_assoc]

theorem calculateCurrentUsage_pruneOneBlockFile (fileNumber : Nat) :
    (store.pruneOneBlockFile fileNumber).calculateCurrentUsage =
      store.calculateCurrentUsage -
        (store.vinfoBlockFile.getD fileNumber CBlockFileInfo.null).usage :=
  usage_set_null store.vinfoBlockFile fileNumber

/-- The loop of `FindFilesToPrune` ends below the target, or at a file that must
be kept, or behind the last file with data. -/
theorem pruneFiles_ends (sorted : fileNumbers.Pairwise (· < ·)) {after : BlockStore}
    {setFilesToPrune : List Nat}
    (returned : pruneFiles bounds fileNumbers store.calculateCurrentUsage store =
      (after, setFilesToPrune)) :
    after.calculateCurrentUsage + nBuffer < bounds.nPruneTarget ∨
    (∃ kept ∈ fileNumbers,
      bounds.nLastBlockWeMustKeep <
        (store.vinfoBlockFile.getD kept CBlockFileInfo.null).nHeightLast ∧
      (∀ fileNumber ∈ setFilesToPrune, fileNumber < kept) ∧
      ∀ fileNumber ∈ fileNumbers, fileNumber < kept →
        (after.vinfoBlockFile.getD fileNumber CBlockFileInfo.null).nSize = 0) ∨
    ∀ fileNumber ∈ fileNumbers,
      (after.vinfoBlockFile.getD fileNumber CBlockFileInfo.null).nSize = 0 := by
  have spec := @pruned_pruneFiles bounds fileNumbers
    (sorted.imp Nat.ne_of_lt) store.calculateCurrentUsage store
  rw [returned] at spec
  induction fileNumbers generalizing store setFilesToPrune with
  | nil => exact Or.inr (Or.inr fun fileNumber member => by contradiction)
  | cons fileNumber rest ih =>
      obtain ⟨first, sorted⟩ := List.pairwise_cons.mp sorted
      have distinct : rest.Nodup := sorted.imp Nat.ne_of_lt
      rcases @pruneFiles_cons bounds rest store.calculateCurrentUsage store fileNumber with
        ⟨skipped, empty⟩ | ⟨stopped, _, reason⟩ |
          ⟨after', setFilesToPrune', below, pruned, _, isOld⟩
      · rw [skipped] at returned
        have further := @pruned_pruneFiles bounds rest distinct store.calculateCurrentUsage store
        rw [returned] at further
        have emptyAfter :
            (after.vinfoBlockFile.getD fileNumber CBlockFileInfo.null).nSize = 0 := by
          have unchosen : fileNumber ∉ setFilesToPrune := fun chosen =>
            Nat.lt_irrefl _ (first _ (further.chosen _ chosen))
          rw [further.files, if_neg unchosen, empty]
        rcases ih sorted returned further with low | ⟨kept, member, young, earlier, before⟩ | all
        · exact Or.inl low
        · refine Or.inr (Or.inl ⟨kept, List.mem_cons_of_mem _ member, young, earlier, ?_⟩)
          exact List.forall_mem_cons.mpr ⟨fun _ => emptyAfter, before⟩
        · exact Or.inr (Or.inr (List.forall_mem_cons.mpr ⟨emptyAfter, all⟩))
      · rw [stopped] at returned
        obtain ⟨rfl, rfl⟩ := Prod.mk.inj returned
        rcases reason with low | young
        · exact Or.inl low
        · refine Or.inr (Or.inl ⟨fileNumber, List.mem_cons_self, young,
            fun other member => by contradiction, ?_⟩)
          refine List.forall_mem_cons.mpr ⟨fun less => absurd less (Nat.lt_irrefl _), ?_⟩
          exact fun other member less => absurd less (Nat.lt_asymm (first other member))
      · rw [pruned] at returned
        obtain ⟨rfl, rfl⟩ := Prod.mk.inj returned
        rw [← calculateCurrentUsage_pruneOneBlockFile] at below
        have further := @pruned_pruneFiles bounds rest distinct
          (store.pruneOneBlockFile fileNumber).calculateCurrentUsage
          (store.pruneOneBlockFile fileNumber)
        rw [below] at further
        have emptyAfter :
            (after'.vinfoBlockFile.getD fileNumber CBlockFileInfo.null).nSize = 0 := by
          rw [spec.files, if_pos List.mem_cons_self]
          rfl
        rcases ih sorted below further with low | ⟨kept, member, young, earlier, before⟩ | all
        · exact Or.inl low
        · have different : kept ≠ fileNumber := (Nat.ne_of_lt (first kept member)).symm
          rw [vinfoBlockFile_pruneOneBlockFile, getD_set_null, if_neg different] at young
          refine Or.inr (Or.inl ⟨kept, List.mem_cons_of_mem _ member, young, ?_, ?_⟩)
          · exact List.forall_mem_cons.mpr ⟨first kept member, earlier⟩
          · exact List.forall_mem_cons.mpr ⟨fun _ => emptyAfter, before⟩
        · exact Or.inr (Or.inr (List.forall_mem_cons.mpr ⟨emptyAfter, all⟩))

end Run

section Invariant

variable {store : BlockStore} {files : BlockFiles} {vinfoBlockFile : List CBlockFileInfo}

def Raises (before after : List CBlockFileInfo) : Prop :=
  ∀ (i : Nat) (file : CBlockFileInfo), before[i]? = some file →
    ∃ file', after[i]? = some file' ∧ file.nHeightLast ≤ file'.nHeightLast

theorem raises_of_set {count nFile : Nat} {file stored : CBlockFileInfo}
    {after : List CBlockFileInfo} (found : (grown vinfoBlockFile count)[nFile]? = some file)
    (isAfter : after = (grown vinfoBlockFile count).set nFile stored)
    (higher : file.nHeightLast ≤ stored.nHeightLast) : Raises vinfoBlockFile after := by
  intro i other otherFound
  have there := @getElem?_grown_of_some vinfoBlockFile count i other otherFound
  rw [isAfter]
  by_cases same : i = nFile
  · subst same
    rw [there] at found
    refine ⟨stored, ?_, ?_⟩
    · rw [List.getElem?_set_self', there]
      rfl
    · rw [Option.some.inj found]
      exact higher
  · rw [List.getElem?_set_ne (Ne.symm same)]
    exact ⟨other, there, UInt32.le_refl _⟩

theorem nHeightLast_addBlock (file : CBlockFileInfo) (nHeightIn : UInt32) (nTimeIn : UInt64) :
    file.nHeightLast ≤ (file.addBlock nHeightIn nTimeIn).nHeightLast ∧
      nHeightIn ≤ (file.addBlock nHeightIn nTimeIn).nHeightLast := by
  rw [CBlockFileInfo.addBlock]
  by_cases higher : file.nHeightLast < nHeightIn
  · simp only [if_pos higher]
    exact ⟨UInt32.le_of_lt higher, UInt32.le_refl _⟩
  · simp only [if_neg higher]
    exact ⟨UInt32.le_refl _, UInt32.not_lt.mp higher⟩

theorem getElem?_insert_cases {index : ExtTreeMap Uint256 StoredIndex} {hash other : Uint256}
    {pindex pindexNew : StoredIndex}
    (found : (index.insert hash pindexNew)[other]? = some pindex) :
    pindex = pindexNew ∨ index[other]? = some pindex := by
  rw [ExtTreeMap.getElem?_insert] at found
  split at found
  · exact Or.inl (Option.some.inj found).symm
  · exact Or.inr found

theorem HeightsCounted.raise (counted : HeightsCounted store)
    (raises : Raises store.vinfoBlockFile files.vinfoBlockFile) :
    HeightsCounted { store with toBlockFiles := files } where
  int := counted.int
  counted hash pindex found located := by
    obtain ⟨file, fileFound, below⟩ := counted.counted hash pindex found located
    obtain ⟨file', found', higher⟩ := raises _ _ fileFound
    exact ⟨file', found', below.trans (UInt32.le_iff_toNat_le.mp higher)⟩

theorem HeightsCounted.insert (counted : HeightsCounted store) {pindexNew : StoredIndex}
    (hash : Uint256) (dirty : List Uint256) (nHeight : pindexNew.nHeight < 2 ^ 31)
    (place : pindexNew.Located → ∃ file, store.vinfoBlockFile[pindexNew.nFile]? = some file ∧
      pindexNew.nHeight ≤ file.nHeightLast.toNat) :
    HeightsCounted { store with
      mapBlockIndex := store.mapBlockIndex.insert hash pindexNew
      setDirtyBlockIndex := dirty } where
  int other pindex found := by
    rcases getElem?_insert_cases found with rfl | found
    · exact nHeight
    · exact counted.int other pindex found
  counted other pindex found located := by
    rcases getElem?_insert_cases found with rfl | found
    · exact place located
    · exact counted.counted other pindex found located

theorem HeightsCounted.accept (counted : HeightsCounted store) {hash : Uint256}
    {pindex : StoredIndex} {pos : CDiskBlockPos} {count : Nat} {file stored : CBlockFileInfo}
    (nTx : Nat) (dirty : List Uint256) (found : store.mapBlockIndex[hash]? = some pindex)
    (fileFound : (grown store.vinfoBlockFile count)[pos.nFile]? = some file)
    (isAfter : files.vinfoBlockFile = (grown store.vinfoBlockFile count).set pos.nFile stored)
    (higher : file.nHeightLast ≤ stored.nHeightLast)
    (reaches : UInt32.ofNat pindex.nHeight ≤ stored.nHeightLast) :
    HeightsCounted { store with
      toBlockFiles := files
      mapBlockIndex := store.mapBlockIndex.insert hash (pindex.storeData nTx pos)
      setDirtyBlockIndex := dirty } := by
  have nHeight := counted.int hash pindex found
  refine (counted.raise (raises_of_set fileFound isAfter higher)).insert hash dirty nHeight
    fun _ => ⟨stored, ?_, ?_⟩
  · change files.vinfoBlockFile[pos.nFile]? = some stored
    rw [isAfter, List.getElem?_set_self', fileFound]
    rfl
  · have same : (UInt32.ofNat pindex.nHeight).toNat = pindex.nHeight := by
      rw [UInt32.toNat_ofNat']
      omega
    have bound := UInt32.le_iff_toNat_le.mp reaches
    rw [same] at bound
    exact bound

/-- Undo data changes no height. -/
theorem raises_findUndoPos {disk : BlockFiles.Disk} {nFile : Nat} {nAddSize : UInt32}
    {before : BlockFiles} {pos : Option CDiskBlockPos}
    (returned : before.findUndoPos disk nFile nAddSize = some (files, pos)) :
    Raises before.vinfoBlockFile files.vinfoBlockFile := by
  obtain ⟨file, found, taken⟩ := Option.bind_eq_some_iff.mp returned
  have isAfter := (@BlockFiles.takeUndoPos_spec before disk nAddSize nFile file).1
  have whole : grown before.vinfoBlockFile 0 = before.vinfoBlockFile := grown_zero
  rw [Option.some.inj taken, ← whole] at isAfter
  rw [← whole] at found
  exact raises_of_set found isAfter (UInt32.le_refl _)

/-- `FindFilesToPrune` does nothing, or runs its loop. -/
theorem findFilesToPrune_cases (network : Network) (nPruneTarget : UInt64) (tip : Option Nat)
    (store : BlockStore) :
    (store.findFilesToPrune network nPruneTarget tip = (store, []) ∧
      (∀ nHeight ∈ tip, nPruneTarget = 0 ∨ nHeight ≤ network.pruneAfterHeight ∨
        store.calculateCurrentUsage + nBuffer < nPruneTarget)) ∨
    ∃ nHeight, tip = some nHeight ∧ network.pruneAfterHeight < nHeight ∧
      store.findFilesToPrune network nPruneTarget tip =
        pruneFiles ⟨nPruneTarget, UInt32.ofNat nHeight - MIN_BLOCKS_TO_KEEP⟩
          (List.range store.nLastBlockFile) store.calculateCurrentUsage store := by
  cases tip with
  | none => exact Or.inl ⟨rfl, fun nHeight member => by contradiction⟩
  | some nHeight =>
      rw [findFilesToPrune]
      by_cases off : nPruneTarget = 0
      · exact Or.inl ⟨if_pos off, fun _ _ => Or.inl off⟩
      rw [if_neg off]
      by_cases early : nHeight ≤ network.pruneAfterHeight
      · refine Or.inl ⟨if_pos early, fun other member => Or.inr (Or.inl ?_)⟩
        rwa [← Option.some.inj member]
      rw [if_neg early]
      by_cases much : nPruneTarget ≤ store.calculateCurrentUsage + nBuffer
      · exact Or.inr ⟨nHeight, rfl, Nat.lt_of_not_le early, if_pos much⟩
      · exact Or.inl ⟨if_neg much, fun _ _ => Or.inr (Or.inr (UInt64.not_le.mp much))⟩

theorem pruned_findFilesToPrune (network : Network) (nPruneTarget : UInt64) (tip : Option Nat)
    (store : BlockStore) :
    Pruned ⟨nPruneTarget, UInt32.ofNat (tip.getD 0) - MIN_BLOCKS_TO_KEEP⟩
      (List.range store.nLastBlockFile) store (store.findFilesToPrune network nPruneTarget tip).1
      (store.findFilesToPrune network nPruneTarget tip).2 := by
  rcases findFilesToPrune_cases network nPruneTarget tip store with
    ⟨nothing, _⟩ | ⟨nHeight, rfl, _, run⟩
  · rw [nothing]
    exact .refl
  · rw [run]
    exact pruned_pruneFiles List.nodup_range _ store

/-- An entry after pruning: either it was pruned, or it is as it was. -/
theorem Pruned.entry_cases {bounds : PruneBounds} {fileNumbers setFilesToPrune : List Nat}
    {after : BlockStore} (spec : Pruned bounds fileNumbers store after setFilesToPrune)
    {hash : Uint256} {pindex : StoredIndex} (found : after.mapBlockIndex[hash]? = some pindex) :
    ∃ old, store.mapBlockIndex[hash]? = some old ∧
      ((old.nFile ∈ setFilesToPrune ∧ pindex = old.pruned) ∨
        (old.nFile ∉ setFilesToPrune ∧ pindex = old)) := by
  rw [spec.entries] at found
  obtain ⟨old, oldFound, same⟩ := Option.map_eq_some_iff.mp found
  refine ⟨old, oldFound, ?_⟩
  by_cases chosen : old.nFile ∈ setFilesToPrune
  · rw [if_pos chosen] at same
    exact Or.inl ⟨chosen, same.symm⟩
  · rw [if_neg chosen] at same
    exact Or.inr ⟨chosen, same.symm⟩

theorem heightsCounted_step {after : BlockStore} (step : Step store after)
    (counted : HeightsCounted store) : HeightsCounted after := by
  cases step with
  | addToBlockIndex pindexNew absent header nFile nHeight =>
      exact counted.insert _ _ nHeight fun located => absurd located header
  | changeElsewhere mapBlockIndex mapBlocksUnlinked setDirtyBlockIndex same =>
      have before : ∀ (hash : Uint256) (pindex : StoredIndex), mapBlockIndex[hash]? = some pindex →
          ∃ old, store.mapBlockIndex[hash]? = some old ∧ old.SamePlace pindex := by
        intro hash pindex found
        have related := same hash
        rw [found] at related
        generalize store.mapBlockIndex[hash]? = old at related ⊢
        cases related with
        | some place => exact ⟨_, rfl, place⟩
      constructor
      · intro hash pindex found
        obtain ⟨old, oldFound, place⟩ := before hash pindex found
        rw [place.nHeight]
        exact counted.int hash old oldFound
      · intro hash pindex found located
        obtain ⟨old, oldFound, place⟩ := before hash pindex found
        rw [place.nHeight, place.nFile]
        apply counted.counted hash old oldFound
        rwa [StoredIndex.Located, place.haveData, place.haveUndo] at located
  | acceptKnownBlock nTx found missing stored =>
      rename_i hash pindex pos nAddSize nTime files
      obtain ⟨file, fileFound, isAfter⟩ := BlockFiles.findKnownBlockPos_spec stored
      obtain ⟨higher, reaches⟩ := nHeightLast_addBlock file (UInt32.ofNat pindex.nHeight) nTime
      exact counted.accept nTx _ found fileFound isAfter higher reaches
  | acceptBlock nTx found missing small stored =>
      rename_i hash pindex disk pos nAddSize nTime files
      obtain ⟨nFile, count, file, returned, fileFound, _⟩ :=
        BlockFiles.findBlockPos_spec disk (UInt32.ofNat pindex.nHeight) nTime small
          store.toBlockFiles
      obtain ⟨isAfter, handed⟩ := @BlockFiles.takeBlockPos_spec
        { store.toBlockFiles with vinfoBlockFile := grown store.vinfoBlockFile count } disk nAddSize
        (UInt32.ofNat pindex.nHeight) nTime nFile file
      rw [Option.some.inj (returned.symm.trans stored)] at isAfter handed
      have position := congrArg CDiskBlockPos.nFile (handed pos rfl)
      rw [← show pos.nFile = nFile from position] at fileFound isAfter
      obtain ⟨higher, reaches⟩ := nHeightLast_addBlock file (UInt32.ofNat pindex.nHeight) nTime
      exact counted.accept nTx _ found fileFound isAfter higher reaches
  | acceptBlockFails small full =>
      rename_i disk nAddSize nHeight nTime files
      obtain ⟨nFile, count, file, returned, fileFound, _⟩ :=
        BlockFiles.findBlockPos_spec disk nHeight nTime small store.toBlockFiles
      have isAfter := (@BlockFiles.takeBlockPos_spec
        { store.toBlockFiles with vinfoBlockFile := grown store.vinfoBlockFile count } disk nAddSize
        nHeight nTime nFile file).1
      rw [Option.some.inj (returned.symm.trans full)] at isAfter
      have higher := (nHeightLast_addBlock file nHeight nTime).1
      exact counted.raise (raises_of_set fileFound isAfter higher)
  | connectBlock found readable stored =>
      rename_i hash pindex disk pos nAddSize files
      have raised := counted.raise (raises_findUndoPos stored)
      have nHeight : (pindex.storeUndo pos).nHeight < 2 ^ 31 := counted.int hash pindex found
      apply raised.insert hash _ nHeight
      intro _
      exact raised.counted hash pindex found (Or.inl readable)
  | connectBlockFails full => exact counted.raise (raises_findUndoPos full)
  | findFilesToPrune network nPruneTarget tip =>
      have spec := pruned_findFilesToPrune network nPruneTarget tip store
      constructor
      · intro hash pindex found
        obtain ⟨old, oldFound, ⟨_, rfl⟩ | ⟨_, rfl⟩⟩ := spec.entry_cases found
        · exact counted.int hash old oldFound
        · exact counted.int hash pindex oldFound
      · intro hash pindex found located
        obtain ⟨old, oldFound, ⟨_, rfl⟩ | ⟨unchosen, rfl⟩⟩ := spec.entry_cases found
        · exact absurd located old.not_located_pruned
        · rw [spec.untouched _ unchosen]
          exact counted.counted hash pindex oldFound located

theorem heightsCounted_of_reachable (reachable : Reachable store) : HeightsCounted store := by
  induction reachable with
  | start =>
      constructor
      · intro hash pindex found
        rw [start, ExtTreeMap.getElem?_empty] at found
        contradiction
      · intro hash pindex found
        rw [start, ExtTreeMap.getElem?_empty] at found
        contradiction
  | step reachable step ih => exact heightsCounted_step step ih

theorem least_pruneAfterHeight (network : Network) : 1000 ≤ network.pruneAfterHeight := by
  cases network <;> decide

theorem toNat_lastBlockWeMustKeep {network : Network} {nHeight : Nat} (int : nHeight < 2 ^ 31)
    (late : network.pruneAfterHeight < nHeight) :
    (UInt32.ofNat nHeight - MIN_BLOCKS_TO_KEEP).toNat = nHeight - 288 := by
  have least := least_pruneAfterHeight network
  have same : (UInt32.ofNat nHeight).toNat = nHeight := by
    rw [UInt32.toNat_ofNat']
    omega
  have keep : MIN_BLOCKS_TO_KEEP.toNat = 288 := by decide
  rw [UInt32.toNat_sub_of_le _ _ (by rw [UInt32.le_iff_toNat_le, same, keep]; omega), same, keep]

theorem not_located_of_chosen (counted : HeightsCounted store) {network : Network}
    {nPruneTarget : UInt64} {nHeight : Nat} (int : nHeight < 2 ^ 31) {hash : Uint256}
    {pindex : StoredIndex} (found : store.mapBlockIndex[hash]? = some pindex)
    (near : (nHeight : Int) - 288 < pindex.nHeight)
    (chosen : pindex.nFile ∈ (store.findFilesToPrune network nPruneTarget (some nHeight)).2) :
    ¬pindex.Located := by
  intro located
  rcases findFilesToPrune_cases network nPruneTarget (some nHeight) store with
    ⟨nothing, _⟩ | ⟨_, same, late, _⟩
  · rw [nothing] at chosen
    contradiction
  · rw [← Option.some.inj same] at late
    have isOld := (pruned_findFilesToPrune network nPruneTarget (some nHeight) store).old _ chosen
    obtain ⟨file, fileFound, below⟩ := counted.counted hash pindex found located
    rw [List.getD_eq_getElem?_getD, fileFound, Option.getD_some, UInt32.le_iff_toNat_le] at isOld
    have bound := toNat_lastBlockWeMustKeep int late
    have least := least_pruneAfterHeight network
    rw [Option.getD_some, bound] at isOld
    omega

/-- A run of `FindFilesToPrune` in a reachable state keeps the data of the last
blocks below the tip and the file being written, forgets the places of all data
in the files that it chooses and of no other, and ends below the target, at a
file that must be kept, or behind the last file. -/
theorem findFilesToPrune_safe {after : BlockStore} {setFilesToPrune : List Nat}
    (reachable : Reachable store) (network : Network) (nPruneTarget : UInt64) (nHeight : Nat)
    (int : nHeight < 2 ^ 31) (enabled : nPruneTarget ≠ 0)
    (run : store.findFilesToPrune network nPruneTarget (some nHeight) = (after, setFilesToPrune)) :
    (∀ (hash : Uint256) (pindex : StoredIndex), store.mapBlockIndex[hash]? = some pindex →
      (nHeight : Int) - 288 < pindex.nHeight →
      ∃ pindex', after.mapBlockIndex[hash]? = some pindex' ∧
        pindex'.nStatus.haveData = pindex.nStatus.haveData ∧
        pindex'.nStatus.haveUndo = pindex.nStatus.haveUndo) ∧
    store.nLastBlockFile ∉ setFilesToPrune ∧
    (∀ (hash : Uint256) (pindex : StoredIndex), after.mapBlockIndex[hash]? = some pindex →
      pindex.Located → pindex.nFile ∉ setFilesToPrune) ∧
    (∀ (hash : Uint256) (pindex : StoredIndex), store.mapBlockIndex[hash]? = some pindex →
      pindex.nFile ∉ setFilesToPrune → after.mapBlockIndex[hash]? = some pindex) ∧
    (network.pruneAfterHeight < nHeight →
      after.calculateCurrentUsage + nBuffer < nPruneTarget ∨
      (∃ kept < store.nLastBlockFile,
        UInt32.ofNat nHeight - MIN_BLOCKS_TO_KEEP <
          (store.vinfoBlockFile.getD kept CBlockFileInfo.null).nHeightLast ∧
        (∀ fileNumber ∈ setFilesToPrune, fileNumber < kept) ∧
        ∀ fileNumber < kept,
          (after.vinfoBlockFile.getD fileNumber CBlockFileInfo.null).nSize = 0) ∨
      ∀ fileNumber < store.nLastBlockFile,
        (after.vinfoBlockFile.getD fileNumber CBlockFileInfo.null).nSize = 0) := by
  have counted := heightsCounted_of_reachable reachable
  have spec := pruned_findFilesToPrune network nPruneTarget (some nHeight) store
  rw [run] at spec
  refine ⟨fun hash pindex found near => ?_, fun chosen => ?_, fun hash pindex found located => ?_,
    fun hash pindex found unchosen => ?_, fun late => ?_⟩
  · rw [spec.entries, found, Option.map_some]
    by_cases chosen : pindex.nFile ∈ setFilesToPrune
    · have missing := @not_located_of_chosen store counted network nPruneTarget nHeight int hash
        pindex found near (by rwa [run])
      rw [StoredIndex.Located, not_or, Bool.not_eq_true, Bool.not_eq_true] at missing
      rw [if_pos chosen, missing.1, missing.2]
      exact ⟨_, rfl, rfl, rfl⟩
    · rw [if_neg chosen]
      exact ⟨_, rfl, rfl, rfl⟩
  · exact Nat.lt_irrefl _ (List.mem_range.mp (spec.chosen _ chosen))
  · obtain ⟨old, _, ⟨_, rfl⟩ | ⟨unchosen, rfl⟩⟩ := spec.entry_cases found
    · exact absurd located old.not_located_pruned
    · exact unchosen
  · rw [spec.entries, found, Option.map_some, if_neg unchosen]
  · rcases findFilesToPrune_cases network nPruneTarget (some nHeight) store with
      ⟨nothing, reason⟩ | ⟨_, same, _, loop⟩
    · rw [nothing] at run
      obtain ⟨rfl, rfl⟩ := Prod.mk.inj run
      rcases reason nHeight rfl with off | early | below
      · exact absurd off enabled
      · exact absurd late (Nat.not_lt.mpr early)
      · exact Or.inl below
    · rw [← Option.some.inj same, run] at loop
      rcases pruneFiles_ends List.pairwise_lt_range loop.symm with
        below | ⟨kept, member, young, earlier, before⟩ | all
      · exact Or.inl below
      · have last := List.mem_range.mp member
        refine Or.inr (Or.inl ⟨kept, last, young, earlier, fun fileNumber less => ?_⟩)
        exact before fileNumber (List.mem_range.mpr (less.trans last)) less
      · exact Or.inr (Or.inr fun fileNumber less => all fileNumber (List.mem_range.mpr less))

def sampleHeader : StoredIndex :=
  { CBlockIndex.ofHeader ⟨1, 0, 0, 0, 0, 0⟩ with nHeight := 5, nDataPos := 0, nUndoPos := 0 }

theorem exists_reachable_twoFiles : ∃ store, Reachable store ∧
    (store.findFilesToPrune .regtest 1 (some 2000)).2 = [0] := by
  have header : ¬sampleHeader.Located := by
    intro located
    rcases located with data | undo
    · exact Bool.false_ne_true data
    · exact Bool.false_ne_true undo
  have known := Reachable.start.step
    (@Step.addToBlockIndex start 1 sampleHeader ExtTreeMap.not_mem_empty header rfl (by decide))
  have stored := known.step
    (@Step.acceptKnownBlock _ 1 _ ⟨0, 8⟩ 100 9 _ 1 ExtTreeMap.getElem?_insert_self rfl rfl)
  have full := stored.step
    (@Step.acceptBlockFails _ ⟨true, fun _ => false⟩ 0x7ffffff 6 9 _ (by decide) rfl)
  exact ⟨_, full, by decide⟩

/-- The file with the old block is chosen, and the one being written is not. -/
theorem findFilesToPrune_safe_twoFiles : ∃ store, Reachable store ∧
    0 ∈ (store.findFilesToPrune .regtest 1 (some 2000)).2 ∧
    store.nLastBlockFile ∉ (store.findFilesToPrune .regtest 1 (some 2000)).2 := by
  obtain ⟨store, reachable, chosen⟩ := exists_reachable_twoFiles
  refine ⟨store, reachable, by rw [chosen]; exact List.mem_singleton_self 0, ?_⟩
  exact (findFilesToPrune_safe reachable .regtest 1 2000 (by decide) (by decide)
    Prod.mk.eta.symm).2.1

/-- The block files when a block of a million bytes is stored at each height. -/
def fullBlockFiles : Nat → Option BlockFiles
  | 0 => some start.toBlockFiles
  | nHeight + 1 => do
      let files ← fullBlockFiles nHeight
      let (files, pos) ← files.findBlockPos ⟨true, fun _ => true⟩ 1000008
        (UInt32.ofNat (nHeight + 1)) 9
      if pos.isSome then some files else none

/-- The blocks are told apart by their heights. -/
theorem exists_reachable_fullBlockFiles {nHeight : Nat} (int : nHeight < 2 ^ 31)
    {files : BlockFiles} (filled : fullBlockFiles nHeight = some files) :
    ∃ store, Reachable store ∧ store.toBlockFiles = files ∧ ∀ later : Nat, nHeight < later →
      later < 2 ^ 31 → (⟨BitVec.ofNat 256 later⟩ : Uint256) ∉ store.mapBlockIndex := by
  induction nHeight generalizing files with
  | zero =>
      cases filled
      exact ⟨start, .start, rfl, fun later _ _ => ExtTreeMap.not_mem_empty⟩
  | succ nHeight ih =>
      obtain ⟨files', before, rest⟩ := Option.bind_eq_some_iff.mp filled
      obtain ⟨⟨files'', pos⟩, found, taken⟩ := Option.bind_eq_some_iff.mp rest
      cases pos with
      | none => contradiction
      | some pos =>
          cases taken
          obtain ⟨store, reachable, rfl, unknown⟩ := ih (by omega) before
          have absent := unknown (nHeight + 1) (Nat.lt_succ_self _) int
          have header : ¬({ sampleHeader with nHeight := nHeight + 1 } : StoredIndex).Located := by
            intro located
            rcases located with data | undo
            · exact Bool.false_ne_true data
            · exact Bool.false_ne_true undo
          have known := reachable.step (Step.addToBlockIndex _ absent header rfl int)
          have stored := known.step (Step.acceptBlock 1 ExtTreeMap.getElem?_insert_self rfl
            (by decide) found)
          refine ⟨_, stored, rfl, fun later above small member => ?_⟩
          have apart : BitVec.ofNat 256 (nHeight + 1) ≠ BitVec.ofNat 256 later := by
            intro same
            have values := congrArg BitVec.toNat same
            rw [BitVec.toNat_ofNat, BitVec.toNat_ofNat, Nat.mod_eq_of_lt (by omega),
              Nat.mod_eq_of_lt (by omega)] at values
            omega
          simp only [ExtTreeMap.mem_insert, Std.compare_eq_iff_eq, Uint256.mk.injEq, apart,
            false_or] at member
          exact unknown later (by omega) small member

/-- While the tip is not above `PruneAfterHeight` nothing is pruned, whatever the usage: here 600
full blocks under the least target that a node accepts. -/
theorem findFilesToPrune_early :
    ¬∀ (store after : BlockStore) (setFilesToPrune : List Nat), Reachable store →
      ∀ (network : Network) (nPruneTarget : UInt64) (nHeight : Nat), nHeight < 2 ^ 31 →
        550 * 1024 * 1024 ≤ nPruneTarget →
        store.findFilesToPrune network nPruneTarget (some nHeight) = (after, setFilesToPrune) →
          after.calculateCurrentUsage + nBuffer < nPruneTarget ∨
          (∃ kept < store.nLastBlockFile,
            UInt32.ofNat nHeight - MIN_BLOCKS_TO_KEEP <
              (store.vinfoBlockFile.getD kept CBlockFileInfo.null).nHeightLast ∧
            (∀ fileNumber ∈ setFilesToPrune, fileNumber < kept) ∧
            ∀ fileNumber < kept,
              (after.vinfoBlockFile.getD fileNumber CBlockFileInfo.null).nSize = 0) ∨
          ∀ fileNumber < store.nLastBlockFile,
            (after.vinfoBlockFile.getD fileNumber CBlockFileInfo.null).nSize = 0 := by
  intro always
  have full : (fullBlockFiles 600).map (fun files =>
      (files.calculateCurrentUsage, files.nLastBlockFile,
        (files.vinfoBlockFile.getD 0 CBlockFileInfo.null).nSize,
        (files.vinfoBlockFile.getD 0 CBlockFileInfo.null).nHeightLast)) =
      some (600004800, 4, 134001072, 134) := by decide +kernel
  obtain ⟨files, filled, summary⟩ := Option.map_eq_some_iff.mp full
  obtain ⟨store, reachable, rfl, _⟩ := exists_reachable_fullBlockFiles (by decide) filled
  obtain ⟨usage, last, size, height⟩ : store.calculateCurrentUsage = 600004800 ∧
      store.nLastBlockFile = 4 ∧
      (store.vinfoBlockFile.getD 0 CBlockFileInfo.null).nSize = 134001072 ∧
      (store.vinfoBlockFile.getD 0 CBlockFileInfo.null).nHeightLast = 134 := by
    simpa only [Prod.mk.injEq] using summary
  have returns : store.findFilesToPrune .regtest 576716800 (some 600) = (store, []) := rfl
  rcases always store store [] reachable .regtest 576716800 600 (by decide) (by decide) returns with
    below | ⟨kept, _, young, _, before⟩ | empty
  · rw [usage] at below
    exact absurd below (by decide)
  · -- the first file is not one that must be kept, nor is it empty
    cases kept with
    | zero =>
        rw [height] at young
        exact absurd young (by decide)
    | succ kept =>
        have none := before 0 (Nat.succ_pos kept)
        rw [size] at none
        exact absurd none (by decide)
  · have none := empty 0 (by rw [last]; decide)
    rw [size] at none
    exact absurd none (by decide)

end Invariant

end BlockStore

end Lycancoin
