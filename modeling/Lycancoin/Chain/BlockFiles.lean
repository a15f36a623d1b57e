import Lycancoin.Chain.BlockIndex
import Lycancoin.Consensus.Params

namespace Lycancoin

open Std

/-- The maximum size of a blk?????.dat file. -/
def MAX_BLOCKFILE_SIZE : UInt32 := 0x8000000

/-- The pre-allocation chunk size for blk?????.dat files. -/
def BLOCKFILE_CHUNK_SIZE : UInt32 := 0x1000000

/-- The pre-allocation chunk size for rev?????.dat files. -/
def UNDOFILE_CHUNK_SIZE : UInt32 := 0x100000

/-- Block files with a block that is less than this below the tip are kept. -/
def MIN_BLOCKS_TO_KEEP : UInt32 := 288

/-- `nPruneAfterHeight` of a network. -/
def Network.pruneAfterHeight : Network → Nat
  | .main => 100000
  | .testnet => 1000
  | .regtest => 1000

structure CBlockFileInfo where
  nBlocks : UInt32
  nSize : UInt32
  nUndoSize : UInt32
  nHeightFirst : UInt32
  nHeightLast : UInt32
  nTimeFirst : UInt64
  nTimeLast : UInt64
deriving DecidableEq, Repr

namespace CBlockFileInfo

/-- `SetNull`. -/
def null : CBlockFileInfo where
  nBlocks := 0
  nSize := 0
  nUndoSize := 0
  nHeightFirst := 0
  nHeightLast := 0
  nTimeFirst := 0
  nTimeLast := 0

/-- `AddBlock`, which does not change the size. -/
def addBlock (file : CBlockFileInfo) (nHeightIn : UInt32) (nTimeIn : UInt64) : CBlockFileInfo :=
  { file with
    nHeightFirst :=
      if file.nBlocks = 0 ∨ nHeightIn < file.nHeightFirst then nHeightIn else file.nHeightFirst
    nTimeFirst :=
      if file.nBlocks = 0 ∨ nTimeIn < file.nTimeFirst then nTimeIn else file.nTimeFirst
    nBlocks := file.nBlocks + 1
    nHeightLast := if file.nHeightLast < nHeightIn then nHeightIn else file.nHeightLast
    nTimeLast := if file.nTimeLast < nTimeIn then nTimeIn else file.nTimeLast }

def usage (file : CBlockFileInfo) : UInt64 := (file.nSize + file.nUndoSize).toUInt64

end CBlockFileInfo

structure CDiskBlockPos where
  nFile : Nat
  nPos : UInt32
deriving DecidableEq, Repr

/-- What the node knows of its block files.  Files are numbered without a limit. -/
structure BlockFiles where
  vinfoBlockFile : List CBlockFileInfo
  nLastBlockFile : Nat
  fCheckForPruning : Bool
  setDirtyFileInfo : List Nat

/-- `vinfoBlockFile.resize(nFile + 1)` where the list is shorter. -/
def resizeFor (nFile : Nat) (vinfoBlockFile : List CBlockFileInfo) : List CBlockFileInfo :=
  vinfoBlockFile ++ List.replicate (nFile + 1 - vinfoBlockFile.length) CBlockFileInfo.null

/-- The loop of `FindBlockPos`, which leaves one file after the other. -/
def searchFile (nAddSize : UInt32) :
    Nat → Nat → List CBlockFileInfo → Option (Nat × List CBlockFileInfo)
  | 0, _, _ => none
  | fuel + 1, nFile, vinfoBlockFile => do
      let file ← vinfoBlockFile[nFile]?
      if MAX_BLOCKFILE_SIZE ≤ file.nSize + nAddSize then
        searchFile nAddSize fuel (nFile + 1) (resizeFor (nFile + 1) vinfoBlockFile)
      else some (nFile, vinfoBlockFile)

namespace BlockFiles

/-- What is fixed in one call: whether the node prunes, and `CheckDiskSpace`. -/
structure Disk where
  fPruneMode : Bool
  checkDiskSpace : UInt64 → Bool

/-- The allocation of whole chunks at the end of both functions.  It fails where
the disk is full. -/
def preallocate (disk : Disk) (chunk nPos nNewSize : UInt32) (files : BlockFiles) :
    BlockFiles × Bool :=
  let nOldChunks := (nPos + chunk - 1) / chunk
  let nNewChunks := (nNewSize + chunk - 1) / chunk
  if nOldChunks < nNewChunks then
    ({ files with fCheckForPruning := files.fCheckForPruning || disk.fPruneMode },
      disk.checkDiskSpace (nNewChunks * chunk - nPos).toUInt64)
  else (files, true)

def markDirty (nFile : Nat) (files : BlockFiles) : BlockFiles :=
  { files with setDirtyFileInfo := files.setDirtyFileInfo.insert nFile }

/-- `FindBlockPos` with `fKnown`. -/
def findKnownBlockPos (pos : CDiskBlockPos) (nAddSize nHeight : UInt32) (nTime : UInt64)
    (files : BlockFiles) : Option BlockFiles := do
  let vinfoBlockFile := resizeFor pos.nFile files.vinfoBlockFile
  let file ← vinfoBlockFile[pos.nFile]?
  let stored :=
    { file.addBlock nHeight nTime with nSize := max (pos.nPos + nAddSize) file.nSize }
  pure (markDirty pos.nFile
    { files with
      vinfoBlockFile := vinfoBlockFile.set pos.nFile stored
      nLastBlockFile := pos.nFile })

/-- The part of `FindBlockPos` behind the search: the position, or `none` where
the disk is full. -/
def takeBlockPos (disk : Disk) (nAddSize nHeight : UInt32) (nTime : UInt64) (nFile : Nat)
    (file : CBlockFileInfo) (files : BlockFiles) : BlockFiles × Option CDiskBlockPos :=
  let stored := { file.addBlock nHeight nTime with nSize := file.nSize + nAddSize }
  let allocated :=
    preallocate disk BLOCKFILE_CHUNK_SIZE file.nSize stored.nSize
      { files with
        vinfoBlockFile := files.vinfoBlockFile.set nFile stored
        nLastBlockFile := nFile }
  if allocated.2 then (markDirty nFile allocated.1, some ⟨nFile, file.nSize⟩)
  else (allocated.1, none)

/-- `FindBlockPos` without `fKnown`. -/
def findBlockPos (disk : Disk) (nAddSize nHeight : UInt32) (nTime : UInt64) (files : BlockFiles) :
    Option (BlockFiles × Option CDiskBlockPos) := do
  let resized := resizeFor files.nLastBlockFile files.vinfoBlockFile
  let (nFile, vinfoBlockFile) ←
    searchFile nAddSize (resized.length + 1) files.nLastBlockFile resized
  let file ← vinfoBlockFile[nFile]?
  pure (takeBlockPos disk nAddSize nHeight nTime nFile file { files with vinfoBlockFile })

/-- `FindUndoPos` in a file. -/
def takeUndoPos (disk : Disk) (nFile : Nat) (nAddSize : UInt32) (file : CBlockFileInfo)
    (files : BlockFiles) : BlockFiles × Option CDiskBlockPos :=
  let stored := { file with nUndoSize := file.nUndoSize + nAddSize }
  let allocated :=
    preallocate disk UNDOFILE_CHUNK_SIZE file.nUndoSize stored.nUndoSize
      (markDirty nFile { files with vinfoBlockFile := files.vinfoBlockFile.set nFile stored })
  (allocated.1, if allocated.2 then some ⟨nFile, file.nUndoSize⟩ else none)

def findUndoPos (disk : Disk) (nFile : Nat) (nAddSize : UInt32) (files : BlockFiles) :
    Option (BlockFiles × Option CDiskBlockPos) := do
  let file ← files.vinfoBlockFile[nFile]?
  pure (takeUndoPos disk nFile nAddSize file files)

def calculateCurrentUsage (files : BlockFiles) : UInt64 :=
  (files.vinfoBlockFile.map CBlockFileInfo.usage).sum

end BlockFiles

/-- An entry of `mapBlockIndex` with the places of its data. -/
structure StoredIndex extends CBlockIndex where
  nDataPos : UInt32
  nUndoPos : UInt32
deriving DecidableEq, Repr

namespace StoredIndex

def pruned (pindex : StoredIndex) : StoredIndex :=
  { pindex with
    nStatus := { pindex.nStatus with haveData := false, haveUndo := false }
    nFile := 0
    nDataPos := 0
    nUndoPos := 0 }

end StoredIndex

structure BlockStore extends BlockFiles where
  mapBlockIndex : ExtTreeMap Uint256 StoredIndex
  mapBlocksUnlinked : List (Uint256 × Uint256)
  setDirtyBlockIndex : List Uint256

namespace BlockStore

/-- The entries whose data lies in a file. -/
def storedIn (fileNumber : Nat) (store : BlockStore) : List Uint256 :=
  store.mapBlockIndex.keys.filter fun hash =>
    store.mapBlockIndex[hash]?.any fun pindex => pindex.nFile == fileNumber

def pruneOneBlockFile (fileNumber : Nat) (store : BlockStore) : BlockStore :=
  let stored := store.storedIn fileNumber
  { store with
    mapBlockIndex := store.mapBlockIndex.map fun _ pindex =>
      if pindex.nFile = fileNumber then pindex.pruned else pindex
    setDirtyBlockIndex := stored ∪ store.setDirtyBlockIndex
    mapBlocksUnlinked := store.mapBlocksUnlinked.filter fun pair =>
      !(decide (pair.2 ∈ stored) &&
        store.mapBlockIndex[pair.2]?.any fun pindex => pindex.pprev == some pair.1)
    vinfoBlockFile := store.vinfoBlockFile.set fileNumber CBlockFileInfo.null
    setDirtyFileInfo := store.setDirtyFileInfo.insert fileNumber }

/-- What is fixed in one run of `FindFilesToPrune`. -/
structure PruneBounds where
  nPruneTarget : UInt64
  nLastBlockWeMustKeep : UInt32

/-- The room that is left for one more allocation. -/
def nBuffer : UInt64 := (BLOCKFILE_CHUNK_SIZE + UNDOFILE_CHUNK_SIZE).toUInt64

/-- The loop of `FindFilesToPrune` over the given files. -/
def pruneFiles (bounds : PruneBounds) :
    List Nat → UInt64 → BlockStore → BlockStore × List Nat
  | [], _, store => (store, [])
  | fileNumber :: rest, nCurrentUsage, store =>
      let file := store.vinfoBlockFile.getD fileNumber CBlockFileInfo.null
      if file.nSize = 0 then pruneFiles bounds rest nCurrentUsage store
      else if nCurrentUsage + nBuffer < bounds.nPruneTarget then (store, [])
      else if bounds.nLastBlockWeMustKeep < file.nHeightLast then (store, [])
      else
        let (after, setFilesToPrune) :=
          pruneFiles bounds rest (nCurrentUsage - file.usage) (store.pruneOneBlockFile fileNumber)
        (after, fileNumber :: setFilesToPrune)

/-- `FindFilesToPrune`, with the height of the tip. -/
def findFilesToPrune (network : Network) (nPruneTarget : UInt64) (tip : Option Nat)
    (store : BlockStore) : BlockStore × List Nat :=
  match tip with
  | none => (store, [])
  | some nHeight =>
      if nPruneTarget = 0 then (store, [])
      else if nHeight ≤ network.pruneAfterHeight then (store, [])
      else
        let nCurrentUsage := store.calculateCurrentUsage
        if nPruneTarget ≤ nCurrentUsage + nBuffer then
          pruneFiles ⟨nPruneTarget, UInt32.ofNat nHeight - MIN_BLOCKS_TO_KEEP⟩
            (List.range store.nLastBlockFile) nCurrentUsage store
        else (store, [])

end BlockStore

section Search

variable {nAddSize : UInt32} {nFile : Nat} {vinfoBlockFile : List CBlockFileInfo}

/-- A list of files with some fresh ones behind it. -/
def grown (vinfoBlockFile : List CBlockFileInfo) (count : Nat) : List CBlockFileInfo :=
  vinfoBlockFile ++ List.replicate count CBlockFileInfo.null

theorem getElem?_grown {count i : Nat} {file : CBlockFileInfo}
    (found : (grown vinfoBlockFile count)[i]? = some file) :
    vinfoBlockFile[i]? = some file ∨ (vinfoBlockFile.length ≤ i ∧ file = CBlockFileInfo.null) := by
  by_cases inside : i < vinfoBlockFile.length
  · rw [grown, List.getElem?_append_left inside] at found
    exact Or.inl found
  · have past := Nat.le_of_not_lt inside
    rw [grown, List.getElem?_append_right past, List.getElem?_replicate] at found
    split at found
    · exact Or.inr ⟨past, (Option.some.inj found).symm⟩
    · contradiction

theorem getElem?_grown_of_some {count i : Nat} {file : CBlockFileInfo}
    (found : vinfoBlockFile[i]? = some file) : (grown vinfoBlockFile count)[i]? = some file := by
  have inside := (List.getElem?_eq_some_iff.mp found).1
  rwa [grown, List.getElem?_append_left inside]

theorem grown_grown (count more : Nat) :
    grown (grown vinfoBlockFile count) more = grown vinfoBlockFile (count + more) := by
  rw [grown, grown, grown, List.append_assoc, List.replicate_append_replicate]

theorem searchFile_full {fuel : Nat} {file : CBlockFileInfo}
    (found : vinfoBlockFile[nFile]? = some file)
    (full : MAX_BLOCKFILE_SIZE ≤ file.nSize + nAddSize) :
    searchFile nAddSize (fuel + 1) nFile vinfoBlockFile =
      searchFile nAddSize fuel (nFile + 1) (resizeFor (nFile + 1) vinfoBlockFile) := by
  rw [searchFile, found, Option.bind_eq_bind, Option.bind_some, if_pos full]

theorem searchFile_room {fuel : Nat} {file : CBlockFileInfo}
    (found : vinfoBlockFile[nFile]? = some file)
    (room : file.nSize + nAddSize < MAX_BLOCKFILE_SIZE) :
    searchFile nAddSize (fuel + 1) nFile vinfoBlockFile = some (nFile, vinfoBlockFile) := by
  rw [searchFile, found, Option.bind_eq_bind, Option.bind_some, if_neg (UInt32.not_le.mpr room)]

theorem resizeFor_eq_grown (nFile : Nat) (vinfoBlockFile : List CBlockFileInfo) :
    resizeFor nFile vinfoBlockFile = grown vinfoBlockFile (nFile + 1 - vinfoBlockFile.length) := rfl

theorem grown_zero : grown vinfoBlockFile 0 = vinfoBlockFile := List.append_nil _

theorem room_in_null (small : nAddSize < MAX_BLOCKFILE_SIZE) :
    CBlockFileInfo.null.nSize + nAddSize < MAX_BLOCKFILE_SIZE := by
  have empty : CBlockFileInfo.null.nSize = 0 := rfl
  rw [empty, UInt32.zero_add]
  exact small

/-- The search ends, with a file that has room, and at most makes new files. -/
theorem searchFile_spec (small : nAddSize < MAX_BLOCKFILE_SIZE) {fuel : Nat}
    (inside : nFile < vinfoBlockFile.length) (enough : vinfoBlockFile.length + 1 ≤ fuel + nFile) :
    ∃ last count file, searchFile nAddSize fuel nFile vinfoBlockFile =
        some (last, grown vinfoBlockFile count) ∧
      (grown vinfoBlockFile count)[last]? = some file ∧
      file.nSize + nAddSize < MAX_BLOCKFILE_SIZE := by
  induction fuel generalizing nFile vinfoBlockFile with
  | zero => omega
  | succ fuel ih =>
      obtain ⟨file, found⟩ : ∃ file, vinfoBlockFile[nFile]? = some file :=
        ⟨_, List.getElem?_eq_getElem inside⟩
      by_cases room : file.nSize + nAddSize < MAX_BLOCKFILE_SIZE
      · rw [searchFile_room found room]
        exact ⟨nFile, 0, file, by rw [grown_zero], by rwa [grown_zero], room⟩
      · rw [searchFile_full found (UInt32.not_lt.mp room), resizeFor_eq_grown]
        by_cases more : nFile + 1 < vinfoBlockFile.length
        · have none : nFile + 1 + 1 - vinfoBlockFile.length = 0 := by omega
          rw [none, grown_zero]
          exact ih more (by omega)
        · have one : nFile + 1 + 1 - vinfoBlockFile.length = 1 := by omega
          have fresh : (grown vinfoBlockFile 1)[nFile + 1]? = some CBlockFileInfo.null := by
            have first : nFile + 1 - vinfoBlockFile.length = 0 := by omega
            rw [grown, List.getElem?_append_right (by omega), first]
            rfl
          obtain ⟨rest, rfl⟩ : ∃ rest, fuel = rest + 1 := ⟨fuel - 1, by omega⟩
          rw [one, searchFile_room fresh (room_in_null small)]
          exact ⟨nFile + 1, 1, CBlockFileInfo.null, rfl, fresh, room_in_null small⟩

end Search

namespace BlockFiles

variable {files after : BlockFiles} {disk : Disk} {nAddSize nHeight : UInt32} {nTime : UInt64}
  {nFile : Nat}

@[simp] theorem vinfoBlockFile_preallocate (chunk nPos nNewSize : UInt32) :
    (preallocate disk chunk nPos nNewSize files).1.vinfoBlockFile = files.vinfoBlockFile := by
  rw [preallocate]
  split <;> rfl

@[simp] theorem vinfoBlockFile_markDirty :
    (markDirty nFile files).vinfoBlockFile = files.vinfoBlockFile := rfl

theorem takeBlockPos_spec (file : CBlockFileInfo) :
    (takeBlockPos disk nAddSize nHeight nTime nFile file files).1.vinfoBlockFile =
        files.vinfoBlockFile.set nFile
          { file.addBlock nHeight nTime with nSize := file.nSize + nAddSize } ∧
      ∀ pos ∈ (takeBlockPos disk nAddSize nHeight nTime nFile file files).2,
        pos = ⟨nFile, file.nSize⟩ := by
  have kept := @vinfoBlockFile_preallocate
    { files with
      vinfoBlockFile := files.vinfoBlockFile.set nFile
        { file.addBlock nHeight nTime with nSize := file.nSize + nAddSize }
      nLastBlockFile := nFile } disk BLOCKFILE_CHUNK_SIZE file.nSize (file.nSize + nAddSize)
  rw [takeBlockPos]
  generalize preallocate disk BLOCKFILE_CHUNK_SIZE file.nSize _ _ = allocated at kept ⊢
  obtain ⟨after, enough⟩ := allocated
  cases enough with
  | true => exact ⟨kept, fun pos member => (Option.some.inj member).symm⟩
  | false => exact ⟨kept, fun pos member => by contradiction⟩

theorem takeUndoPos_spec (file : CBlockFileInfo) :
    (takeUndoPos disk nFile nAddSize file files).1.vinfoBlockFile =
        files.vinfoBlockFile.set nFile { file with nUndoSize := file.nUndoSize + nAddSize } ∧
      ∀ pos ∈ (takeUndoPos disk nFile nAddSize file files).2, pos = ⟨nFile, file.nUndoSize⟩ := by
  have kept := @vinfoBlockFile_preallocate
    (markDirty nFile
      { files with
        vinfoBlockFile := files.vinfoBlockFile.set nFile
          { file with nUndoSize := file.nUndoSize + nAddSize } })
    disk UNDOFILE_CHUNK_SIZE file.nUndoSize (file.nUndoSize + nAddSize)
  rw [takeUndoPos]
  generalize preallocate disk UNDOFILE_CHUNK_SIZE file.nUndoSize _ _ = allocated at kept ⊢
  obtain ⟨after, enough⟩ := allocated
  cases enough with
  | true => exact ⟨kept, fun pos member => (Option.some.inj member).symm⟩
  | false => exact ⟨kept, fun pos member => by contradiction⟩

theorem findKnownBlockPos_spec {pos : CDiskBlockPos} {after : BlockFiles}
    (returned : findKnownBlockPos pos nAddSize nHeight nTime files = some after) :
    ∃ file, (grown files.vinfoBlockFile
        (pos.nFile + 1 - files.vinfoBlockFile.length))[pos.nFile]? = some file ∧
      after.vinfoBlockFile = (grown files.vinfoBlockFile
        (pos.nFile + 1 - files.vinfoBlockFile.length)).set pos.nFile
          { file.addBlock nHeight nTime with nSize := max (pos.nPos + nAddSize) file.nSize } := by
  rw [findKnownBlockPos, resizeFor_eq_grown] at returned
  obtain ⟨file, found, stored⟩ := Option.bind_eq_some_iff.mp returned
  refine ⟨file, found, ?_⟩
  rw [← Option.some.inj stored]
  rfl

/-- What `FindBlockPos` does: it takes room in a file of the list, or in a fresh
one. -/
theorem findBlockPos_spec (disk : Disk) (nHeight : UInt32) (nTime : UInt64)
    (small : nAddSize < MAX_BLOCKFILE_SIZE) (files : BlockFiles) :
    ∃ nFile count file,
      findBlockPos disk nAddSize nHeight nTime files =
        some (takeBlockPos disk nAddSize nHeight nTime nFile file
          { files with vinfoBlockFile := grown files.vinfoBlockFile count }) ∧
      (grown files.vinfoBlockFile count)[nFile]? = some file ∧
      file.nSize + nAddSize < MAX_BLOCKFILE_SIZE := by
  have inside : files.nLastBlockFile < (grown files.vinfoBlockFile
      (files.nLastBlockFile + 1 - files.vinfoBlockFile.length)).length := by
    rw [grown, List.length_append, List.length_replicate]
    omega
  obtain ⟨nFile, count, file, searched, found, room⟩ := searchFile_spec small inside
    (Nat.le_add_right _ _)
  rw [grown_grown] at searched found
  refine ⟨nFile, _, file, ?_, found, room⟩
  rw [findBlockPos, resizeFor_eq_grown, searched, Option.bind_eq_bind, Option.bind_some]
  simp only [found, Option.bind_eq_bind, Option.bind_some]
  rfl

end BlockFiles

namespace BlockStore

section Pruning

variable {bounds : PruneBounds} {fileNumbers : List Nat} {nCurrentUsage : UInt64}
  {store : BlockStore}

/-- One turn of the loop of `FindFilesToPrune`. -/
theorem pruneFiles_cons (fileNumber : Nat) :
    (pruneFiles bounds (fileNumber :: fileNumbers) nCurrentUsage store =
        pruneFiles bounds fileNumbers nCurrentUsage store ∧
      (store.vinfoBlockFile.getD fileNumber CBlockFileInfo.null).nSize = 0) ∨
    (pruneFiles bounds (fileNumber :: fileNumbers) nCurrentUsage store = (store, []) ∧
      (store.vinfoBlockFile.getD fileNumber CBlockFileInfo.null).nSize ≠ 0 ∧
      (nCurrentUsage + nBuffer < bounds.nPruneTarget ∨
        bounds.nLastBlockWeMustKeep <
          (store.vinfoBlockFile.getD fileNumber CBlockFileInfo.null).nHeightLast)) ∨
    ∃ after setFilesToPrune,
      pruneFiles bounds fileNumbers
          (nCurrentUsage - (store.vinfoBlockFile.getD fileNumber CBlockFileInfo.null).usage)
          (store.pruneOneBlockFile fileNumber) = (after, setFilesToPrune) ∧
      pruneFiles bounds (fileNumber :: fileNumbers) nCurrentUsage store =
        (after, fileNumber :: setFilesToPrune) ∧
      (store.vinfoBlockFile.getD fileNumber CBlockFileInfo.null).nSize ≠ 0 ∧
      (store.vinfoBlockFile.getD fileNumber CBlockFileInfo.null).nHeightLast ≤
        bounds.nLastBlockWeMustKeep := by
  rw [pruneFiles]
  by_cases empty : (store.vinfoBlockFile.getD fileNumber CBlockFileInfo.null).nSize = 0
  · exact Or.inl ⟨if_pos empty, empty⟩
  right
  by_cases below : nCurrentUsage + nBuffer < bounds.nPruneTarget
  · exact Or.inl ⟨by rw [if_neg empty, if_pos below], empty, Or.inl below⟩
  by_cases keep : bounds.nLastBlockWeMustKeep <
      (store.vinfoBlockFile.getD fileNumber CBlockFileInfo.null).nHeightLast
  · exact Or.inl ⟨by rw [if_neg empty, if_neg below, if_pos keep], empty, Or.inr keep⟩
  right
  refine ⟨_, _, rfl, ?_, empty, UInt32.not_lt.mp keep⟩
  rw [if_neg empty, if_neg below, if_neg keep]

theorem vinfoBlockFile_pruneOneBlockFile (fileNumber : Nat) :
    (store.pruneOneBlockFile fileNumber).vinfoBlockFile =
      store.vinfoBlockFile.set fileNumber CBlockFileInfo.null := rfl

theorem getD_set_null {vinfoBlockFile : List CBlockFileInfo} {i fileNumber : Nat} :
    (vinfoBlockFile.set fileNumber CBlockFileInfo.null).getD i CBlockFileInfo.null =
      if i = fileNumber then CBlockFileInfo.null else vinfoBlockFile.getD i CBlockFileInfo.null := by
  by_cases same : i = fileNumber
  · subst same
    rw [if_pos rfl, List.getD_eq_getElem?_getD, List.getElem?_set_self']
    cases vinfoBlockFile[i]? <;> rfl
  · rw [if_neg same, List.getD_eq_getElem?_getD, List.getElem?_set_ne (Ne.symm same),
      List.getD_eq_getElem?_getD]

end Pruning

end BlockStore

end Lycancoin
