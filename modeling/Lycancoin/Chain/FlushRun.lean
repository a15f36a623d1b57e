import Lycancoin.Chain.DirtyMarks

namespace Lycancoin

open Std Lycancoin.Data

def filesChanged (before after : BlockFiles) : List Nat :=
  (List.range (max before.vinfoBlockFile.length after.vinfoBlockFile.length)).filter fun nFile =>
    before.fileInfo nFile ≠ after.fileInfo nFile

theorem filesChanged_congr (before : BlockFiles) {after other : BlockFiles}
    (same : after.vinfoBlockFile = other.vinfoBlockFile) :
    filesChanged before after = filesChanged before other := by
  have info : after.fileInfo = other.fileInfo := by
    funext nFile
    rw [BlockFiles.fileInfo, BlockFiles.fileInfo, same]
  rw [filesChanged, filesChanged, same, info]

def changedInfo (changedFiles : List Nat) (files : BlockFiles) (nFile : Nat) :
    Option CBlockFileInfo :=
  if nFile ∈ changedFiles then files.vinfoBlockFile[nFile]? else none

/-- A run of the node, with the files whose entry was changed since it started. -/
structure FlushRun where
  state : FlushState
  changedFiles : List Nat

namespace FlushRun

def step (call : FlushCall) (run : FlushRun) : Option FlushRun :=
  (run.state.step call).map fun state =>
    { state
      changedFiles := run.changedFiles ++
        filesChanged run.state.store.toBlockFiles state.store.toBlockFiles }

/-- A call that does not lose what is dirty, nor changes anything without a mark: a
failing `WriteBatchSync` has nothing to write, `FindBlockPos` does not run out of disk
space, and no entry that is clean is marked as a failed candidate for the first time. -/
def Spares (run : FlushRun) : FlushCall → Prop
  | .acceptBlock _ _ disk nAddSize nTime _ => ∀ nHeight files,
      run.state.store.findBlockPos disk nAddSize nHeight nTime ≠ some (files, none)
  | .failCandidate hash => hash ∈ run.state.store.setDirtyBlockIndex ∨
      ∀ pindex, run.state.store.mapBlockIndex[hash]? = some pindex →
        pindex.nStatus.failedChild = true
  | .flush around _ => around.writeBatchSync = .done ∨
      (run.state.chooseFiles around).1.store.setDirtyFileInfo = [] ∧
        (run.state.chooseFiles around).1.store.setDirtyBlockIndex = []
  | _ => True

inductive Reaches (first : FlushRun) : FlushRun → Prop
  | first : Reaches first first
  | step {run after : FlushRun} {call : FlushCall} : Reaches first run → run.Spares call →
      run.step call = some after → Reaches first after

/-- A node after it has loaded its block index: the entries in memory are those in the
database, and so are those of the files. -/
structure Loaded (run : FlushRun) : Prop where
  index : ∀ (hash : Uint256) (pindex : StoredIndex),
    run.state.store.mapBlockIndex[hash]? = some pindex →
      run.state.pblocktree.blockIndex[hash]? = some (.ofIndex pindex)
  unchanged : run.changedFiles = []
  hashBlock : run.state.hashBlock = Uint256.null ∨
    run.state.hashBlock ∈ run.state.store.mapBlockIndex
  hashBestChain : ∀ hash, run.state.hashBestChain = some hash →
    hash ∈ run.state.pblocktree.blockIndex

/-- What is not dirty is in the database. -/
structure Kept (changedFiles : List Nat) (state : FlushState) : Prop where
  index : Backed state.store.indexRecord {hash | hash ∈ state.store.setDirtyBlockIndex}
    fun hash => state.pblocktree.blockIndex[hash]?
  files : Backed (changedInfo changedFiles state.store.toBlockFiles)
    {nFile | nFile ∈ state.store.setDirtyFileInfo} fun nFile => state.pblocktree.blockFiles[nFile]?
  inside : ∀ nFile ∈ changedFiles, nFile < state.store.vinfoBlockFile.length
  hashBlock : state.hashBlock = Uint256.null ∨ state.hashBlock ∈ state.store.mapBlockIndex
  hashBestChain : ∀ hash, state.hashBestChain = some hash → hash ∈ state.pblocktree.blockIndex

theorem Loaded.kept {run : FlushRun} (loaded : Loaded run) : Kept run.changedFiles run.state where
  index := by
    intro hash record present _
    obtain ⟨pindex, found, rfl⟩ := Option.map_eq_some_iff.mp present
    exact loaded.index hash pindex found
  files := by
    intro nFile file present _
    rw [loaded.unchanged, changedInfo, if_neg List.not_mem_nil] at present
    contradiction
  inside := by
    rw [loaded.unchanged]
    exact fun _ => nofun
  hashBlock := loaded.hashBlock
  hashBestChain := loaded.hashBestChain

variable {changedFiles : List Nat} {state : FlushState}

theorem getElem?_of_same {before after : BlockFiles} {nFile : Nat}
    (grows : before.vinfoBlockFile.length ≤ after.vinfoBlockFile.length)
    (same : after.fileInfo nFile = before.fileInfo nFile)
    (inside : nFile < before.vinfoBlockFile.length) :
    after.vinfoBlockFile[nFile]? = before.vinfoBlockFile[nFile]? := by
  have insideAfter : nFile < after.vinfoBlockFile.length := inside.trans_le grows
  rw [BlockFiles.fileInfo, BlockFiles.fileInfo, List.getD_eq_getElem?_getD,
    List.getD_eq_getElem?_getD, List.getElem?_eq_getElem inside,
    List.getElem?_eq_getElem insideAfter] at same
  rw [List.getElem?_eq_getElem inside, List.getElem?_eq_getElem insideAfter]
  exact congrArg some same

theorem Kept.marked (kept : Kept changedFiles state) {store : BlockStore}
    (marked : state.store.Marked store) :
    Kept (changedFiles ++ filesChanged state.store.toBlockFiles store.toBlockFiles)
      { state with store } where
  index := kept.index.marks marked.index
  files := by
    intro nFile file present clean
    obtain ⟨cleanBefore, same⟩ := marked.files.marks nFile clean
    rw [changedInfo] at present
    split_ifs at present with changed
    have before : nFile ∈ changedFiles := by
      rcases List.mem_append.mp changed with old | new
      · exact old
      · have differs := (List.mem_filter.mp new).2
        rw [decide_eq_true_eq] at differs
        exact absurd same.symm differs
    refine kept.files nFile file ?_ cleanBefore
    rw [changedInfo, if_pos before, ← getElem?_of_same marked.files.grows same (kept.inside nFile before)]
    exact present
  inside := by
    intro nFile changed
    rcases List.mem_append.mp changed with old | new
    · exact (kept.inside nFile old).trans_le marked.files.grows
    · have within := List.mem_range.mp (List.mem_filter.mp new).1
      exact within.trans_le (max_le marked.files.grows le_rfl)
  hashBlock := kept.hashBlock.imp id (marked.present _)
  hashBestChain := kept.hashBestChain

theorem blockFiles_indexWritten (state : FlushState) (nFile : Nat) :
    state.indexWritten.pblocktree.blockFiles[nFile]? =
      if nFile ∈ state.store.setDirtyFileInfo then some (state.store.fileInfo nFile)
      else state.pblocktree.blockFiles[nFile]? := by
  have written := KeyedBatch.getElem?_foldl_insert_graph Prod.fst Prod.snd
    state.pblocktree.blockFiles (FlushState.vFiles state.store)
    (fun nFile => some (state.store.fileInfo nFile)) (by
      intro file member
      obtain ⟨nFile, _, rfl⟩ := List.mem_map.mp member
      rfl) nFile
  have keys : (FlushState.vFiles state.store).map Prod.fst = state.store.setDirtyFileInfo := by
    rw [FlushState.vFiles, List.map_map]
    exact List.map_id _
  rw [keys] at written
  exact written

theorem blockIndex_indexWritten (state : FlushState) (hash : Uint256) :
    state.indexWritten.pblocktree.blockIndex[hash]? =
      if hash ∈ (FlushState.vBlocks state.store).map Prod.fst then state.store.indexRecord hash
      else state.pblocktree.blockIndex[hash]? := by
  refine KeyedBatch.getElem?_foldl_insert_graph Prod.fst (fun block => .ofIndex block.2)
    state.pblocktree.blockIndex (FlushState.vBlocks state.store) _ ?_ hash
  intro block member
  obtain ⟨hash, _, isBlock⟩ := List.mem_filterMap.mp member
  obtain ⟨pindex, found, rfl⟩ := Option.map_eq_some_iff.mp isBlock
  rw [BlockStore.indexRecord, found]
  rfl

theorem mem_vBlocks (store : BlockStore) (hash : Uint256) :
    hash ∈ (FlushState.vBlocks store).map Prod.fst ↔
      hash ∈ store.setDirtyBlockIndex ∧ hash ∈ store.mapBlockIndex := by
  constructor
  · intro member
    obtain ⟨block, listed, rfl⟩ := List.mem_map.mp member
    obtain ⟨hash, dirty, isBlock⟩ := List.mem_filterMap.mp listed
    obtain ⟨pindex, found, rfl⟩ := Option.map_eq_some_iff.mp isBlock
    exact ⟨dirty, ExtTreeMap.mem_iff_isSome_getElem?.mpr (by rw [found]; rfl)⟩
  · rintro ⟨dirty, present⟩
    obtain ⟨pindex, found⟩ :=
      Option.isSome_iff_exists.mp (ExtTreeMap.mem_iff_isSome_getElem?.mp present)
    refine List.mem_map.mpr ⟨(hash, pindex), List.mem_filterMap.mpr ⟨hash, dirty, ?_⟩, rfl⟩
    rw [found]
    rfl

/-- After `WriteBatchSync` everything is in the database. -/
theorem Kept.indexWritten (kept : Kept changedFiles state) : Kept changedFiles state.indexWritten where
  index := by
    have written := kept.index.write (fun hash =>
      state.indexWritten.pblocktree.blockIndex[hash]?) (fun hash dirty record present => ?_)
      (fun hash clean => ?_)
    · exact fun hash record present _ => written.stored present
    · rw [blockIndex_indexWritten, if_pos]
      · exact present
      · obtain ⟨pindex, found, _⟩ := Option.map_eq_some_iff.mp present
        exact (mem_vBlocks _ _).mpr
          ⟨dirty, ExtTreeMap.mem_iff_isSome_getElem?.mpr (by rw [found]; rfl)⟩
    · rw [blockIndex_indexWritten, if_neg]
      exact fun listed => clean ((mem_vBlocks _ _).mp listed).1
  files := by
    have written := kept.files.write (fun nFile =>
      state.indexWritten.pblocktree.blockFiles[nFile]?) (fun nFile dirty file present => ?_)
      (fun nFile clean => ?_)
    · exact fun nFile file present _ => written.stored present
    · rw [blockFiles_indexWritten, if_pos (show nFile ∈ state.store.setDirtyFileInfo from dirty)]
      rw [changedInfo] at present
      split_ifs at present
      rw [BlockFiles.fileInfo, List.getD_eq_getElem?_getD, present]
      rfl
    · rw [blockFiles_indexWritten, if_neg (show nFile ∉ state.store.setDirtyFileInfo from clean)]
  inside := kept.inside
  hashBlock := kept.hashBlock
  hashBestChain := by
    intro hash best
    have present := kept.hashBestChain hash best
    rw [ExtTreeMap.mem_iff_isSome_getElem?] at present ⊢
    rw [blockIndex_indexWritten]
    split_ifs with written
    · obtain ⟨pindex, found⟩ := Option.isSome_iff_exists.mp
        (ExtTreeMap.mem_iff_isSome_getElem?.mp ((mem_vBlocks _ _).mp written).2)
      rw [BlockStore.indexRecord, found]
      rfl
    · exact present

/-- Behind `WriteBatchSync` the coins may name their best block. -/
theorem Kept.coinsWritten (kept : Kept changedFiles state)
    (clean : state.store.setDirtyBlockIndex = []) : Kept changedFiles state.coinsWritten where
  index := kept.index
  files := kept.files
  inside := kept.inside
  hashBlock := kept.hashBlock
  hashBestChain := by
    intro hash best
    rw [FlushState.coinsWritten] at best
    simp only at best
    split_ifs at best with isNull
    · exact kept.hashBestChain hash best
    · cases best
      have present := kept.hashBlock.resolve_left isNull
      obtain ⟨pindex, found⟩ := Option.isSome_iff_exists.mp
        (ExtTreeMap.mem_iff_isSome_getElem?.mp present)
      have record : state.store.indexRecord state.hashBlock = some (.ofIndex pindex) := by
        rw [BlockStore.indexRecord, found]
        rfl
      have stored : state.pblocktree.blockIndex[state.hashBlock]? = some (.ofIndex pindex) :=
        kept.index _ _ record (by rw [clean]; exact List.not_mem_nil)
      refine ExtTreeMap.mem_iff_isSome_getElem?.mpr ?_
      change state.pblocktree.blockIndex[state.hashBlock]?.isSome = true
      rw [stored]
      rfl

def Clean (state : FlushState) : Prop :=
  state.store.setDirtyFileInfo = [] ∧ state.store.setDirtyBlockIndex = []

theorem Kept.write (kept : Kept changedFiles state) {around : FlushSurroundings}
    (spares : around.writeBatchSync = .done ∨ Clean state) (fFlushForPrune : Bool) :
    Kept changedFiles (state.write around fFlushForPrune).1 ∧
      (state.write around fFlushForPrune).1.store.vinfoBlockFile = state.store.vinfoBlockFile ∧
      ((state.write around fFlushForPrune).2 = .written →
        Clean (state.write around fFlushForPrune).1) := by
  have written := kept.indexWritten
  have coins := written.coinsWritten rfl
  rw [FlushState.write]
  by_cases noSpace : (!around.checkDiskSpace) = true
  · rw [if_pos noSpace]
    exact ⟨kept, rfl, nofun⟩
  rw [if_neg noSpace]
  by_cases fails : around.writeBatchSync ≠ .done
  · rw [if_pos fails]
    obtain ⟨noFiles, noBlocks⟩ := spares.resolve_left fails
    have same : state.drained = { state with
        store := { state.store with
          setDirtyFileInfo := state.store.setDirtyFileInfo
          setDirtyBlockIndex := state.store.setDirtyBlockIndex } } := by
      rw [noFiles, noBlocks]
      rfl
    rw [same]
    exact ⟨kept, rfl, nofun⟩
  rw [if_neg fails]
  by_cases coinsFail : around.flushCoins ≠ .done
  · rw [if_pos coinsFail]
    exact ⟨written, rfl, nofun⟩
  rw [if_neg coinsFail]
  simp only
  split_ifs
  · exact ⟨coins, rfl, nofun⟩
  · exact ⟨⟨coins.index, coins.files, coins.inside, coins.hashBlock, coins.hashBestChain⟩, rfl,
      fun _ => ⟨rfl, rfl⟩⟩
  · exact ⟨coins, rfl, fun _ => ⟨rfl, rfl⟩⟩

theorem marked_chooseFiles (around : FlushSurroundings) (state : FlushState) :
    ∃ store setFilesToPrune,
      state.chooseFiles around = ({ state with store }, setFilesToPrune) ∧
        state.store.Marked store := by
  rw [FlushState.chooseFiles]
  split_ifs
  · exact ⟨_, _, rfl, BlockStore.marked_findFilesToPrune _ _ _ _⟩
  · exact ⟨state.store, _, rfl, .refl _⟩

/-- `FlushStateToDisk` keeps what is dirty, and when it has written, nothing is. -/
theorem Kept.flush (kept : Kept changedFiles state) {around : FlushSurroundings}
    (spares : around.writeBatchSync = .done ∨ Clean (state.chooseFiles around).1)
    (mode : FlushStateMode) :
    Kept (changedFiles ++ filesChanged state.store.toBlockFiles
        (state.flushStateToDisk around mode).1.store.toBlockFiles)
      (state.flushStateToDisk around mode).1 ∧
    ((state.flushStateToDisk around mode).2 = .written →
      Clean (state.flushStateToDisk around mode).1) := by
  obtain ⟨store, setFilesToPrune, chosen, marked⟩ := marked_chooseFiles around state
  rw [chosen] at spares
  have keptChosen := kept.marked marked
  rw [FlushState.flushStateToDisk, chosen]
  simp only
  by_cases flagFails : (!setFilesToPrune.isEmpty && !state.fHavePruned &&
      decide (around.writeFlag = .exception)) = true
  · rw [if_pos flagFails]
    exact ⟨keptChosen, nofun⟩
  rw [if_neg flagFails]
  obtain ⟨flagged, isFlagged⟩ : ∃ flagged, flagged =
    if (!setFilesToPrune.isEmpty && !state.fHavePruned) = true then
      FlushState.writePrunedFlag around { state with store } else { state with store } := ⟨_, rfl⟩
  have keptFlagged : Kept (changedFiles ++
      filesChanged state.store.toBlockFiles store.toBlockFiles) flagged := by
    rw [isFlagged]
    split_ifs
    · rw [FlushState.writePrunedFlag]
      split_ifs <;>
        exact ⟨keptChosen.index, keptChosen.files, keptChosen.inside, keptChosen.hashBlock,
          keptChosen.hashBestChain⟩
    · exact keptChosen
  have sameStore : flagged.store = store := by
    rw [isFlagged]
    split_ifs <;> rfl
  rw [← isFlagged]
  split_ifs
  · have spares : around.writeBatchSync = .done ∨ Clean flagged := by
      rw [Clean, sameStore]
      exact spares
    obtain ⟨keptWritten, sameFiles, clean⟩ := keptFlagged.write spares (!setFilesToPrune.isEmpty)
    rw [sameStore] at sameFiles
    refine ⟨?_, clean⟩
    rw [filesChanged_congr _ sameFiles]
    exact keptWritten
  · refine ⟨?_, nofun⟩
    rw [sameStore]
    exact keptFlagged

theorem Kept.step {run after : FlushRun} {call : FlushCall} (kept : Kept run.changedFiles run.state)
    (spares : run.Spares call) (ran : run.step call = some after) :
    Kept after.changedFiles after.state := by
  obtain ⟨state, stepped, rfl⟩ := Option.map_eq_some_iff.mp ran
  cases call with
  | addToBlockIndex hash pindexNew =>
      cases stepped
      exact kept.marked (FlushState.marked_addToBlockIndex hash pindexNew _)
  | acceptBlock hash nTx disk nAddSize nTime fWritten =>
      obtain ⟨store, accepted, rfl⟩ := Option.map_eq_some_iff.mp stepped
      exact kept.marked (FlushState.marked_acceptBlock accepted spares)
  | acceptKnownBlock hash nTx pos nAddSize nTime =>
      obtain ⟨store, accepted, rfl⟩ := Option.map_eq_some_iff.mp stepped
      exact kept.marked (FlushState.marked_acceptKnownBlock accepted)
  | linkBlock hash nChainTx nSequenceId =>
      cases stepped
      exact kept.marked (BlockStore.marked_unstored hash _ fun _ _ _ => rfl)
  | connectBlock hash disk nAddSize fWritten =>
      obtain ⟨store, connected, rfl⟩ := Option.map_eq_some_iff.mp stepped
      exact kept.marked (FlushState.marked_connectBlock connected)
  | setFailedValid hash =>
      cases stepped
      exact kept.marked (BlockStore.marked_editDirty hash _ _)
  | setFailedChild hash =>
      cases stepped
      exact kept.marked (BlockStore.marked_editDirty hash _ _)
  | clearFailed hash =>
      cases stepped
      exact kept.marked (BlockStore.marked_editDirty hash _ _)
  | failCandidate hash =>
      cases stepped
      refine kept.marked (BlockStore.marked_unstored hash _ fun pindex found clean => ?_)
      have already := spares.resolve_left clean pindex found
      have same : { pindex with nStatus := { pindex.nStatus with failedChild := true } } = pindex := by
        rw [← already]
      rw [same]
  | setBestBlock hash =>
      rw [FlushState.step] at stepped
      split_ifs at stepped with present
      cases stepped
      have kept := kept.marked (.refl _)
      exact ⟨kept.index, kept.files, kept.inside, Or.inr present, kept.hashBestChain⟩
  | checkForPruning =>
      cases stepped
      exact kept.marked ⟨⟨le_rfl, .refl _ _⟩, .refl _ _, fun _ => id⟩
  | flush around mode =>
      cases stepped
      exact (kept.flush spares mode).1

theorem Reaches.kept {first run : FlushRun} (loaded : Loaded first) (reached : Reaches first run) :
    Kept run.changedFiles run.state := by
  induction reached with
  | first => exact loaded.kept
  | step _ spares ran ih => exact ih.step spares ran

/-- As long as nothing that is dirty is lost or left without a mark, the best block of
the coins database has a record in the block index database, and a flush that has
written leaves every entry of the index and every changed entry of a file as in
memory. -/
theorem flush_writes_changes (first : FlushRun) (loaded : Loaded first) (run : FlushRun)
    (reached : Reaches first run) :
    (∀ hash, run.state.hashBestChain = some hash → hash ∈ run.state.pblocktree.blockIndex) ∧
    ∀ (around : FlushSurroundings) (mode : FlushStateMode) (after : FlushRun),
      run.Spares (.flush around mode) → run.step (.flush around mode) = some after →
      (run.state.flushStateToDisk around mode).2 = .written →
        (∀ (hash : Uint256) (pindex : StoredIndex),
          after.state.store.mapBlockIndex[hash]? = some pindex →
            after.state.pblocktree.blockIndex[hash]? = some (.ofIndex pindex)) ∧
        ∀ nFile ∈ after.changedFiles, ∃ file,
          after.state.store.vinfoBlockFile[nFile]? = some file ∧
            after.state.pblocktree.blockFiles[nFile]? = some file := by
  have kept := reached.kept loaded
  refine ⟨kept.hashBestChain, fun around mode after spares ran written => ?_⟩
  obtain ⟨keptAfter, clean⟩ := kept.flush spares mode
  cases ran
  obtain ⟨noFiles, noBlocks⟩ := clean written
  constructor
  · intro hash pindex found
    have record : (run.state.flushStateToDisk around mode).1.store.indexRecord hash =
        some (.ofIndex pindex) := by
      rw [BlockStore.indexRecord, found]
      rfl
    exact keptAfter.index hash _ record (by rw [noBlocks]; exact List.not_mem_nil)
  · intro nFile changed
    have inside := keptAfter.inside nFile changed
    refine ⟨_, List.getElem?_eq_getElem inside, ?_⟩
    refine keptAfter.files nFile _ ?_ (by rw [noFiles]; exact List.not_mem_nil)
    rw [changedInfo, if_pos changed]
    exact List.getElem?_eq_getElem inside

/-- A node that knows no block. -/
def empty : FlushRun where
  state :=
    { store := BlockStore.start
      fHavePruned := false
      pblocktree := { blockFiles := ∅, lastBlock := none, blockIndex := ∅, prunedBlockFiles := false }
      hashBlock := Uint256.null
      hashBestChain := none }
  changedFiles := []

theorem loaded_empty : Loaded empty where
  index := by
    intro hash pindex found
    have unknown : empty.state.store.mapBlockIndex[hash]? = none := ExtTreeMap.getElem?_empty
    rw [unknown] at found
    contradiction
  unchanged := rfl
  hashBlock := Or.inl rfl
  hashBestChain := by
    intro hash best
    contradiction

/-- A call in which `WriteBatchSync` ends as given, and all else is well. -/
def surroundings (writeBatchSync : WriteOutcome) : FlushSurroundings where
  fPruneMode := false
  network := .main
  nPruneTarget := 0
  tip := none
  fCacheFull := false
  fWriteDue := false
  checkDiskSpace := true
  writeFlag := .done
  writeBatchSync := writeBatchSync
  flushCoins := .done
  unlinkPrunedFiles := .done

def sampleIndex : StoredIndex :=
  { CBlockIndex.ofHeader ⟨1, 0, 0, 0, 0, 0⟩ with nDataPos := 0, nUndoPos := 0 }

/-- One block in memory, and none in the block index database. -/
def oneBlock (setDirtyBlockIndex : List Uint256) (hashBlock : Uint256) (lastBlock : Option Nat)
    (hashBestChain : Option Uint256) : FlushRun where
  state :=
    { store := { BlockStore.start with
        mapBlockIndex := (∅ : ExtTreeMap Uint256 StoredIndex).insert 1 sampleIndex
        setDirtyBlockIndex }
      fHavePruned := false
      pblocktree := { blockFiles := ∅, lastBlock, blockIndex := ∅, prunedBlockFiles := false }
      hashBlock
      hashBestChain }
  changedFiles := []

theorem step_addToBlockIndex :
    empty.step (.addToBlockIndex 1 sampleIndex) = some (oneBlock [1] Uint256.null none none) := by
  have absent : (1 : Uint256) ∉ empty.state.store.mapBlockIndex := ExtTreeMap.not_mem_empty
  rw [step, FlushState.step, FlushState.addToBlockIndex, if_neg absent]
  rfl

theorem step_setBestBlock :
    (oneBlock [1] Uint256.null none none).step (.setBestBlock 1) = some (oneBlock [1] 1 none none) := by
  have present : (1 : Uint256) ∈ (oneBlock [1] Uint256.null none none).state.store.mapBlockIndex :=
    ExtTreeMap.mem_insert_self
  rw [step, FlushState.step, if_pos present]
  rfl

theorem flush_writes_changes_addToBlockIndex :
    ∃ run after, Reaches empty run ∧
      run.step (.flush (surroundings .done) .always) = some after ∧
      (run.state.flushStateToDisk (surroundings .done) .always).2 = .written ∧
      run.state.pblocktree.blockIndex[(1 : Uint256)]? = none ∧
      after.state.pblocktree.blockIndex[(1 : Uint256)]? = some (.ofIndex sampleIndex) := by
  have spares : empty.Spares (.addToBlockIndex 1 sampleIndex) := trivial
  have reached := Reaches.first.step spares step_addToBlockIndex
  have written := (flush_writes_changes empty loaded_empty _ reached).2 (surroundings .done) .always
    _ (Or.inl rfl) rfl rfl
  have known : (oneBlock [1] Uint256.null none none).state.store.mapBlockIndex[(1 : Uint256)]? =
      some sampleIndex := ExtTreeMap.getElem?_insert_self
  exact ⟨_, _, reached, rfl, rfl, ExtTreeMap.getElem?_empty, written.1 1 sampleIndex known⟩

/-- A new block whose record is taken from the dirty entries by a flush that fails: the
next flush names it as the best block of the coins, and no record of it is written. -/
theorem flush_loses_block :
    ∃ added best failed after,
      empty.step (.addToBlockIndex 1 sampleIndex) = some added ∧
        added.step (.setBestBlock 1) = some best ∧
        best.step (.flush (surroundings .refused) .always) = some failed ∧
        failed.step (.flush (surroundings .done) .always) = some after ∧
        (failed.state.flushStateToDisk (surroundings .done) .always).2 = .written ∧
        after.state.store.mapBlockIndex[(1 : Uint256)]? = some sampleIndex ∧
        after.state.hashBestChain = some 1 ∧
        after.state.pblocktree.blockIndex[(1 : Uint256)]? = none :=
  ⟨_, _, oneBlock [] 1 none none, oneBlock [] 1 (some 0) (some 1), step_addToBlockIndex,
    step_setBestBlock, rfl, rfl, rfl, ExtTreeMap.getElem?_insert_self, rfl,
    ExtTreeMap.getElem?_empty⟩

end FlushRun

end Lycancoin
