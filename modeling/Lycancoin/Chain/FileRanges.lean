import Lycancoin.Chain.Pruning

namespace Lycancoin

open Std

structure StoredRange where
  nFile : Nat
  nPos : UInt32
  nAddSize : UInt32
deriving DecidableEq, Repr

namespace StoredRange

/-- The first byte behind the range. -/
def last (range : StoredRange) : Nat := range.nPos.toNat + range.nAddSize.toNat

def Apart (left right : StoredRange) : Prop :=
  left.nFile = right.nFile → left.last ≤ right.nPos.toNat ∨ right.last ≤ left.nPos.toNat

end StoredRange

/-- The block files, with what was handed out since a file was last pruned: the
ranges for blocks with their heights, and the ranges for undo data. -/
structure StoreRun where
  store : BlockStore
  blocks : List (StoredRange × UInt32)
  undos : List StoredRange

/-- A call that changes the block files.  The index of the blocks, which only
pruning looks at, is whatever it is at that time. -/
inductive StoreCall
  | findBlockPos (disk : BlockFiles.Disk) (nAddSize nHeight : UInt32) (nTime : UInt64)
  | findUndoPos (disk : BlockFiles.Disk) (nFile : Nat) (nAddSize : UInt32)
  | findFilesToPrune (network : Network) (nPruneTarget : UInt64) (tip : Option Nat)
      (mapBlockIndex : ExtTreeMap Uint256 StoredIndex)
      (mapBlocksUnlinked : List (Uint256 × Uint256))

namespace StoreRun

/-- Before the first block is stored. -/
def start : StoreRun where
  store :=
    { vinfoBlockFile := [], nLastBlockFile := 0, fCheckForPruning := false, setDirtyFileInfo := []
      mapBlockIndex := ∅, mapBlocksUnlinked := [], setDirtyBlockIndex := [] }
  blocks := []
  undos := []

def step (run : StoreRun) : StoreCall → Option StoreRun
  | .findBlockPos disk nAddSize nHeight nTime => do
      let (files, pos) ← run.store.findBlockPos disk nAddSize nHeight nTime
      let range := pos.toList.map fun pos => (⟨pos.nFile, pos.nPos, nAddSize⟩, nHeight)
      pure { run with
        store := { run.store with toBlockFiles := files }
        blocks := range ++ run.blocks }
  | .findUndoPos disk nFile nAddSize => do
      let (files, pos) ← run.store.findUndoPos disk nFile nAddSize
      let range := pos.toList.map fun pos => ⟨pos.nFile, pos.nPos, nAddSize⟩
      pure { run with
        store := { run.store with toBlockFiles := files }
        undos := range ++ run.undos }
  | .findFilesToPrune network nPruneTarget tip mapBlockIndex mapBlocksUnlinked =>
      let pruned :=
        BlockStore.findFilesToPrune network nPruneTarget tip
          { run.store with mapBlockIndex, mapBlocksUnlinked }
      some {
        store := pruned.1
        blocks := run.blocks.filter fun block => block.1.nFile ∉ pruned.2
        undos := run.undos.filter fun range => range.nFile ∉ pruned.2 }

inductive Reachable (allowed : StoreRun → StoreCall → Prop) : StoreRun → Prop
  | start : Reachable allowed start
  | step {run next : StoreRun} {call : StoreCall} (reachable : Reachable allowed run)
      (isAllowed : allowed run call) (returned : run.step call = some next) :
      Reachable allowed next

/-- A block is smaller than a file, and an undo file belongs to a block file. -/
def Callable (run : StoreRun) : StoreCall → Prop
  | .findBlockPos _ nAddSize _ _ => nAddSize < MAX_BLOCKFILE_SIZE
  | .findUndoPos _ nFile _ => nFile < run.store.vinfoBlockFile.length
  | .findFilesToPrune .. => True

def Counted (run : StoreRun) : StoreCall → Prop
  | .findBlockPos .. => ∀ file ∈ run.store.vinfoBlockFile, file.nBlocks.toNat + 1 < 2 ^ 32
  | .findUndoPos _ nFile nAddSize => ∀ file, run.store.vinfoBlockFile[nFile]? = some file →
      file.nUndoSize.toNat + nAddSize.toNat < 2 ^ 32
  | .findFilesToPrune .. => True

/-- The ranges handed out in a file do not overlap and are counted in its sizes,
which stay below the limit, and its heights bracket those of its blocks. -/
structure Sound (run : StoreRun) : Prop where
  blocksApart : (run.blocks.map Prod.fst).Pairwise StoredRange.Apart
  undosApart : run.undos.Pairwise StoredRange.Apart
  blocksBelow : ∀ range nHeight, (range, nHeight) ∈ run.blocks →
    ∃ file, run.store.vinfoBlockFile[range.nFile]? = some file ∧
      range.last ≤ file.nSize.toNat ∧ file.nHeightFirst ≤ nHeight ∧ nHeight ≤ file.nHeightLast
  undosBelow : ∀ range ∈ run.undos, ∃ file, run.store.vinfoBlockFile[range.nFile]? = some file ∧
    range.last ≤ file.nUndoSize.toNat
  small : ∀ file ∈ run.store.vinfoBlockFile, file.nSize < MAX_BLOCKFILE_SIZE

end StoreRun

namespace StoreRun

variable {run next : StoreRun} {files : BlockFiles} {nFile count : Nat}
  {file stored : CBlockFileInfo}

/-- The ranges are sound, and a file with a block knows that it has one. -/
structure Invariant (run : StoreRun) : Prop extends Sound run where
  counted : ∀ (range : StoredRange) (nHeight : UInt32), (range, nHeight) ∈ run.blocks →
    ∀ file, run.store.vinfoBlockFile[range.nFile]? = some file → file.nBlocks ≠ 0

theorem invariant_start : Invariant start where
  blocksApart := List.Pairwise.nil
  undosApart := List.Pairwise.nil
  blocksBelow range nHeight member := by contradiction
  undosBelow range member := by contradiction
  small file member := by contradiction
  counted range nHeight member := by contradiction

theorem getElem?_changed {vinfoBlockFile : List CBlockFileInfo} {i : Nat} {other : CBlockFileInfo}
    (found : (grown vinfoBlockFile count)[nFile]? = some file)
    (otherFound : vinfoBlockFile[i]? = some other) :
    (i = nFile ∧ other = file ∧
      ((grown vinfoBlockFile count).set nFile stored)[i]? = some stored) ∨
    (i ≠ nFile ∧ ((grown vinfoBlockFile count).set nFile stored)[i]? = some other) := by
  have there := @getElem?_grown_of_some vinfoBlockFile count i other otherFound
  by_cases same : i = nFile
  · subst same
    rw [there] at found
    refine Or.inl ⟨rfl, Option.some.inj found, ?_⟩
    rw [List.getElem?_set_self', there]
    rfl
  · refine Or.inr ⟨same, ?_⟩
    rw [List.getElem?_set_ne (Ne.symm same), there]

/-- The files that a change leaves behind. -/
theorem mem_changed {vinfoBlockFile : List CBlockFileInfo} {other : CBlockFileInfo}
    (member : other ∈ (grown vinfoBlockFile count).set nFile stored) :
    other = stored ∨ other ∈ vinfoBlockFile ∨ other = CBlockFileInfo.null := by
  rcases List.mem_or_eq_of_mem_set member with old | same
  · rcases List.mem_append.mp old with old | fresh
    · exact Or.inr (Or.inl old)
    · exact Or.inr (Or.inr (List.eq_of_mem_replicate fresh))
  · exact Or.inl same

theorem nSize_lt_of_grown (sound : Sound run)
    (found : (grown run.store.vinfoBlockFile count)[nFile]? = some file) :
    file.nSize < MAX_BLOCKFILE_SIZE := by
  rcases getElem?_grown found with old | ⟨_, rfl⟩
  · exact sound.small file (List.mem_of_getElem? old)
  · decide

theorem toNat_add_of_room {nSize nAddSize : UInt32} (small : nSize < MAX_BLOCKFILE_SIZE)
    (smallAdd : nAddSize < MAX_BLOCKFILE_SIZE) :
    (nSize + nAddSize).toNat = nSize.toNat + nAddSize.toNat := by
  have limit : MAX_BLOCKFILE_SIZE.toNat = 134217728 := by decide
  rw [UInt32.lt_iff_toNat_lt, limit] at small smallAdd
  rw [UInt32.toNat_add]
  omega

theorem addBlock_brackets (file : CBlockFileInfo) (nHeightIn : UInt32) (nTimeIn : UInt64)
    {nHeight : UInt32} (some : file.nBlocks ≠ 0) (first : file.nHeightFirst ≤ nHeight) :
    (file.addBlock nHeightIn nTimeIn).nHeightFirst ≤ nHeight := by
  rw [CBlockFileInfo.addBlock]
  split
  · rename_i lower
    exact UInt32.le_trans (UInt32.le_of_lt (lower.resolve_left some)) first
  · exact first

theorem addBlock_first (file : CBlockFileInfo) (nHeightIn : UInt32) (nTimeIn : UInt64) :
    (file.addBlock nHeightIn nTimeIn).nHeightFirst ≤ nHeightIn := by
  rw [CBlockFileInfo.addBlock]
  split
  · exact UInt32.le_refl _
  · rename_i higher
    exact UInt32.not_lt.mp (not_or.mp higher).2

structure Holds (file : CBlockFileInfo) (range : StoredRange) (nHeight : UInt32) : Prop where
  below : range.last ≤ file.nSize.toNat
  first : file.nHeightFirst ≤ nHeight
  last : nHeight ≤ file.nHeightLast
  counted : file.nBlocks ≠ 0

theorem Invariant.holds (inv : Invariant run) {range : StoredRange} {nHeight : UInt32}
    (member : (range, nHeight) ∈ run.blocks) :
    ∃ file, run.store.vinfoBlockFile[range.nFile]? = some file ∧ Holds file range nHeight := by
  obtain ⟨file, found, below, first, last⟩ := inv.blocksBelow range nHeight member
  exact ⟨file, found, below, first, last, inv.counted range nHeight member file found⟩

theorem invariant_of_holds
    (blocksApart : (next.blocks.map Prod.fst).Pairwise StoredRange.Apart)
    (undosApart : next.undos.Pairwise StoredRange.Apart)
    (holds : ∀ (range : StoredRange) (nHeight : UInt32), (range, nHeight) ∈ next.blocks →
      ∃ file, next.store.vinfoBlockFile[range.nFile]? = some file ∧ Holds file range nHeight)
    (undosBelow : ∀ range ∈ next.undos, ∃ file,
      next.store.vinfoBlockFile[range.nFile]? = some file ∧ range.last ≤ file.nUndoSize.toNat)
    (small : ∀ file ∈ next.store.vinfoBlockFile, file.nSize < MAX_BLOCKFILE_SIZE) :
    Invariant next where
  blocksApart := blocksApart
  undosApart := undosApart
  blocksBelow range nHeight member := by
    obtain ⟨file, found, holds⟩ := holds range nHeight member
    exact ⟨file, found, holds.below, holds.first, holds.last⟩
  undosBelow := undosBelow
  small := small
  counted range nHeight member other otherFound := by
    obtain ⟨file, found, holds⟩ := holds range nHeight member
    rw [found] at otherFound
    rw [← Option.some.inj otherFound]
    exact holds.counted

theorem Holds.add {range : StoredRange} {nHeight nHeightIn nAddSize : UInt32}
    (holds : Holds file range nHeight) (nTimeIn : UInt64)
    (size : (file.nSize + nAddSize).toNat = file.nSize.toNat + nAddSize.toNat)
    (more : file.nBlocks + 1 ≠ 0) :
    Holds { file.addBlock nHeightIn nTimeIn with nSize := file.nSize + nAddSize } range nHeight where
  below := by
    change range.last ≤ (file.nSize + nAddSize).toNat
    have before := holds.below
    omega
  first := addBlock_brackets file nHeightIn nTimeIn holds.counted holds.first
  last := UInt32.le_trans holds.last (BlockStore.nHeightLast_addBlock file nHeightIn nTimeIn).1
  counted := more

theorem holds_added {nHeightIn nAddSize : UInt32} (nTimeIn : UInt64)
    (size : (file.nSize + nAddSize).toNat = file.nSize.toNat + nAddSize.toNat)
    (more : file.nBlocks + 1 ≠ 0) :
    Holds { file.addBlock nHeightIn nTimeIn with nSize := file.nSize + nAddSize }
      ⟨nFile, file.nSize, nAddSize⟩ nHeightIn where
  below := size.ge
  first := addBlock_first file nHeightIn nTimeIn
  last := (BlockStore.nHeightLast_addBlock file nHeightIn nTimeIn).2
  counted := more

theorem invariant_findBlockPos {disk : BlockFiles.Disk} {nAddSize nHeight : UInt32}
    {nTime : UInt64} (inv : Invariant run)
    (callable : run.Callable (.findBlockPos disk nAddSize nHeight nTime))
    (few : run.Counted (.findBlockPos disk nAddSize nHeight nTime))
    (returned : run.step (.findBlockPos disk nAddSize nHeight nTime) = some next) :
    Invariant next := by
  obtain ⟨nFile, count, file, taken, found, room⟩ :=
    BlockFiles.findBlockPos_spec disk nHeight nTime callable run.store.toBlockFiles
  obtain ⟨isAfter, handed⟩ := @BlockFiles.takeBlockPos_spec
    { run.store.toBlockFiles with vinfoBlockFile := grown run.store.vinfoBlockFile count } disk
    nAddSize nHeight nTime nFile file
  rw [step, taken] at returned
  generalize BlockFiles.takeBlockPos disk nAddSize nHeight nTime nFile file _ = result
    at isAfter handed returned
  obtain ⟨files, pos⟩ := result
  have next_eq := Option.some.inj returned
  have size := toNat_add_of_room (nSize_lt_of_grown inv.toSound found) callable
  have more : file.nBlocks + 1 ≠ 0 := by
    intro zero
    have word := congrArg UInt32.toNat zero
    rw [UInt32.toNat_add, UInt32.toNat_one, UInt32.toNat_zero] at word
    rcases getElem?_grown found with old | ⟨_, rfl⟩
    · have bound := few file (List.mem_of_getElem? old)
      omega
    · contradiction
  obtain ⟨stored, isStored⟩ : ∃ stored : CBlockFileInfo,
      stored = { file.addBlock nHeight nTime with nSize := file.nSize + nAddSize } := ⟨_, rfl⟩
  rw [← isStored] at isAfter
  have old : ∀ (range : StoredRange) (h : UInt32), (range, h) ∈ run.blocks →
      ∃ file, files.vinfoBlockFile[range.nFile]? = some file ∧ Holds file range h := by
    intro range h member
    obtain ⟨other, otherFound, holds⟩ := inv.holds member
    rw [isAfter]
    rcases @getElem?_changed nFile count file stored _ _ _ found otherFound with
      ⟨_, rfl, now⟩ | ⟨_, now⟩
    · exact ⟨stored, now, isStored ▸ holds.add nTime size more⟩
    · exact ⟨other, now, holds⟩
  have undosBelow : ∀ range ∈ run.undos, ∃ file,
      files.vinfoBlockFile[range.nFile]? = some file ∧ range.last ≤ file.nUndoSize.toNat := by
    intro range member
    obtain ⟨other, otherFound, below⟩ := inv.undosBelow range member
    rw [isAfter]
    rcases @getElem?_changed nFile count file stored _ _ _ found otherFound with
      ⟨_, rfl, now⟩ | ⟨_, now⟩
    · exact ⟨stored, now, isStored ▸ below⟩
    · exact ⟨other, now, below⟩
  have small : ∀ other ∈ files.vinfoBlockFile, other.nSize < MAX_BLOCKFILE_SIZE := by
    intro other member
    rw [isAfter] at member
    rcases mem_changed member with same | member | rfl
    · rw [same, isStored]
      exact room
    · exact inv.small other member
    · decide
  rw [← next_eq]
  cases pos with
  | none => exact invariant_of_holds inv.blocksApart inv.undosApart old undosBelow small
  | some pos =>
      have position := handed pos rfl
      subst position
      refine invariant_of_holds ?_ inv.undosApart ?_ undosBelow small
      · refine List.pairwise_cons.mpr ⟨fun range member same => ?_, inv.blocksApart⟩
        obtain ⟨⟨_, h⟩, blockMember, rfl⟩ := List.mem_map.mp member
        obtain ⟨other, otherFound, holds⟩ := inv.holds blockMember
        have there := @getElem?_grown_of_some _ count _ _ otherFound
        rw [← same, found] at there
        rw [← Option.some.inj there] at holds
        exact Or.inr holds.below
      · intro range h member
        rcases List.mem_cons.mp member with new | member
        · obtain ⟨rfl, rfl⟩ := Prod.mk.inj new
          refine ⟨stored, ?_, isStored ▸ holds_added nTime size more⟩
          change files.vinfoBlockFile[nFile]? = _
          rw [isAfter, List.getElem?_set_self', found]
          rfl
        · exact old range h member

theorem invariant_findUndoPos {disk : BlockFiles.Disk} {nAddSize : UInt32} (inv : Invariant run)
    (few : run.Counted (.findUndoPos disk nFile nAddSize))
    (returned : run.step (.findUndoPos disk nFile nAddSize) = some next) : Invariant next := by
  obtain ⟨⟨files, pos⟩, undo, next_eq⟩ := Option.bind_eq_some_iff.mp returned
  obtain ⟨file, found, taken⟩ := Option.bind_eq_some_iff.mp undo
  obtain ⟨isAfter, handed⟩ :=
    @BlockFiles.takeUndoPos_spec run.store.toBlockFiles disk nAddSize nFile file
  rw [Option.some.inj taken] at isAfter handed
  have whole : grown run.store.vinfoBlockFile 0 = run.store.vinfoBlockFile := grown_zero
  have size : (file.nUndoSize + nAddSize).toNat = file.nUndoSize.toNat + nAddSize.toNat := by
    rw [UInt32.toNat_add]
    exact Nat.mod_eq_of_lt (few file found)
  obtain ⟨stored, isStored⟩ : ∃ stored : CBlockFileInfo,
      stored = { file with nUndoSize := file.nUndoSize + nAddSize } := ⟨_, rfl⟩
  rw [← isStored, ← whole] at isAfter
  have grownFound := found
  rw [← whole] at grownFound
  have old : ∀ (range : StoredRange) (h : UInt32), (range, h) ∈ run.blocks →
      ∃ file, files.vinfoBlockFile[range.nFile]? = some file ∧ Holds file range h := by
    intro range h member
    obtain ⟨other, otherFound, holds⟩ := inv.holds member
    rw [isAfter]
    rcases @getElem?_changed nFile 0 file stored _ _ _ grownFound otherFound with
      ⟨_, rfl, now⟩ | ⟨_, now⟩
    · exact ⟨stored, now, isStored ▸ ⟨holds.below, holds.first, holds.last, holds.counted⟩⟩
    · exact ⟨other, now, holds⟩
  have undosBelow : ∀ range ∈ run.undos, ∃ file,
      files.vinfoBlockFile[range.nFile]? = some file ∧ range.last ≤ file.nUndoSize.toNat := by
    intro range member
    obtain ⟨other, otherFound, below⟩ := inv.undosBelow range member
    rw [isAfter]
    rcases @getElem?_changed nFile 0 file stored _ _ _ grownFound otherFound with
      ⟨_, rfl, now⟩ | ⟨_, now⟩
    · refine ⟨stored, now, ?_⟩
      rw [isStored]
      exact below.trans ((Nat.le_add_right _ _).trans size.ge)
    · exact ⟨other, now, below⟩
  have small : ∀ other ∈ files.vinfoBlockFile, other.nSize < MAX_BLOCKFILE_SIZE := by
    intro other member
    rw [isAfter] at member
    rcases mem_changed member with same | member | rfl
    · rw [same, isStored]
      exact inv.small file (List.mem_of_getElem? found)
    · exact inv.small other member
    · decide
  rw [← Option.some.inj next_eq]
  cases pos with
  | none => exact invariant_of_holds inv.blocksApart inv.undosApart old undosBelow small
  | some pos =>
      have position := handed pos rfl
      subst position
      refine invariant_of_holds inv.blocksApart ?_ old ?_ small
      · refine List.pairwise_cons.mpr ⟨fun range member same => ?_, inv.undosApart⟩
        obtain ⟨other, otherFound, below⟩ := inv.undosBelow range member
        rw [← same, found] at otherFound
        rw [← Option.some.inj otherFound] at below
        exact Or.inr below
      · intro range member
        rcases List.mem_cons.mp member with rfl | member
        · refine ⟨stored, ?_, ?_⟩
          · change files.vinfoBlockFile[nFile]? = _
            rw [isAfter, List.getElem?_set_self', grownFound]
            rfl
          · rw [isStored]
            exact size.ge
        · exact undosBelow range member

theorem invariant_findFilesToPrune {network : Network} {nPruneTarget : UInt64} {tip : Option Nat}
    {mapBlockIndex : ExtTreeMap Uint256 StoredIndex}
    {mapBlocksUnlinked : List (Uint256 × Uint256)} (inv : Invariant run)
    (returned : run.step
      (.findFilesToPrune network nPruneTarget tip mapBlockIndex mapBlocksUnlinked) = some next) :
    Invariant next := by
  have spec := BlockStore.pruned_findFilesToPrune network nPruneTarget tip
    { run.store with mapBlockIndex, mapBlocksUnlinked }
  rw [step] at returned
  generalize BlockStore.findFilesToPrune network nPruneTarget tip _ = pruned at spec returned
  rw [← Option.some.inj returned]
  refine invariant_of_holds ?_ ?_ ?_ ?_ ?_
  · exact inv.blocksApart.sublist (List.filter_sublist.map Prod.fst)
  · exact inv.undosApart.sublist List.filter_sublist
  · intro range nHeight member
    obtain ⟨member, unchosen⟩ := List.mem_filter.mp member
    rw [spec.untouched _ (of_decide_eq_true unchosen)]
    exact inv.holds member
  · intro range member
    obtain ⟨member, unchosen⟩ := List.mem_filter.mp member
    rw [spec.untouched _ (of_decide_eq_true unchosen)]
    exact inv.undosBelow range member
  · intro file member
    obtain ⟨i, found⟩ := List.mem_iff_getElem?.mp member
    have value := spec.files i
    rw [List.getD_eq_getElem?_getD, found, Option.getD_some] at value
    rw [value]
    split
    · decide
    · rw [List.getD_eq_getElem?_getD]
      cases before : run.store.vinfoBlockFile[i]? with
      | none => decide
      | some old => exact inv.small old (List.mem_of_getElem? before)

theorem invariant_step {call : StoreCall} (inv : Invariant run) (callable : run.Callable call)
    (few : run.Counted call) (returned : run.step call = some next) : Invariant next := by
  cases call with
  | findBlockPos disk nAddSize nHeight nTime =>
      exact invariant_findBlockPos inv callable few returned
  | findUndoPos disk nFile nAddSize => exact invariant_findUndoPos inv few returned
  | findFilesToPrune network nPruneTarget tip mapBlockIndex mapBlocksUnlinked =>
      exact invariant_findFilesToPrune inv returned

/-- As long as no 32-bit counter overflows, the ranges handed out are sound, and
the search for a file always ends. -/
theorem handedOut_sound (run : StoreRun)
    (reachable : Reachable (fun run call => run.Callable call ∧ run.Counted call) run) :
    run.Sound ∧
    ∀ (disk : BlockFiles.Disk) (nAddSize nHeight : UInt32) (nTime : UInt64) (files : BlockFiles),
      nAddSize < MAX_BLOCKFILE_SIZE →
      ∃ result, files.findBlockPos disk nAddSize nHeight nTime = some result := by
  constructor
  · have inv : Invariant run := by
      induction reachable with
      | start => exact invariant_start
      | step reachable allowed returned ih =>
          exact invariant_step ih allowed.1 allowed.2 returned
    exact inv.toSound
  · intro disk nAddSize nHeight nTime files small
    obtain ⟨_, _, _, returned, _⟩ := BlockFiles.findBlockPos_spec disk nHeight nTime small files
    exact ⟨_, returned⟩

section Overflow

def plentyDisk : BlockFiles.Disk where
  fPruneMode := true
  checkDiskSpace _ := true

/-- One block, and undo data of 238609295 bytes a number of times. -/
def undoRun : Nat → Option StoreRun
  | 0 => start.step (.findBlockPos plentyDisk 1000 1 0)
  | count + 1 => (undoRun count).bind fun run => run.step (.findUndoPos plentyDisk 0 238609295)

theorem reachable_undoRun {count : Nat} (returned : undoRun count = some run) :
    Reachable Callable run ∧ 0 < run.store.vinfoBlockFile.length := by
  induction count generalizing run with
  | zero =>
      have first : ∀ run, undoRun 0 = some run → 0 < run.store.vinfoBlockFile.length := by
        intro run same
        rw [← Option.some.inj same]
        decide
      have callable : start.Callable (.findBlockPos plentyDisk 1000 1 0) :=
        (by decide : (1000 : UInt32) < MAX_BLOCKFILE_SIZE)
      exact ⟨.step .start callable returned, first run returned⟩
  | succ count ih =>
      obtain ⟨before, previous, step⟩ := Option.bind_eq_some_iff.mp returned
      obtain ⟨reachable, some⟩ := ih previous
      have callable : before.Callable (.findUndoPos plentyDisk 0 238609295) := some
      refine ⟨.step reachable callable step, ?_⟩
      obtain ⟨⟨files, pos⟩, undo, next_eq⟩ := Option.bind_eq_some_iff.mp step
      obtain ⟨file, _, taken⟩ := Option.bind_eq_some_iff.mp undo
      have isAfter :=
        (@BlockFiles.takeUndoPos_spec before.store.toBlockFiles plentyDisk 238609295 0 file).1
      rw [Option.some.inj taken] at isAfter
      rw [← Option.some.inj next_eq]
      change 0 < files.vinfoBlockFile.length
      rw [isAfter, List.length_set]
      exact some

/-- The size of an undo file wraps around, and a range is handed out twice. -/
theorem undoData_overlaps : ¬∀ run, Reachable Callable run → run.Sound := by
  intro sound
  have ends : ∀ run ∈ undoRun 19, run.undos.head? = some ⟨0, 14, 238609295⟩ ∧
      run.undos.getLast? = some ⟨0, 0, 238609295⟩ := by decide
  obtain ⟨run, returned⟩ := Option.isSome_iff_exists.mp (by decide : (undoRun 19).isSome = true)
  obtain ⟨newest, oldest⟩ := ends run returned
  have apart := (sound run (reachable_undoRun returned).1).undosApart
  cases undos : run.undos with
  | nil =>
      rw [undos] at newest
      contradiction
  | cons first rest =>
      rw [undos] at newest oldest apart
      have last := List.mem_of_getLast? oldest
      rw [Option.some.inj newest] at apart last
      rcases List.mem_cons.mp last with same | member
      · exact absurd same (by decide)
      · rcases List.rel_of_pairwise_cons apart member rfl with below | below
        · exact absurd below (by decide)
        · exact absurd below (by decide)

/-- The second of two blocks is stored behind the first. -/
theorem twoBlocks_sound : ∃ run : StoreRun, run.Sound ∧
    run.blocks = [(⟨0, 1000, 500⟩, 2), (⟨0, 0, 1000⟩, 1)] := by
  obtain ⟨run, returned, blocks⟩ : ∃ run,
      (start.step (.findBlockPos plentyDisk 1000 1 0)).bind
          (step · (.findBlockPos plentyDisk 500 2 0)) = some run ∧
        run.blocks = [(⟨0, 1000, 500⟩, 2), (⟨0, 0, 1000⟩, 1)] := ⟨_, rfl, by decide⟩
  obtain ⟨first, one, two⟩ := Option.bind_eq_some_iff.mp returned
  have small : (1000 : UInt32) < MAX_BLOCKFILE_SIZE ∧ (500 : UInt32) < MAX_BLOCKFILE_SIZE := by
    decide
  have few : ∀ file ∈ first.store.vinfoBlockFile, file.nBlocks.toNat + 1 < 2 ^ 32 := by
    rw [← Option.some.inj one]
    decide
  refine ⟨run, (handedOut_sound run ?_).1, blocks⟩
  have stored : Reachable (fun run call => run.Callable call ∧ run.Counted call) first :=
    @Reachable.step _ start first (.findBlockPos plentyDisk 1000 1 0) .start
      ⟨small.1, fun file member => by contradiction⟩ one
  exact @Reachable.step _ first run (.findBlockPos plentyDisk 500 2 0) stored ⟨small.2, few⟩ two

end Overflow

end StoreRun

end Lycancoin
