import Lycancoin.Chain.Locator
import Lycancoin.Net.DownloadScan

namespace Lycancoin

open Std Lycancoin.Data Lycancoin.ActiveChain

namespace DownloadIndex

variable {index : DownloadIndex} {mapBlocksInFlight : ExtTreeMap Uint256 (NodeId × Nat)}
  {nodeid : NodeId} {count : UInt32} {nWindowEnd : Nat} {fetch : Fetch}

/-! ## The batches -/

/-- `vToFetch` goes from the last block of a batch down by `pprev`. -/
theorem fillToFetch_spec (linked : index.Linked) {best last : Uint256} {low batch : Nat}
    (found : Forest.ancestor index.pprev index.nHeight best (low + batch + 1) = some last)
    (after : List Uint256) :
    index.fillToFetch batch last after =
      some (Forest.ascent index.pprev index.nHeight best low (batch + 1) ++ after) := by
  have graded := linked.graded
  obtain ⟨lastOnPath, level⟩ := graded.ancestor_eq_some_iff.mp found
  rw [Forest.ascent_succ found, List.append_assoc, List.singleton_append]
  induction batch generalizing last after with
  | zero => rfl
  | succ batch ih =>
      obtain ⟨prev, isParent⟩ := graded.exists_parent (show 0 < index.nHeight last by omega)
      have rise := graded.step last prev isParent
      have prevOnPath := graded.mem_path_trans (graded.parent_mem_path isParent) lastOnPath
      have prevFound : Forest.ancestor index.pprev index.nHeight best (low + batch + 1) =
          some prev :=
        graded.ancestor_eq_some_iff.mpr ⟨prevOnPath, by omega⟩
      rw [BlockLinks.fillToFetch, isParent, Forest.ascent_succ prevFound, List.append_assoc]
      exact ih prevFound (last :: after) prevOnPath (by omega)

theorem nToFetch_spec {nMaxHeight nHeight size : Nat} (below : nHeight < nMaxHeight) :
    ∃ batch : Nat, nToFetch count nMaxHeight nHeight size = batch + 1 ∧
      nHeight + batch + 1 ≤ nMaxHeight := by
  have positive : 1 ≤ nToFetch count nMaxHeight nHeight size := by
    unfold nToFetch
    omega
  have bound : nToFetch count nMaxHeight nHeight size ≤ (nMaxHeight : Int) - nHeight := by
    unfold nToFetch
    exact min_le_left _ _
  refine ⟨(nToFetch count nMaxHeight nHeight size - 1).toNat, ?_, ?_⟩
  · omega
  · omega

/-- One batch lies right above the block that the walk has reached. -/
theorem readToFetch_spec (linked : index.Linked) {best : Uint256} {nHeight nMaxHeight size : Nat}
    (below : nHeight < nMaxHeight) (reach : nMaxHeight ≤ index.nHeight best) :
    ∃ (batch : Nat) (last : Uint256), index.nHeight last = nHeight + (batch + 1) ∧
      nHeight + (batch + 1) ≤ nMaxHeight ∧
      index.readToFetch count best nMaxHeight nHeight size =
        some (last, Forest.ascent index.pprev index.nHeight best nHeight (batch + 1)) := by
  obtain ⟨batch, isSize, within⟩ := @nToFetch_spec count nMaxHeight nHeight size below
  rw [readToFetch, isSize]
  clear isSize
  obtain ⟨last, found⟩ := linked.graded.exists_ancestor
    (show nHeight + batch + 1 ≤ index.nHeight best by omega)
  have level := (linked.graded.ancestor_eq_some_iff.mp found).2
  refine ⟨batch, last, level, within, ?_⟩
  have height : ((nHeight : Int) + ((batch : Int) + 1)).toNat = nHeight + batch + 1 := by omega
  have steps : ((batch : Int) + 1).toNat - 1 = batch := by omega
  rw [linked.getAncestor, if_pos (by omega), Option.join_some, height, found, steps,
    Option.bind_eq_bind, Option.bind_some, fillToFetch_spec linked found, List.append_nil]
  rfl

/-- The batches add up to one pass over the path, however large they are. -/
theorem fetchLoop_eq (linked : index.Linked) {best pindexWalk : Uint256} {nMaxHeight rounds : Nat}
    (reach : nMaxHeight ≤ index.nHeight best)
    (enough : nMaxHeight - index.nHeight pindexWalk ≤ rounds) :
    index.fetchLoop mapBlocksInFlight nodeid count best nWindowEnd nMaxHeight rounds pindexWalk
        fetch =
      some (settled ((Forest.ascent index.pprev index.nHeight best (index.nHeight pindexWalk)
        (nMaxHeight - index.nHeight pindexWalk)).foldlM
          (scanBlock index mapBlocksInFlight nodeid count nWindowEnd) fetch)) := by
  induction rounds generalizing pindexWalk fetch with
  | zero =>
      have done : nMaxHeight - index.nHeight pindexWalk = 0 := by omega
      rw [fetchLoop, if_neg (by omega), done]
      rfl
  | succ rounds ih =>
      rw [fetchLoop]
      by_cases below : index.nHeight pindexWalk < nMaxHeight
      · obtain ⟨batch, last, level, within, read⟩ :=
          @readToFetch_spec index count linked best _ _ fetch.vBlocks.length below reach
        have split : nMaxHeight - index.nHeight pindexWalk =
            batch + 1 + (nMaxHeight - index.nHeight last) := by omega
        rw [if_pos below, split, Forest.ascent_add, List.foldlM_append, ← level]
        simp only [read]
        cases pass : (Forest.ascent index.pprev index.nHeight best (index.nHeight pindexWalk)
            (batch + 1)).foldlM (scanBlock index mapBlocksInFlight nodeid count nWindowEnd)
              fetch with
        | error after => rfl
        | ok middle => exact ih (by omega)
      · have done : nMaxHeight - index.nHeight pindexWalk = 0 := by omega
        rw [if_neg below, done]
        rfl

/-! ## The whole call -/

/-- The blocks above an entry on the way to another one, the lowest first. -/
def pathAbove (index : DownloadIndex) (start best : Uint256) : List Uint256 :=
  ((index.ancestry best).filter fun hash =>
    decide (index.nHeight start < index.nHeight hash)).reverse

/-- What a call leaves behind, given where it started. -/
structure Downloaded (index : DownloadIndex)
    (mapBlocksInFlight : ExtTreeMap Uint256 (NodeId × Nat)) (nodeid : NodeId) (count : UInt32)
    (nodeStaller : NodeId) (start best last : Uint256) (vBlocks : List Uint256)
    (staller : NodeId) : Prop where
  fetched : vBlocks = (index.wanted mapBlocksInFlight
    (index.nHeight start + BLOCK_DOWNLOAD_WINDOW) (index.pathAbove start best)).take count.toNat
  increasing : vBlocks.Pairwise fun below above => index.nHeight below < index.nHeight above
  lastCommon : last ∈ index.ancestry best
  notLower : index.nHeight start ≤ index.nHeight last
  received : last = start ∨ index.Received last
  stalled : staller = nodeStaller ∨ staller ≠ nodeid ∧ vBlocks = [] ∧
    (∀ hash ∈ index.pathAbove start best, index.Awaited mapBlocksInFlight
      (index.nHeight start + BLOCK_DOWNLOAD_WINDOW) hash) ∧
    (staller = -1 ∨ ∃ hash ∈ index.pathAbove start best, ∃ address,
      mapBlocksInFlight[hash]? = some (staller, address))

section Call

variable {start best : Uint256} {nodeStaller : NodeId}

theorem pathAbove_eq (linked : index.Linked) :
    index.pathAbove start best = Forest.ascent index.pprev index.nHeight best (index.nHeight start)
      (index.nHeight best - index.nHeight start) :=
  (linked.graded.ascent_eq_reverse best (index.nHeight start)).symm

/-- The loop reads the path up to one block behind the window. -/
theorem pathAbove_split (linked : index.Linked) {nMaxHeight : Nat}
    (reach : nMaxHeight = min (index.nHeight best)
      (index.nHeight start + BLOCK_DOWNLOAD_WINDOW + 1)) :
    ∃ rest, index.pathAbove start best = Forest.ascent index.pprev index.nHeight best
        (index.nHeight start) (nMaxHeight - index.nHeight start) ++ rest ∧
      ∀ hash ∈ rest, index.nHeight start + BLOCK_DOWNLOAD_WINDOW < index.nHeight hash := by
  have split : index.nHeight best - index.nHeight start =
      nMaxHeight - index.nHeight start + (index.nHeight best -
        (index.nHeight start + (nMaxHeight - index.nHeight start))) := by omega
  rw [pathAbove_eq linked, split, Forest.ascent_add]
  refine ⟨_, rfl, ?_⟩
  intro hash member
  have bounds := (linked.graded.mem_ascent_iff.mp member).2
  omega

theorem fetchFrom_spec (linked : index.Linked) (rooted : index.Rooted)
    {chain : ActiveChain Uint256} {state : PeerBlocks} {guess : Uint256}
    (found : (state.pindexLastCommonBlock <|>
      chain.entryAt (min (index.nHeight best : Int) chain.height)) = some guess)
    (inGuess : guess ∈ index.entries) (inBest : best ∈ index.entries) (positive : 0 < count) :
    ∃ start last vBlocks staller,
      HighestCommon index.toBlockLinks (some guess) best start ∧
      index.fetchFrom mapBlocksInFlight nodeid count chain state best [] nodeStaller =
        some ({ state with pindexLastCommonBlock := some last }, vBlocks, staller) ∧
      index.Downloaded mapBlocksInFlight nodeid count nodeStaller start best last vBlocks
        staller := by
  have graded := linked.graded
  obtain ⟨start, meet, common⟩ := linked.lastCommonAncestor rooted inGuess inBest
  by_cases same : start = best
  · refine ⟨start, start, [], nodeStaller, common, ?_, ?_⟩
    · simp [fetchFrom, found, meet, same]
    · have nothing : index.pathAbove start best = [] := by
        rw [pathAbove_eq linked, same, Nat.sub_self]
        rfl
      constructor
      · rw [nothing, wanted_eq_nil (fun _ member => by cases member), List.take_nil]
      · exact List.Pairwise.nil
      · exact common.ofEntry
      · exact Nat.le_refl _
      · exact Or.inl rfl
      · exact Or.inl rfl
  · let nMaxHeight := min (index.nHeight best) (index.nHeight start + BLOCK_DOWNLOAD_WINDOW + 1)
    let blocks := Forest.ascent index.pprev index.nHeight best (index.nHeight start)
      (nMaxHeight - index.nHeight start)
    let before : Fetch :=
      { pindexLastCommonBlock := start, vBlocks := [], waitingfor := -1, nodeStaller }
    have loop := @fetchLoop_eq index mapBlocksInFlight nodeid count
      (index.nHeight start + BLOCK_DOWNLOAD_WINDOW) before linked best start nMaxHeight
      (nMaxHeight - index.nHeight start) (min_le_left _ _) (Nat.le_refl _)
    have scanned := @scan_spec index mapBlocksInFlight nodeid count
      (index.nHeight start + BLOCK_DOWNLOAD_WINDOW) blocks before graded.ascent_pairwise positive
    obtain ⟨rest, split, beyond⟩ := pathAbove_split linked (show nMaxHeight = _ from rfl)
    have onPath : ∀ hash ∈ blocks, hash ∈ index.pathAbove start best := by
      intro hash member
      rw [split]
      exact List.mem_append_left _ member
    generalize settled (blocks.foldlM (scanBlock index mapBlocksInFlight nodeid count
      (index.nHeight start + BLOCK_DOWNLOAD_WINDOW)) before) = after at loop scanned
    have fetched : after.vBlocks = (index.wanted mapBlocksInFlight
        (index.nHeight start + BLOCK_DOWNLOAD_WINDOW) (index.pathAbove start best)).take
          count.toNat := by
      rw [split, wanted_append beyond]
      exact scanned.vBlocks
    refine ⟨start, after.pindexLastCommonBlock, after.vBlocks, after.nodeStaller, common, ?_,
      fetched, ?_, ?_, ?_, ?_, ?_⟩
    · simp only [fetchFrom, found, meet, Option.bind_eq_bind, Option.bind_some, Option.join_some,
        if_neg same]
      rw [loop]
      rfl
    · have increasing : (index.pathAbove start best).Pairwise fun below above =>
          index.nHeight below < index.nHeight above := by
        rw [pathAbove_eq linked]
        exact graded.ascent_pairwise
      have part : ((index.wanted mapBlocksInFlight (index.nHeight start + BLOCK_DOWNLOAD_WINDOW)
          (index.pathAbove start best)).take count.toNat).Sublist (index.pathAbove start best) :=
        (List.take_sublist _ _).trans (List.filter_sublist.trans (List.takeWhile_sublist _))
      rw [fetched]
      exact List.Pairwise.sublist part increasing
    · cases scanned.lastCommon with
      | inl unchanged =>
          rw [unchanged]
          exact common.ofEntry
      | inr moved => exact (graded.mem_ascent_iff.mp moved.1).1
    · cases scanned.lastCommon with
      | inl unchanged => rw [unchanged]
      | inr moved => exact Nat.le_of_lt (graded.mem_ascent_iff.mp moved.1).2.1
    · cases scanned.lastCommon with
      | inl unchanged => exact Or.inl unchanged
      | inr moved => exact Or.inr moved.2
    · cases scanned.nodeStaller with
      | inl unchanged => exact Or.inl unchanged
      | inr stalled =>
          obtain ⟨other, empty, awaited, source⟩ := stalled
          refine Or.inr ⟨other, empty, ?_, ?_⟩
          · intro hash member
            rw [split] at member
            cases List.mem_append.mp member with
            | inl inside => exact awaited hash inside
            | inr outside =>
                intro within
                have above := beyond hash outside
                omega
          · cases source with
            | inl initial => exact Or.inl initial
            | inr queued =>
                obtain ⟨hash, member, inFlight⟩ := queued
                exact Or.inr ⟨hash, onPath hash member, inFlight⟩

end Call

theorem tip_eq {chain : ActiveChain Uint256} {tip : Uint256}
    (follows : chain.Follows index.toBlockLinks (some tip)) (linked : index.Linked) :
    chain.tip = some tip := by
  have top := follows.height_eq
  have last := follows (index.nHeight tip)
  simp only [Option.bind_some, Nat.le_refl, if_true, linked.graded.ancestor_self] at last
  simp only [ActiveChain.height, Option.map_some, Option.getD_some] at top
  have place : chain.vChain.length - 1 = index.nHeight tip := by omega
  rw [ActiveChain.tip, List.getLast?_eq_getElem?, place, last]
  rfl

theorem Known.exists_guess {chain : ActiveChain Uint256} {state : PeerBlocks} {tip : Uint256}
    (known : index.Known state) (linked : index.Linked)
    (follows : chain.Follows index.toBlockLinks (some tip)) (inTip : tip ∈ index.entries)
    (nHeight : Nat) :
    ∃ guess ∈ index.entries, (state.pindexLastCommonBlock <|>
      chain.entryAt (min (nHeight : Int) chain.height)) = some guess := by
  cases isLast : state.pindexLastCommonBlock with
  | some last => exact ⟨last, known.lastCommon last isLast, rfl⟩
  | none =>
      obtain ⟨guess, found⟩ := linked.graded.exists_ancestor
        (show min nHeight (index.nHeight tip) ≤ index.nHeight tip by omega)
      have onPath := (linked.graded.ancestor_eq_some_iff.mp found).1
      refine ⟨guess, IndexTree.mem_entries_of_ancestry linked.graded linked.closed inTip onPath, ?_⟩
      change chain.entryAt (min (nHeight : Int) chain.height) = some guess
      rw [follows.height_eq, Option.map_some, Option.getD_some, ← Nat.cast_min,
        follows.entryAt_natCast linked.graded, Option.bind_some, found]

/-- The call ends.  It fetches the first blocks that the window allows, moves the last common
block upwards on the way to the best known block, and names another peer as the staller only
where there was nothing to fetch. -/
theorem findNextBlocksToDownload_exact (linked : index.Linked) (rooted : index.Rooted)
    {chain : ActiveChain Uint256} {tip : Uint256}
    (follows : chain.Follows index.toBlockLinks (some tip)) (inTip : tip ∈ index.entries)
    (mapBlocksInFlight : ExtTreeMap Uint256 (NodeId × Nat)) (nodeid : NodeId) {count : UInt32}
    (positive : 0 < count) {state : PeerBlocks} (known : index.Known state) {announced : Uint256}
    (isBest : state.pindexBestKnownBlock = some announced)
    (work : index.nChainWork tip ≤ index.nChainWork announced) (nodeStaller : NodeId) :
    ∃ best guess start last vBlocks staller,
      (index.processBlockAvailability state).pindexBestKnownBlock = some best ∧
      index.nChainWork announced ≤ index.nChainWork best ∧
      (state.pindexLastCommonBlock <|> chain.entryAt (min (index.nHeight best : Int) chain.height)) =
        some guess ∧
      HighestCommon index.toBlockLinks (some guess) best start ∧
      index.findNextBlocksToDownload mapBlocksInFlight nodeid count chain state [] nodeStaller =
        some ({ index.processBlockAvailability state with pindexLastCommonBlock := some last },
          vBlocks, staller) ∧
      index.Downloaded mapBlocksInFlight nodeid count nodeStaller start best last vBlocks
        staller := by
  obtain ⟨after, noWorse, sameLast⟩ := known.processBlockAvailability
  obtain ⟨best, isBetter, better⟩ := noWorse announced isBest
  obtain ⟨guess, inGuess, found⟩ := after.exists_guess linked follows inTip (index.nHeight best)
  obtain ⟨start, last, vBlocks, staller, common, run, downloaded⟩ :=
    @fetchFrom_spec index mapBlocksInFlight nodeid count best nodeStaller linked rooted chain
      (index.processBlockAvailability state) guess found inGuess (after.best best isBetter) positive
  have enough : ¬ index.nChainWork best < index.nChainWork tip :=
    not_lt.mpr (le_trans work better)
  have some' : count ≠ 0 := by
    intro zero
    rw [zero] at positive
    exact absurd positive (by decide)
  refine ⟨best, guess, start, last, vBlocks, staller, isBetter, better, ?_, common, ?_,
    downloaded⟩
  · rw [← sameLast]
    exact found
  · have isBest' : (index.processBlockAvailability state).pindexBestKnownBlock = some best :=
      isBetter
    simp only [findNextBlocksToDownload, if_neg some', isBest', tip_eq follows linked,
      if_neg enough, run]

/-- A node at one of two branches is offered the other one. -/
def forkedIndex : DownloadIndex where
  toIndexTree := IndexTree.forkedTree
  nChainWork := fun _ => 1
  nStatus := fun hash =>
    { validity := .tree, haveData := hash != 12, haveUndo := false, failedValid := false,
      failedChild := false }
  nChainTx := fun _ => 1

theorem findNextBlocksToDownload_exact_forked :
    ∃ chain after staller, setTips forkedIndex.toBlockLinks [some 11] ActiveChain.empty =
        some chain ∧
      forkedIndex.findNextBlocksToDownload ∅ 7 16 chain ⟨some 12, Uint256.null, some 11⟩ [] 3 =
        some (after, [12], staller) := by
  obtain ⟨chain, run, follows, -⟩ := IndexTree.forkedTree_linked.setTips_exact [some 11]
  have rooted : forkedIndex.Rooted := by
    have low : ∀ hash ∈ forkedIndex.entries, forkedIndex.pprev hash = none → hash = 10 := by
      intro hash member isRoot
      simp only [forkedIndex, IndexTree.forkedTree] at member isRoot
      split_ifs at isRoot with child
      simp only [List.mem_cons, List.not_mem_nil, or_false] at member
      grind
    intro first isFirst second isSecond firstRoot secondRoot
    rw [low first isFirst firstRoot, low second isSecond secondRoot]
  have known : forkedIndex.Known ⟨some 12, Uint256.null, some 11⟩ := by
    constructor
    · intro best isBest
      cases isBest
      decide
    · intro last isLast
      cases isLast
      decide
  obtain ⟨best, guess, start, last, vBlocks, staller, isBest, -, isGuess, common, called,
    downloaded⟩ := @findNextBlocksToDownload_exact forkedIndex IndexTree.forkedTree_linked rooted
      chain 11 follows (by decide) ∅ 7 16 (by decide) _ known 12 rfl (le_refl _) 3
  have bestIs : best = 12 := by
    simpa [processBlockAvailability] using isBest.symm
  have guessIs : guess = 11 := (Option.some.inj isGuess).symm
  rw [bestIs, guessIs] at common
  have startIs : start = 10 := by
    obtain ⟨_, isTip, onPath⟩ := common.onChain
    cases isTip
    have left : forkedIndex.ancestry 11 = [11, 10] := by decide
    have right : forkedIndex.ancestry 12 = [12, 10] := by decide
    have member := common.ofEntry
    rw [right] at member
    rw [left] at onPath
    simp only [List.mem_cons, List.not_mem_nil, or_false] at member onPath
    cases member with
    | inr low => exact low
    | inl high =>
        rw [high] at onPath
        exact absurd onPath (by decide)
  have path : forkedIndex.pathAbove 10 12 = [12] := by decide
  have fetched := downloaded.fetched
  rw [bestIs, startIs, path] at fetched
  have taken : (forkedIndex.wanted ∅ (forkedIndex.nHeight 10 + BLOCK_DOWNLOAD_WINDOW) [12]).take
      (16 : UInt32).toNat = [12] := by
    have missing : (forkedIndex.nStatus 12).haveData = false := by decide
    have within : forkedIndex.nHeight 12 ≤ forkedIndex.nHeight 10 + BLOCK_DOWNLOAD_WINDOW := by
      decide
    rw [wanted_cons_take (by simp [fetchable, missing, within]) (by decide)]
    rfl
  exact ⟨chain, _, staller, run, by rw [called, fetched, taken]⟩

end DownloadIndex

end Lycancoin
