import Lycancoin.Chain.Linking

/-! # The best chain

Headers and blocks arrive in any order, and `ActivateBestChain` is called at
any time.  The run starts with the genesis block, and no block file is pruned.
-/

namespace Lycancoin

open Lycancoin.Data

namespace BlockTree

variable {context : NodeContext} {tree : BlockTree} {best tip hash : Uint256}

/-- A tree between two calls.  Its tip is the best block that is known to be connectable. -/
structure AtRest (context : NodeContext) (tree : BlockTree) (tip : Uint256) : Prop where
  isTip : tree.tip = some tip
  activating : Activating context tree tip
  unpruned : Unpruned context tree []
  trimmed : Trimmed context tree

section Steps

/-- The tip of a finished activation may stand for the best block. -/
theorem Activating.settle (activating : Activating context tree best)
    (heading : Heading context tree tip) (isTip : tree.tip = some tip) :
    Activating context tree tip := by
  obtain ⟨top, isTop, chain⟩ := activating.active
  cases isTip.symm.trans isTop
  refine { activating with
    bestCandidate := heading.candidate, bestValid := fun place onPath => ?_, complete := ?_ }
  · rw [← chain] at onPath
    obtain ⟨valid, accepted⟩ := activating.activeValid place onPath
    exact ⟨valid, accepted, Or.inl onPath⟩
  · intro hash linked haveData valid order
    exact activating.complete hash linked haveData valid
      ((heading.last best activating.bestCandidate).trans order)

theorem AtRest.activateBestChain (rest : AtRest context tree tip) :
    ∃ after newTip, tree.activateBestChain context = some after ∧ AtRest context after newTip ∧
      Heading context after newTip := by
  rcases rest.activating.activateBestChain with
    ⟨_, middle, moves, unreadable⟩ | ⟨after, better, newTip, ran, activating, moves, _, heading, isTip⟩
  · exact absurd (rest.unpruned.moves moves).readable unreadable
  · exact ⟨after, newTip, ran,
      ⟨isTip, activating.settle heading isTip, rest.unpruned.moves moves,
        rest.trimmed.moves moves⟩, heading⟩

theorem AtRest.acceptHeader (rest : AtRest context tree tip) (nAdjustedTime : Int)
    (block : CBlockHeader) :
    AtRest context (tree.acceptHeader context nAdjustedTime block).2 tip := by
  have genesisKnown := mem_of_nChainTx_ne_zero
    (rest.activating.activeLinked _ rest.activating.genesis_active)
  rcases acceptHeader_cases genesisKnown nAdjustedTime block with same | ⟨new, pprev, grown⟩
  · rw [same]
    exact rest
  · refine ⟨?_, rest.activating.grow grown rest.unpruned, rest.unpruned.grow grown rest.activating,
      rest.trimmed.grow grown rest.activating rest.unpruned⟩
    rw [BlockTree.tip, grown.chainActive]
    exact rest.isTip

theorem AtRest.link_stored (rest : AtRest context tree tip) (storable : Storable tree hash)
    {nTx : Nat} (positive : 0 < nTx) (nFile : Nat)
    (above : ∀ pprev, tree.pprev hash = some pprev → tree.nChainTx pprev ≠ 0) :
    ∃ after, (tree.storeBlock nTx nFile hash).linkBlocks context
        ((tree.storeBlock nTx nFile hash).mapBlocksUnlinked.length + 2) [hash] = some after ∧
      AtRest context after tip := by
  obtain ⟨isTip, activating, unpruned, trimmed⟩ := rest
  -- what is stored now did not wait before
  have notWaiting : hash ∉ tree.mapBlocksUnlinked.map Prod.snd :=
    unpruned.not_waiting storable.noData
  have next : Activating context (tree.stored nTx nFile hash tree.mapBlocksUnlinked) tip :=
    activating.store storable (fun _ => Or.inl) (fun _ => id)
      fun pair member => (unpruned.pending pair member).2
  have queued : Unpruned context (tree.stored nTx nFile hash tree.mapBlocksUnlinked) [hash] :=
    unpruned.store storable activating positive (fun _ => Or.inl) (fun _ => id) (Or.inl List.mem_cons_self)
    (fun other member => ⟨List.mem_singleton.mp member, above⟩)
    (List.nodup_cons.mpr ⟨notWaiting, unpruned.distinct⟩)
  have enough : [hash].length + tree.mapBlocksUnlinked.length <
      tree.mapBlocksUnlinked.length + 2 := by
    rw [List.length_singleton]
    omega
  obtain ⟨after, ran, settled, sameTip, left, above⟩ :=
    linkBlocks_spec next isTip queued trimmed.store enough
  exact ⟨after, ran, sameTip, settled, left, above⟩

theorem AtRest.wait_stored (rest : AtRest context tree tip) (storable : Storable tree hash)
    {nTx : Nat} (positive : 0 < nTx) (nFile : Nat) {pprev : Uint256}
    (isParent : tree.pprev hash = some pprev) (unlinked : tree.nChainTx pprev = 0) :
    AtRest context (tree.stored nTx nFile hash
      (if (tree.nStatus pprev).failed then tree.mapBlocksUnlinked
        else tree.mapBlocksUnlinked ++ [(pprev, hash)])) tip := by
  obtain ⟨isTip, activating, unpruned, trimmed⟩ := rest
  have pending : ∀ pair ∈ tree.mapBlocksUnlinked, tree.nChainTx pair.2 = 0 := fun pair member =>
    (unpruned.pending pair member).2
  split
  · rename_i failed
    exact ⟨isTip, activating.store storable (fun _ => Or.inl) (fun _ => id) pending,
      unpruned.store storable activating positive (fun _ => Or.inl) (fun _ => id)
        (Or.inr ⟨pprev, isParent, unlinked, Or.inr failed⟩) (by simp) unpruned.distinct,
      trimmed.store⟩
  · have pairs : ∀ pair ∈ tree.mapBlocksUnlinked ++ [(pprev, hash)],
        pair ∈ tree.mapBlocksUnlinked ∨ (pair.2 = hash ∧ tree.pprev hash = some pair.1) := by
      intro pair member
      refine (List.mem_append.mp member).imp_right fun isNew => ?_
      rw [List.mem_singleton.mp isNew]
      exact ⟨rfl, isParent⟩
    have distinct : ([] ++ (tree.mapBlocksUnlinked ++ [(pprev, hash)]).map Prod.snd).Nodup := by
      rw [List.nil_append, List.map_append, List.nodup_append]
      refine ⟨unpruned.distinct, by simp, fun first isFirst second isSecond => ?_⟩
      rintro rfl
      rw [List.map_singleton, List.mem_singleton] at isSecond
      rw [isSecond] at isFirst
      exact unpruned.not_waiting storable.noData isFirst
    exact ⟨isTip, activating.store storable pairs (fun _ => List.mem_append_left _) pending,
      unpruned.store storable activating positive pairs (fun _ => List.mem_append_left _)
        (Or.inr ⟨pprev, isParent, unlinked, Or.inl (by simp)⟩) (by simp) distinct, trimmed.store⟩

theorem AtRest.receivedBlockTransactions (rest : AtRest context tree tip)
    (storable : Storable tree hash) {nTx : Nat} (positive : 0 < nTx) (nFile : Nat) :
    ∃ after, tree.receivedBlockTransactions context nTx nFile hash = some after ∧
      AtRest context after tip := by
  have samePprev : (tree.storeBlock nTx nFile hash).pprev = tree.pprev :=
    @pprev_stored tree hash nTx nFile tree.mapBlocksUnlinked
  unfold BlockTree.receivedBlockTransactions
  simp only [samePprev]
  cases isParent : tree.pprev hash with
  | none =>
      apply rest.link_stored storable positive nFile
      intro pprev other
      rw [isParent] at other
      contradiction
  | some pprev =>
      have sameCount : (tree.storeBlock nTx nFile hash).nChainTx pprev = tree.nChainTx pprev :=
        nChainTx_stored storable pprev
      simp only [sameCount]
      by_cases linked : tree.nChainTx pprev ≠ 0
      · rw [if_pos linked]
        apply rest.link_stored storable positive nFile
        intro other isOther
        cases isParent.symm.trans isOther
        exact linked
      · rw [if_neg linked]
        rw [ne_eq, not_not] at linked
        have waits := rest.wait_stored storable positive nFile isParent linked
        have placed : BlockValidity.tree.level ≤ (tree.storeBlock nTx nFile hash).level pprev := by
          have known := rest.unpruned.known hash pprev isParent
          refine (rest.unpruned.placed pprev known).trans ?_
          change _ ≤ (tree.stored nTx nFile hash tree.mapBlocksUnlinked).level pprev
          rw [level_stored storable]
          split
          · rename_i same
            rw [same]
            exact Nat.le_max_left _ _
          · exact Nat.le_refl _
        have validIff : ((tree.storeBlock nTx nFile hash).nStatus pprev).isValid .tree =
            !(tree.nStatus pprev).failed := by
          have sameFailed : ((tree.storeBlock nTx nFile hash).nStatus pprev).failed =
              (tree.nStatus pprev).failed := failed_stored storable pprev
          rw [← sameFailed, BlockStatus.isValid]
          exact (Bool.and_eq_left_iff_imp.mpr fun _ => decide_eq_true placed)
        rw [validIff]
        cases failed : (tree.nStatus pprev).failed with
        | true =>
            rw [failed, if_pos rfl] at waits
            exact ⟨_, rfl, waits⟩
        | false =>
            rw [failed] at waits
            exact ⟨_, rfl, waits⟩

theorem AtRest.markFailed (rest : AtRest context tree tip) (known : hash ∈ tree.mapBlockIndex)
    (noData : (tree.nStatus hash).haveData = false) (outside : hash ∉ tree.chainActive) :
    AtRest context (tree.editStatus hash fun nStatus => { nStatus with failedValid := true })
      tip := by
  obtain ⟨isTip, activating, unpruned, trimmed⟩ := rest
  set after := tree.editStatus hash fun nStatus => { nStatus with failedValid := true } with isAfter
  have statuses : ∀ other, after.nStatus other =
      if other = hash then { tree.nStatus hash with failedValid := true } else tree.nStatus other :=
    fun other => nStatus_editStatus tree hash other fun nStatus =>
      { nStatus with failedValid := true }
  have advance : Advance tree after :=
    Advance.editStatus known rfl id (fun _ => rfl) fun _ => rfl
  have others : ∀ {other}, other ≠ hash → after.nStatus other = tree.nStatus other := by
    intro other different
    rw [statuses, if_neg different]
  have active : ∀ other ∈ tree.chainActive, after.nStatus other = tree.nStatus other := by
    intro other member
    apply others
    rintro rfl
    exact outside member
  have own : (after.nStatus hash).failedValid = true := by
    rw [statuses, if_pos rfl]
  have unfailed : ∀ other, (after.nStatus other).failed = false →
      (tree.nStatus other).failed = false := by
    intro other valid
    by_contra failed
    rw [advance.failed other (Bool.eq_true_of_not_eq_false failed)] at valid
    contradiction
  have sameTip : ∀ newTip, after.tip = some newTip →
      tree.sortKey context newTip ≤ tree.sortKey context tip := by
    intro newTip isNewTip
    cases isTip.symm.trans isNewTip
    exact le_refl _
  refine ⟨isTip, ?_, unpruned.raised ?_,
    trimmed.of_advance advance isTip (fun _ => sameTip) fun _ => id⟩
  · constructor
    · rw [advance.pprev, advance.nHeight]
      exact activating.graded
    · rw [advance.pprev, advance.nChainTx]
      exact activating.root
    · rw [advance.pprev, advance.nChainTx]
      exact activating.linked
    · rw [advance.nChainTx]
      exact activating.candidates
    · rw [advance.ancestry]
      exact activating.active
    · rw [advance.nChainTx]
      exact activating.activeLinked
    · intro other member
      rw [active other member]
      exact activating.activeValid other member
    · intro other failed
      rw [advance.ancestry]
      by_cases same : other = hash
      · rw [same]
        exact ⟨hash, activating.self_mem_ancestry hash, own⟩
      · rw [others same] at failed
        obtain ⟨place, onPath, guilty⟩ := activating.blamed other failed
        exact ⟨place, onPath, advance.failedValid place guilty⟩
    · intro pair member
      simp only [Stuck, advance.pprev, advance.nChainTx, advance.ancestry, advance.haveData]
      exact activating.waiting pair member
    · exact activating.bestCandidate
    · obtain ⟨top, isTop, chain⟩ := activating.active
      cases isTip.symm.trans isTop
      rw [advance.ancestry, ← chain]
      intro place onChain
      obtain ⟨valid, accepted⟩ := activating.activeValid place onChain
      rw [active place onChain]
      exact ⟨valid, accepted, Or.inl onChain⟩
    · intro other linked haveData valid order
      rw [advance.nChainTx] at linked
      rw [advance.haveData] at haveData
      rw [advance.sortKey] at order
      exact activating.complete other linked haveData (unfailed other valid) order
  · have sameFlags : ∀ other, (after.nStatus other).haveUndo = (tree.nStatus other).haveUndo ∧
        after.level other = tree.level other := by
      intro other
      rw [level, statuses]
      split
      · rename_i same
        rw [same]
        exact ⟨rfl, rfl⟩
      · exact ⟨rfl, rfl⟩
    refine ⟨advance, rfl, fun other haveUndo => Or.inl ?_, fun other failed => ?_,
      fun other => Or.inl (sameFlags other).2, fun other member => ?_⟩
    · rw [← (sameFlags other).1]
      exact haveUndo
    · by_cases same : other = hash
      · exact Or.inr (Or.inr (same ▸ noData))
      · rw [others same] at failed
        exact Or.inl failed
    · rw [(sameFlags other).1, (sameFlags other).2]
      exact unpruned.active other member

theorem AtRest.acceptTransactions (rest : AtRest context tree tip) (checked : Check ℕ+)
    (nFile : Nat) (known : hash ∈ tree.mapBlockIndex)
    (unfailed : (tree.nStatus hash).failed = false) :
    ∃ after, tree.acceptTransactions context checked nFile hash = some after ∧
      AtRest context after tip := by
  unfold BlockTree.acceptTransactions
  split
  · exact ⟨tree, rfl, rest⟩
  · rename_i absent
    rw [Bool.or_eq_true, not_or, Bool.not_eq_true, decide_eq_true_eq] at absent
    obtain ⟨noData, outside⟩ := absent
    have unlinked : tree.nChainTx hash = 0 := by
      by_contra linked
      have stored := rest.unpruned.stored hash linked
      rw [noData] at stored
      contradiction
    cases checked with
    | ok nTx =>
        exact rest.receivedBlockTransactions ⟨known, noData, unfailed, unlinked⟩ nTx.pos nFile
    | error failure =>
        cases failure with
        | invalid rejection =>
            simp only
            split
            · exact ⟨tree, rfl, rest⟩
            · exact ⟨_, rfl, rest.markFailed known noData outside⟩
        | error => exact ⟨tree, rfl, rest⟩
        | assertion => exact ⟨tree, rfl, rest⟩
        | overflow => exact ⟨tree, rfl, rest⟩

end Steps

section Init

/-- The index of the genesis block alone, as `InitBlockIndex` starts with it. -/
def genesisOnly (context : NodeContext) : BlockTree :=
  { toHeaderIndex := HeaderIndex.genesis context.env
    chainActive := []
    setBlockIndexCandidates := []
    mapBlocksUnlinked := []
    nBlockSequenceId := 1
    fHavePruned := false }

/-- `InitBlockIndex`, behind the write of the genesis block. -/
def initBlockIndex (context : NodeContext) : Option BlockTree := do
  let tree ← (genesisOnly context).receivedBlockTransactions context 1 0 context.hashGenesisBlock
  tree.activateBestChain context

theorem activateBestChain_of_first (inactive : tree.chainActive = [])
    (candidates : tree.setBlockIndexCandidates = [context.hashGenesisBlock])
    (isRoot : tree.pprev context.hashGenesisBlock = none)
    (level : tree.nHeight context.hashGenesisBlock = 0)
    (linked : tree.nChainTx context.hashGenesisBlock ≠ 0)
    (haveData : (tree.nStatus context.hashGenesisBlock).haveData = true)
    (unfailed : (tree.nStatus context.hashGenesisBlock).failed = false) :
    tree.activateBestChain context =
      some { tree with chainActive := [context.hashGenesisBlock] } := by
  obtain ⟨index, chainActive, setBlockIndexCandidates, mapBlocksUnlinked, nBlockSequenceId,
    fHavePruned⟩ := tree
  dsimp only at inactive candidates
  subst inactive candidates
  set genesis := context.hashGenesisBlock with isGenesis
  set empty : BlockTree :=
    ⟨index, [], [genesis], mapBlocksUnlinked, nBlockSequenceId, fHavePruned⟩ with isEmpty
  set connected : BlockTree :=
    ⟨index, [genesis], [genesis], mapBlocksUnlinked, nBlockSequenceId, fHavePruned⟩ with isConnected
  have path : empty.ancestry genesis = [genesis] := by
    rw [ancestry, Forest.path, level, Forest.climb]
  have noTip : empty.tip = none := rfl
  have most : empty.findMostWorkChain context (empty.setBlockIndexCandidates.length + 1) =
      some (some genesis, empty) := by
    have last : empty.lastCandidate context empty.setBlockIndexCandidates = some genesis := rfl
    have usable : empty.findUnusable (empty.ancestry genesis) = some none := by
      rw [path, findUnusable, if_neg List.not_mem_nil, if_neg fun both => linked both.1, unfailed,
        haveData]
      rfl
    rw [findMostWorkChain]
    simp only [last, usable]
  have connects : empty.connectTip context genesis = some (true, connected) := by
    have accepted : context.rejected genesis = false := by
      rw [NodeContext.rejected, isGenesis]
      simp
    rw [connectTip_of_not_rejected (isRoot.trans noTip.symm) haveData accepted, validated,
      if_pos isGenesis]
  have keeps : connected.pruneBlockIndexCandidates context = some connected := by
    have best : connected.worseThanTip context genesis = false := by
      rw [Bool.eq_false_iff, ne_eq, @worseThanTip_iff _ _ _ genesis rfl]
      exact lt_irrefl _
    have kept : connected.setBlockIndexCandidates.filter (fun pindex =>
        !connected.worseThanTip context pindex) = [genesis] := by
      change [genesis].filter _ = _
      rw [List.filter_cons, best]
      rfl
    rw [pruneBlockIndexCandidates, kept]
    rfl
  have steps : empty.activateBestChainStep context genesis = some connected := by
    have noFork : ((empty.ancestry genesis).find? fun walk => decide (walk ∈ empty.chainActive)) =
        none := by
      rw [path]
      rfl
    have ancestor : empty.getAncestor genesis 0 = some genesis := by
      rw [getAncestor, path]
      simp [level]
    have disconnected : disconnectTo none empty.chainActive.length empty = some empty := rfl
    rw [activateBestChainStep, noFork, disconnected]
    simp only [Option.bind_eq_bind, Option.bind_some, Option.map_none, Option.getD_none]
    rw [connectTowards, level]
    simp [level, ancestor, path, connectBlocks, connects, keeps, noTip]
  have room : 0 < (index.mapBlockIndex.size + 1) * (index.mapBlockIndex.size + 1) :=
    Nat.mul_pos (Nat.succ_pos _) (Nat.succ_pos _)
  obtain ⟨fuel, isFuel⟩ := Nat.exists_eq_succ_of_ne_zero room.ne'
  rw [BlockTree.activateBestChain, isFuel, activateLoop]
  have newTip : connected.tip = some genesis := rfl
  simp [most, noTip, steps, newTip]

/-- The entry of the genesis block once its data is stored. -/
def genesisEntry (context : NodeContext) : CBlockIndex :=
  { newBlockIndex ∅ context.env.params.genesis with
    nTx := 1
    nChainTx := 1
    nStatus := { BlockStatus.null with validity := .transactions, haveData := true }
    nSequenceId := 1 }

theorem newBlockIndex_empty (block : CBlockHeader) :
    (newBlockIndex ∅ block).pprev = none ∧ (newBlockIndex ∅ block).nHeight = 0 ∧
      (newBlockIndex ∅ block).nFile = 0 ∧ (newBlockIndex ∅ block).nTx = 0 ∧
      (newBlockIndex ∅ block).nStatus = { BlockStatus.null with validity := .tree } := by
  have unknown : (∅ : BlockMap)[block.hashPrevBlock]? = none := Std.ExtTreeMap.getElem?_empty
  simp only [newBlockIndex, unknown]
  exact ⟨rfl, rfl, rfl, rfl, rfl⟩

theorem entry_genesisOnly (context : NodeContext) (hash : Uint256) :
    (genesisOnly context).entry hash =
      if hash = context.hashGenesisBlock then newBlockIndex ∅ context.env.params.genesis
      else CBlockIndex.null := by
  have index : (genesisOnly context).mapBlockIndex = (∅ : BlockMap).insert
      context.hashGenesisBlock (newBlockIndex ∅ context.env.params.genesis) :=
    genesis_mapBlockIndex context.env
  rw [entry, index, KeyedBatch.getElem?_insert_eq]
  split
  · rfl
  · rw [Std.ExtTreeMap.getElem?_empty]
    rfl

/-- The genesis block is received and connected, and nothing else is known. -/
theorem initBlockIndex_spec (context : NodeContext) :
    ∃ tree, initBlockIndex context = some tree ∧
      tree.chainActive = [context.hashGenesisBlock] ∧
      tree.setBlockIndexCandidates = [context.hashGenesisBlock] ∧ tree.mapBlocksUnlinked = [] ∧
      (∀ hash, hash ∈ tree.mapBlockIndex ↔ hash = context.hashGenesisBlock) ∧
      ∀ hash, tree.entry hash =
        if hash = context.hashGenesisBlock then genesisEntry context else CBlockIndex.null := by
  set genesis := context.hashGenesisBlock with isGenesis
  obtain ⟨isRoot, level, file, untouched, status⟩ :=
    newBlockIndex_empty context.env.params.genesis
  have started : (genesisOnly context).entry genesis =
      newBlockIndex ∅ context.env.params.genesis := by
    rw [entry_genesisOnly, if_pos rfl]
  set kept := (genesisOnly context).stored 1 0 genesis [] with isKept
  have keptEntry : kept.entry genesis =
      { newBlockIndex ∅ context.env.params.genesis with
        nTx := 1
        nChainTx := 0
        nStatus := { BlockStatus.null with validity := .transactions, haveData := true } } := by
    rw [isKept, entry_stored, if_pos rfl, started, nStatus, started, status]
    simp [file]
    rfl
  have keptOther : ∀ hash, hash ≠ genesis → kept.entry hash = CBlockIndex.null := by
    intro hash different
    rw [isKept, entry_stored, if_neg different, entry_genesisOnly, if_neg different]
  have keptRoot : kept.pprev genesis = none := by
    rw [BlockTree.pprev, keptEntry]
    exact isRoot
  set linked := kept.linkBlock context genesis with isLinked
  have received : (genesisOnly context).receivedBlockTransactions context 1 0 genesis =
      some linked := by
    have same : (genesisOnly context).storeBlock 1 0 genesis = kept := rfl
    unfold BlockTree.receivedBlockTransactions
    simp only [same, keptRoot]
    exact linkBlocks_cons 1 List.not_mem_nil
  have linkedEntry : ∀ hash, linked.entry hash =
      if hash = genesis then genesisEntry context else CBlockIndex.null := by
    intro hash
    rw [isLinked, entry_linkBlock]
    split
    · rw [keptRoot, BlockTree.nTx, keptEntry]
      rfl
    · rename_i different
      exact keptOther hash different
  have candidates : linked.setBlockIndexCandidates = [genesis] := by
    have better : (kept.number genesis).worseThanTip context genesis = false := rfl
    rw [isLinked, linkBlock, if_neg (by rw [better]; simp)]
    rfl
  have inactive : linked.chainActive = [] := chainActive_linkBlock
  have own := linkedEntry genesis
  rw [if_pos rfl] at own
  have activated : linked.activateBestChain context =
      some { linked with chainActive := [genesis] } :=
    activateBestChain_of_first inactive candidates
    (by rw [BlockTree.pprev, own]; exact isRoot) (by rw [nHeight, own]; exact level)
    (by rw [nChainTx, own]; exact one_ne_zero) (by rw [nStatus, own]; rfl)
    (by rw [nStatus, own]; rfl)
  refine ⟨{ linked with chainActive := [genesis] }, ?_, rfl, candidates, rfl, fun hash => ?_,
    linkedEntry⟩
  · rw [initBlockIndex, ← isGenesis, received]
    exact activated
  · have known : genesis ∈ kept.mapBlockIndex := by
      change genesis ∈ ((genesisOnly context).storeBlock 1 0 genesis).mapBlockIndex
      rw [storeBlock, mem_edit]
      exact Or.inl rfl
    change hash ∈ linked.mapBlockIndex ↔ _
    rw [isLinked, mem_linkBlock known]
    change hash ∈ ((genesisOnly context).storeBlock 1 0 genesis).mapBlockIndex ↔ _
    have index : (genesisOnly context).mapBlockIndex = (∅ : BlockMap).insert genesis
        (newBlockIndex ∅ context.env.params.genesis) := genesis_mapBlockIndex context.env
    rw [storeBlock, mem_edit, index, Std.ExtTreeMap.mem_insert, Std.compare_eq_iff_eq]
    simp [eq_comm]

theorem atRest_initBlockIndex (context : NodeContext) :
    ∃ tree, initBlockIndex context = some tree ∧ AtRest context tree context.hashGenesisBlock := by
  obtain ⟨tree, ran, chain, candidates, unlinked, members, entries⟩ := initBlockIndex_spec context
  refine ⟨tree, ran, ?_⟩
  set genesis := context.hashGenesisBlock with isGenesis
  have isTip : tree.tip = some genesis := by
    rw [BlockTree.tip, chain]
    rfl
  have pprevs : ∀ hash, tree.pprev hash = none := by
    intro hash
    rw [BlockTree.pprev, entries]
    split
    · exact (newBlockIndex_empty context.env.params.genesis).1
    · rfl
  have heights : ∀ hash, tree.nHeight hash = 0 := by
    intro hash
    rw [nHeight, entries]
    split
    · exact (newBlockIndex_empty context.env.params.genesis).2.1
    · rfl
  have counts : ∀ hash, tree.nChainTx hash = if hash = genesis then 1 else 0 := by
    intro hash
    rw [nChainTx, entries]
    split <;> rfl
  have sizes : ∀ hash, tree.nTx hash = if hash = genesis then 1 else 0 := by
    intro hash
    rw [nTx, entries]
    split <;> rfl
  have statuses : ∀ hash, tree.nStatus hash =
      if hash = genesis then { BlockStatus.null with validity := .transactions, haveData := true }
      else BlockStatus.null := by
    intro hash
    rw [nStatus, entries]
    split <;> rfl
  have onlyGenesis : ∀ {hash}, tree.nChainTx hash ≠ 0 → hash = genesis := by
    intro hash linked
    by_contra different
    rw [counts, if_neg different] at linked
    contradiction
  have unfailed : ∀ hash, (tree.nStatus hash).failed = false := by
    intro hash
    rw [statuses]
    split <;> rfl
  have accepted : context.rejected genesis = false := by
    rw [NodeContext.rejected, isGenesis]
    simp
  have path : ∀ hash, tree.ancestry hash = [hash] := by
    intro hash
    rw [ancestry, Forest.path, heights, Forest.climb]
  have onlyCandidate : Trimmed context tree := by
    intro _ newTip isNewTip hash candidate
    cases isTip.symm.trans isNewTip
    rw [candidates] at candidate
    rw [List.mem_singleton.mp candidate]
  refine ⟨isTip, ?_, ?_, onlyCandidate⟩
  · constructor
    · exact ⟨fun hash _ => heights hash, fun hash above isParent => by
        rw [pprevs] at isParent
        contradiction⟩
    · exact fun hash linked _ => onlyGenesis linked
    · intro hash above _ isParent
      rw [pprevs] at isParent
      contradiction
    · rw [candidates]
      intro hash candidate
      rw [counts, if_pos (List.mem_singleton.mp candidate)]
      exact one_ne_zero
    · exact ⟨genesis, isTip, by rw [chain, path]⟩
    · rw [chain]
      intro hash active
      rw [counts, if_pos (List.mem_singleton.mp active)]
      exact one_ne_zero
    · rw [chain]
      intro hash active
      rw [List.mem_singleton.mp active]
      exact ⟨unfailed genesis, accepted⟩
    · intro hash failed
      rw [unfailed] at failed
      contradiction
    · rw [unlinked]
      intro pair member
      contradiction
    · rw [candidates]
      exact List.mem_cons_self
    · intro place onPath
      rw [path, List.mem_singleton] at onPath
      rw [onPath, chain]
      exact ⟨unfailed genesis, accepted, Or.inl List.mem_cons_self⟩
    · intro hash linked _ _ _
      rw [candidates, onlyGenesis linked]
      exact Or.inl List.mem_cons_self
  · constructor
    · intro hash above isParent
      rw [pprevs] at isParent
      contradiction
    · exact fun hash member _ => (members hash).mp member
    · intro hash member
      rw [level, statuses, if_pos ((members hash).mp member)]
      decide
    · intro hash
      rw [statuses, sizes]
      split <;> decide
    · intro hash
      rw [level, statuses, sizes]
      split <;> decide
    · intro hash linked
      rw [statuses, if_pos (onlyGenesis linked)]
    · intro hash notLinked
      have different : hash ≠ genesis := by
        rintro same
        rw [counts, if_pos same] at notLinked
        contradiction
      rw [entries, if_neg different]
      rfl
    · intro hash haveUndo
      rw [statuses] at haveUndo
      split at haveUndo <;> contradiction
    · exact fun hash _ _ => unfailed hash
    · intro hash high
      rw [level, statuses] at high
      split at high <;> exact absurd high (by decide)
    · rw [chain]
      exact fun hash active => Or.inl (List.mem_singleton.mp active)
    · intro hash haveData notLinked
      have different : hash ≠ genesis := by
        rintro same
        rw [counts, if_pos same] at notLinked
        contradiction
      rw [statuses, if_neg different] at haveData
      contradiction
    · rw [unlinked]
      intro pair member
      contradiction
    · intro hash member
      contradiction
    · rw [unlinked]
      exact List.nodup_nil

end Init

section Run

/-- What a node does with its block tree. -/
inductive Call where
  | acceptBlockHeader (nAdjustedTime : Int) (block : CBlockHeader)
  | acceptBlock (nAdjustedTime : Int) (block : CBlockHeader) (checked : Check ℕ+) (nFile : Nat)
  | activateBestChain

def call (context : NodeContext) (tree : BlockTree) : Call → Option BlockTree
  | .acceptBlockHeader nAdjustedTime block => some (tree.acceptHeader context nAdjustedTime block).2
  | .acceptBlock nAdjustedTime block checked nFile =>
      tree.acceptBlock context nAdjustedTime block checked nFile
  | .activateBestChain => tree.activateBestChain context

def run (context : NodeContext) (calls : List Call) : Option BlockTree := do
  let tree ← initBlockIndex context
  calls.foldlM (BlockTree.call context) tree

theorem AtRest.call (rest : AtRest context tree tip) (call : Call) :
    ∃ after newTip, tree.call context call = some after ∧ AtRest context after newTip := by
  cases call with
  | acceptBlockHeader nAdjustedTime block =>
      exact ⟨_, tip, rfl, rest.acceptHeader nAdjustedTime block⟩
  | acceptBlock nAdjustedTime block checked nFile =>
      have next := rest.acceptHeader nAdjustedTime block
      simp only [BlockTree.call, BlockTree.acceptBlock]
      cases verdict : (tree.acceptHeader context nAdjustedTime block).1 with
      | error failure => exact ⟨_, tip, rfl, next⟩
      | ok value =>
          obtain ⟨known, unfailed⟩ := known_of_acceptHeader verdict
          obtain ⟨after, ran, later⟩ := next.acceptTransactions checked nFile known unfailed
          exact ⟨after, tip, ran, later⟩
  | activateBestChain =>
      obtain ⟨after, newTip, ran, later, _⟩ := rest.activateBestChain
      exact ⟨after, newTip, ran, later⟩

theorem AtRest.calls (rest : AtRest context tree tip) (calls : List Call) :
    ∃ after newTip, calls.foldlM (BlockTree.call context) tree = some after ∧
      AtRest context after newTip := by
  induction calls generalizing tree tip with
  | nil => exact ⟨tree, tip, rfl, rest⟩
  | cons first calls ih =>
      obtain ⟨next, nextTip, ran, nextRest⟩ := rest.call first
      rw [List.foldlM_cons, ran]
      exact ih nextRest

theorem atRest_run (context : NodeContext) (calls : List Call) :
    ∃ tree tip, run context calls = some tree ∧ AtRest context tree tip := by
  obtain ⟨start, started, rest⟩ := atRest_initBlockIndex context
  obtain ⟨after, tip, ran, later⟩ := rest.calls calls
  exact ⟨after, tip, by rw [run, started]; exact ran, later⟩

/-- A block on whose path nothing is missing, failed or rejected. -/
def Sound (context : NodeContext) (tree : BlockTree) (hash : Uint256) : Prop :=
  ∀ place ∈ tree.ancestry hash, (tree.nStatus place).haveData = true ∧
    (tree.nStatus place).failed = false ∧ context.rejected place = false

theorem AtRest.linked (rest : AtRest context tree tip)
    (stored : ∀ place ∈ tree.ancestry hash, (tree.nStatus place).haveData = true ∧
      (tree.nStatus place).failed = false) : tree.nChainTx hash ≠ 0 := by
  induction hash using rest.activating.graded.induction with
  | root node isRoot =>
      intro unlinked
      have haveData := (stored node (rest.activating.self_mem_ancestry node)).1
      obtain ⟨pprev, isParent, _⟩ :=
        (rest.unpruned.waits node haveData unlinked).resolve_left List.not_mem_nil
      rw [isRoot] at isParent
      contradiction
  | step node above isParent ih =>
      intro unlinked
      have haveData := (stored node (rest.activating.self_mem_ancestry node)).1
      obtain ⟨pprev, isOther, aboveUnlinked, _⟩ :=
        (rest.unpruned.waits node haveData unlinked).resolve_left List.not_mem_nil
      cases isParent.symm.trans isOther
      exact ih (fun place onPath => stored place
        ((rest.activating.graded.mem_path_of_parent isParent).mpr (Or.inr onPath))) aboveUnlinked

theorem AtRest.sound_active (rest : AtRest context tree tip) : Sound context tree tip := by
  obtain ⟨top, isTop, chain⟩ := rest.activating.active
  cases rest.isTip.symm.trans isTop
  intro place onPath
  rw [← chain] at onPath
  obtain ⟨valid, accepted⟩ := rest.activating.activeValid place onPath
  exact ⟨rest.unpruned.stored place (rest.activating.activeLinked place onPath), valid, accepted⟩

/-- Whatever arrived before, and in whatever order, `ActivateBestChain` ends, and the tip of the
chain that it leaves is the best block without a missing, failed or rejected block on its path. -/
theorem bestChain_run (context : NodeContext) (calls : List Call) :
    ∃ before after tip, run context calls = some before ∧
      before.activateBestChain context = some after ∧ after.tip = some tip ∧
      after.chainActive = after.ancestry tip ∧ Sound context after tip ∧
      ∀ hash, Sound context after hash → after.workComparator context tip hash = false := by
  obtain ⟨before, oldTip, ran, rest⟩ := atRest_run context calls
  obtain ⟨after, tip, activated, settled, heading⟩ := rest.activateBestChain
  obtain ⟨top, isTop, chain⟩ := settled.activating.active
  cases settled.isTip.symm.trans isTop
  refine ⟨before, after, tip, ran, activated, isTop, chain, settled.sound_active,
    fun hash sound => ?_⟩
  have usable : Usable context after hash :=
    ⟨settled.linked fun place onPath => ⟨(sound place onPath).1, (sound place onPath).2.1⟩, sound⟩
  rw [Bool.eq_false_iff, ne_eq, workComparator_iff, not_lt]
  exact settled.activating.sortKey_le_of_usable heading usable

end Run

section Checks

/-- The conditions of `CheckBlockIndex` on a tree that was never pruned.  Left out are those on
the skip list and on the work of an entry and its predecessor, which the last condition takes for
granted: a sum of work may wrap. -/
structure CheckBlockIndex (context : NodeContext) (tree : BlockTree) : Prop where
  genesis : ∀ hash ∈ tree.mapBlockIndex, tree.pprev hash = none →
    hash = context.hashGenesisBlock ∧ hash ∈ tree.chainActive ∧ tree.nHeight hash = 0
  unnumbered : ∀ hash, tree.nChainTx hash = 0 → (tree.entry hash).nSequenceId = 0
  haveData : ∀ hash, (tree.nStatus hash).haveData = true ↔ tree.nTx hash ≠ 0
  haveUndo : ∀ hash, (tree.nStatus hash).haveUndo = true → (tree.nStatus hash).haveData = true
  transactionsValid : ∀ hash,
    BlockValidity.transactions.level ≤ tree.level hash ↔ tree.nTx hash ≠ 0
  nChainTx : ∀ hash ∈ tree.mapBlockIndex,
    tree.nChainTx hash ≠ 0 ↔ ∀ place ∈ tree.ancestry hash, tree.nTx place ≠ 0
  nHeight : ∀ hash pprev, tree.pprev hash = some pprev →
    tree.nHeight hash = tree.nHeight pprev + 1
  treeValid : ∀ hash ∈ tree.mapBlockIndex, BlockValidity.tree.level ≤ tree.level hash
  chainValid : ∀ nUpTo ∈ [BlockValidity.chain, .scripts], ∀ hash,
    nUpTo.level ≤ tree.level hash → ∀ place ∈ tree.ancestry hash, tree.pprev place ≠ none →
      nUpTo.level ≤ tree.level place
  failed : ∀ hash, (tree.nStatus hash).failed = true →
    ∃ place ∈ tree.ancestry hash, (tree.nStatus place).failedValid = true
  candidate : ∀ hash ∈ tree.mapBlockIndex, tree.worseThanTip context hash = false →
    (∀ place ∈ tree.ancestry hash, tree.nTx place ≠ 0) →
    (∀ place ∈ tree.ancestry hash, (tree.nStatus place).failedValid = false) →
    hash ∈ tree.setBlockIndexCandidates
  received : ∀ hash ∈ tree.setBlockIndexCandidates,
    ∀ place ∈ tree.ancestry hash, tree.nTx place ≠ 0
  unlinked : ∀ hash pprev, tree.pprev hash = some pprev → (tree.nStatus hash).haveData = true →
    (∃ place ∈ tree.ancestry hash, tree.nTx place = 0) →
    (∀ place ∈ tree.ancestry hash, (tree.nStatus place).failedValid = false) →
    (pprev, hash) ∈ tree.mapBlocksUnlinked
  waits : ∀ pair ∈ tree.mapBlocksUnlinked, tree.pprev pair.2 = some pair.1 ∧
    (tree.nStatus pair.2).haveData = true ∧ ∃ place ∈ tree.ancestry pair.2, tree.nTx place = 0
  trimmed : tree.WorkRises → ∀ hash ∈ tree.setBlockIndexCandidates,
    tree.worseThanTip context hash = false

/-- An entry is linked just if all blocks on its path were received. -/
theorem AtRest.linked_iff (rest : AtRest context tree tip) (known : hash ∈ tree.mapBlockIndex) :
    tree.nChainTx hash ≠ 0 ↔ ∀ place ∈ tree.ancestry hash, tree.nTx place ≠ 0 := by
  have unpruned := rest.unpruned
  constructor
  · intro linked place onPath
    exact (unpruned.received place).mp
      (unpruned.stored place (rest.activating.linked_of_mem_ancestry linked onPath))
  · intro received
    induction hash using rest.activating.graded.induction with
    | root node isRoot =>
        rw [unpruned.rooted node known isRoot]
        exact rest.activating.activeLinked _ rest.activating.genesis_active
    | step node above isParent ih =>
        have aboveLinked := ih (unpruned.known node above isParent) fun place onPath =>
          received place ((rest.activating.graded.mem_path_of_parent isParent).mpr (Or.inr onPath))
        intro unlinked
        have haveData := (unpruned.received node).mpr
          (received node (rest.activating.self_mem_ancestry node))
        obtain ⟨pprev, isOther, aboveUnlinked, _⟩ :=
          (unpruned.waits node haveData unlinked).resolve_left List.not_mem_nil
        cases isParent.symm.trans isOther
        exact aboveLinked aboveUnlinked

theorem mem_of_haveData (haveData : (tree.nStatus hash).haveData = true) :
    hash ∈ tree.mapBlockIndex := by
  by_contra absent
  rw [nStatus, entry_eq_null absent] at haveData
  contradiction

theorem Activating.genesis_root (activating : Activating context tree best) :
    tree.pprev context.hashGenesisBlock = none := by
  have linked := activating.activeLinked _ activating.genesis_active
  cases isParent : tree.pprev context.hashGenesisBlock with
  | none => rfl
  | some above =>
      have higher := activating.genesis_mem_ancestry (activating.linked _ above linked isParent)
      have low := activating.graded.height_le_of_mem_path higher
      have high := activating.graded.step _ above isParent
      omega

theorem AtRest.checkBlockIndex (rest : AtRest context tree tip) : CheckBlockIndex context tree := by
  obtain ⟨isTip, activating, unpruned, trimmed⟩ := id rest
  constructor
  · intro hash member isRoot
    have isGenesis := unpruned.rooted hash member isRoot
    refine ⟨isGenesis, ?_, activating.graded.root hash isRoot⟩
    rw [isGenesis]
    exact activating.genesis_active
  · exact unpruned.unnumbered
  · exact unpruned.received
  · exact unpruned.undoStored
  · exact unpruned.checked
  · exact fun hash member => rest.linked_iff member
  · exact fun hash pprev isParent => activating.graded.step hash pprev isParent
  · exact unpruned.placed
  · intro nUpTo isLevel hash high place onPath hasParent
    have atLeast : BlockValidity.chain.level ≤ nUpTo.level ∧
        nUpTo.level ≤ BlockValidity.scripts.level := by
      rcases List.mem_cons.mp isLevel with rfl | isScripts
      · decide
      · rw [List.mem_singleton.mp isScripts]
        decide
    rcases unpruned.validated hash (atLeast.1.trans high) place onPath with isGenesis | scripts
    · rw [isGenesis] at hasParent
      exact absurd activating.genesis_root hasParent
    · exact atLeast.2.trans scripts
  · exact activating.blamed
  · intro hash member better received valid
    have linked := (rest.linked_iff member).mpr received
    have order : tree.sortKey context tip ≤ tree.sortKey context hash := by
      rw [Bool.eq_false_iff, ne_eq, worseThanTip_iff isTip, not_lt] at better
      exact better
    have unfailed : (tree.nStatus hash).failed = false := by
      by_contra failed
      obtain ⟨place, onPath, guilty⟩ :=
        activating.blamed hash (Bool.eq_true_of_not_eq_false failed)
      rw [valid place onPath] at guilty
      contradiction
    refine (activating.complete hash linked (unpruned.stored hash linked) unfailed order).resolve_right
      ?_
    rintro ⟨pair, waits, rfl⟩
    exact linked (unpruned.pending pair waits).2
  · intro hash candidate
    have linked := activating.candidates hash candidate
    exact (rest.linked_iff (mem_of_nChainTx_ne_zero linked)).mp linked
  · intro hash pprev isParent haveData missing valid
    have unlinked : tree.nChainTx hash = 0 := by
      by_contra linked
      obtain ⟨place, onPath, unreceived⟩ := missing
      exact (rest.linked_iff (mem_of_haveData haveData)).mp linked place onPath unreceived
    obtain ⟨above, isOther, _, why⟩ :=
      (unpruned.waits hash haveData unlinked).resolve_left List.not_mem_nil
    cases isParent.symm.trans isOther
    refine why.resolve_right fun failed => ?_
    obtain ⟨place, onPath, guilty⟩ := activating.blamed pprev failed
    rw [valid place ((activating.graded.mem_path_of_parent isParent).mpr (Or.inr onPath))] at guilty
    contradiction
  · intro pair member
    obtain ⟨haveData, unlinked⟩ := unpruned.pending pair member
    refine ⟨(activating.waiting pair member).1, haveData, ?_⟩
    by_contra received
    push Not at received
    exact (rest.linked_iff (mem_of_haveData haveData)).mpr received unlinked
  · intro rises hash candidate
    rw [Bool.eq_false_iff, ne_eq, worseThanTip_iff isTip, not_lt]
    exact trimmed rises tip isTip hash candidate

/-- The conditions of `CheckBlockIndex` hold after every call. -/
theorem checkBlockIndex_run (context : NodeContext) (calls : List Call) :
    ∃ tree, run context calls = some tree ∧ CheckBlockIndex context tree := by
  obtain ⟨tree, tip, ran, rest⟩ := atRest_run context calls
  exact ⟨tree, ran, rest.checkBlockIndex⟩

end Checks

end BlockTree

end Lycancoin
