import Lycancoin.Chain.ActivationStep

namespace Lycancoin

open Lycancoin.Data

namespace BlockTree

variable {context : NodeContext} {tree after : BlockTree} {best hash : Uint256}

/-- The data and the undo data that `DisconnectTip` needs are there. -/
def Readable (context : NodeContext) (tree : BlockTree) : Prop :=
  ∀ hash ∈ tree.chainActive, hash ≠ context.hashGenesisBlock →
    (tree.nStatus hash).haveData = true ∧ (tree.nStatus hash).haveUndo = true

theorem disconnectTip_eq_none_iff {tip : Uint256} (isTip : tree.tip = some tip) :
    tree.disconnectTip = none ↔
      ¬ ((tree.nStatus tip).haveData = true ∧ (tree.nStatus tip).haveUndo = true) := by
  rw [disconnectTip]
  cases chain : tree.chainActive with
  | nil =>
      rw [BlockTree.tip, chain] at isTip
      contradiction
  | cons first rest =>
      rw [BlockTree.tip, chain] at isTip
      cases isTip
      simp

theorem Activating.disconnectTo (activating : Activating context tree best) {fork : Uint256}
    (onChain : fork ∈ tree.chainActive) {fuel : Nat} (enough : tree.chainActive.length ≤ fuel) :
    (BlockTree.disconnectTo (some fork) fuel tree = none ∧ ¬ Readable context tree) ∨
    ∃ after, BlockTree.disconnectTo (some fork) fuel tree = some after ∧
      Activating context after best ∧ Moves context tree after ∧ Advance tree after ∧
      after.tip = some fork ∧
      after.setBlockIndexCandidates = tree.setBlockIndexCandidates ∧
      after.mapBlockIndex = tree.mapBlockIndex := by
  induction fuel generalizing tree with
  | zero =>
      have nonempty := List.length_pos_of_mem onChain
      omega
  | succ fuel ih =>
      obtain ⟨tip, isTip, chain⟩ := activating.active
      unfold BlockTree.disconnectTo
      by_cases atFork : tip = fork
      · subst atFork
        rw [if_pos (Or.inr isTip)]
        exact Or.inr ⟨tree, rfl, activating, .refl, Advance.refl _, isTip, rfl, rfl⟩
      · have further : ¬ (tree.tip = none ∨ tree.tip = some fork) := by
          rw [isTip]
          simp [atFork]
        rw [if_neg further]
        have member : tip ∈ tree.chainActive := List.mem_of_mem_head? isTip
        have linked := activating.activeLinked tip member
        have notGenesis : tip ≠ context.hashGenesisBlock := by
          rintro rfl
          have forkLinked := activating.activeLinked fork onChain
          rw [chain] at onChain
          have below := activating.genesis_mem_ancestry forkLinked
          have level := activating.graded.height_le_of_mem_path below
          exact atFork (activating.graded.eq_of_mem_path_of_height_le onChain level).symm
        cases first : tree.disconnectTip with
        | none =>
            refine Or.inl ⟨rfl, fun readable => ?_⟩
            exact (disconnectTip_eq_none_iff isTip).mp first (readable tip member notGenesis)
        | some next =>
            obtain ⟨nextActivating, advance, nextTip, sameCandidates, sameIndex⟩ :=
              activating.disconnectTip isTip notGenesis first
            cases isParent : tree.pprev tip with
            | none => exact absurd (activating.root tip linked isParent) notGenesis
            | some pprev =>
                rw [isParent] at nextTip
                obtain ⟨tip', isTip', nextChain⟩ := nextActivating.active
                cases nextTip.symm.trans isTip'
                rw [advance.ancestry] at nextChain
                have path : tree.chainActive = tip :: tree.ancestry pprev := by
                  rw [chain]
                  exact activating.graded.path_of_parent isParent
                have stillOnChain : fork ∈ next.chainActive := by
                  rw [path] at onChain
                  rw [nextChain]
                  exact (List.mem_cons.mp onChain).resolve_left fun same => atFork same.symm
                have shorter : next.chainActive.length ≤ fuel := by
                  rw [path, List.length_cons] at enough
                  rw [nextChain]
                  omega
                rcases ih nextActivating stillOnChain shorter with
                  ⟨failed, unreadable⟩ |
                    ⟨after, rest, final, moves, advanced, reached, candidates, index⟩
                · refine Or.inl ⟨failed, fun readable => unreadable fun hash active => ?_⟩
                  rw [nStatus, entry, sameIndex]
                  rw [nextChain] at active
                  exact readable hash (by rw [path]; exact List.mem_cons_of_mem tip active)
                · exact Or.inr ⟨after, rest, final,
                    moves.head (.disconnect activating isTip notGenesis first),
                    advance.trans advanced, reached, candidates.trans sameCandidates,
                    index.trans sameIndex⟩

section Connect

/-- What a step of `ActivateBestChain` leaves behind when it stops on its way:
a block newly found invalid, or a tip with more work. -/
def Progress (context : NodeContext) (before after : BlockTree) (mostWork oldTip : Uint256) : Prop :=
  (after.tip ≠ some mostWork ∧
    ∃ hash, (before.nStatus hash).failedValid = false ∧ (after.nStatus hash).failedValid = true) ∨
  (Heading context after mostWork ∧
    ∃ newTip, after.tip = some newTip ∧
      before.sortKey context oldTip < before.sortKey context newTip)

theorem Progress.of_advance {before : BlockTree} {mostWork oldTip : Uint256}
    (progress : Progress context tree after mostWork oldTip) (advance : Advance before tree) :
    Progress context before after mostWork oldTip := by
  rcases progress with ⟨notDone, guilty, old, new⟩ | ⟨heading, newTip, isTip, above⟩
  · refine Or.inl ⟨notDone, guilty, ?_, new⟩
    by_contra marked
    rw [advance.failedValid guilty (Bool.eq_true_of_not_eq_false marked)] at old
    contradiction
  · rw [advance.sortKey] at above
    exact Or.inr ⟨heading, newTip, isTip, above⟩

theorem Activating.child_outside (activating : Activating context tree best) {tip : Uint256}
    (isTip : tree.tip = some tip) (isParent : tree.pprev hash = some tip) :
    hash ∉ tree.chainActive := by
  intro active
  obtain ⟨tip', isTip', chain⟩ := activating.active
  cases isTip.symm.trans isTip'
  rw [chain] at active
  have low := activating.graded.height_le_of_mem_path active
  have high := activating.graded.step hash tip isParent
  omega

theorem Activating.connectable_of_heading (activating : Activating context tree best)
    {mostWork : Uint256} (heading : Heading context tree mostWork)
    (onPath : hash ∈ tree.ancestry mostWork) (outside : hash ∉ tree.chainActive) :
    Connectable tree hash := by
  have linked := activating.candidates mostWork heading.candidate
  obtain ⟨_, valid, haveData⟩ := (heading.passable hash onPath).resolve_left outside
  exact ⟨activating.linked_of_mem_ancestry linked onPath, haveData, valid⟩

/-- The goal of the step is still the last candidate after a block on the way
to it is connected. -/
theorem Heading.connected {mostWork tip : Uint256} (activating : Activating context tree best)
    (heading : Heading context tree mostWork) (isTip : tree.tip = some tip)
    (isParent : tree.pprev hash = some tip) (connectable : Connectable tree hash)
    (connected : Connected context tree after hash) : Heading context after mostWork := by
  obtain ⟨advance, chain, candidates, failed, _⟩ := connected
  have below : tree.sortKey context hash ≤ tree.sortKey context mostWork := by
    by_cases order : tree.sortKey context best ≤ tree.sortKey context hash
    · exact heading.last hash
        (activating.candidate_of_connectable isTip isParent connectable order)
    · exact (not_le.mp order).le.trans (heading.last best activating.bestCandidate)
  refine ⟨(candidates mostWork).mpr ⟨heading.candidate, below⟩, ?_, ?_⟩
  · intro other candidate
    rw [advance.sortKey]
    exact heading.last other ((candidates other).mp candidate).1
  · intro place onPath
    rw [advance.ancestry] at onPath
    rw [Passable, chain, failed, advance.haveData]
    by_cases same : place = hash
    · exact Or.inl (by simp [same])
    · rcases heading.passable place onPath with active | ⟨outside, valid, haveData⟩
      · exact Or.inl (List.mem_cons_of_mem hash active)
      · exact Or.inr ⟨List.not_mem_cons_of_ne_of_not_mem same outside, valid, haveData⟩

theorem Activating.connectBlocks (activating : Activating context tree best)
    {mostWork tip : Uint256} {blocks : List Uint256} (oldTip : Uint256)
    (heading : Heading context tree mostWork) (isTip : tree.tip = some tip)
    (chain : (tip :: blocks).IsChain fun below above => tree.pprev above = some below)
    (onPath : ∀ hash ∈ blocks, hash ∈ tree.ancestry mostWork) :
    ∃ fContinue after better,
      BlockTree.connectBlocks context (some oldTip) blocks tree = some (fContinue, after) ∧
      Activating context after better ∧ Moves context tree after ∧ Advance tree after ∧
      if fContinue then
        Heading context after mostWork ∧ after.tip = (tip :: blocks).getLast?
      else Progress context tree after mostWork oldTip := by
  induction blocks generalizing tree tip best with
  | nil => exact ⟨true, tree, best, rfl, activating, .refl, Advance.refl tree, heading, isTip⟩
  | cons first blocks ih =>
      rw [List.isChain_cons_cons] at chain
      obtain ⟨isParent, restChain⟩ := chain
      have outside := activating.child_outside isTip isParent
      have connectable := activating.connectable_of_heading heading
        (onPath first List.mem_cons_self) outside
      cases verdict : context.rejected first with
      | true =>
          obtain ⟨after, ran, next, advance, sameTip, old, new⟩ :=
            activating.connectTip_rejected isTip isParent connectable outside verdict
          have notDone : after.tip ≠ some mostWork := by
            intro done
            cases (sameTip.trans isTip).symm.trans done
            have low := activating.graded.height_le_of_mem_path (onPath first List.mem_cons_self)
            have high := activating.graded.step first mostWork isParent
            omega
          refine ⟨false, after, best, ?_, next,
            .single (.reject activating isTip isParent connectable ran), advance,
            Or.inl ⟨notDone, first, old, new⟩⟩
          rw [BlockTree.connectBlocks, ran]
          rfl
      | false =>
          obtain ⟨extended, after, better, ran, pruned, next, connected⟩ :=
            activating.connectTip_accepted isTip isParent connectable verdict
          have newTip : after.tip = some first := by
            rw [BlockTree.tip, connected.chainActive]
            rfl
          have move : Move context tree after :=
            .connect activating isTip isParent connectable ran pruned
          have advance := connected.advance
          have nextHeading := heading.connected activating isTip isParent connectable connected
          by_cases improved : (after.entry oldTip).nChainWork < (after.entry first).nChainWork
          · refine ⟨false, after, better, ?_, next, .single move, advance,
              Or.inr ⟨nextHeading, first, newTip, ?_⟩⟩
            · rw [BlockTree.connectBlocks, ran]
              simp [pruned, improved]
            · rw [← advance.sortKey, sortKey, sortKey, Prod.Lex.toLex_lt_toLex]
              exact Or.inl (BitVec.lt_def.mp improved)
          · have sameParent := advance.pprev
            obtain ⟨fContinue, final, bestFinal, restRan, activatingFinal, moves, advanced,
              outcome⟩ := ih next nextHeading newTip (by rw [sameParent]; exact restChain)
                fun hash member => by
                  rw [advance.ancestry]
                  exact onPath hash (List.mem_cons_of_mem first member)
            refine ⟨fContinue, final, bestFinal, ?_, activatingFinal, moves.head move,
              advance.trans advanced, ?_⟩
            · rw [BlockTree.connectBlocks, ran]
              simp [pruned, improved, restRan]
            · cases fContinue with
              | true => exact ⟨outcome.1, by rw [outcome.2, List.getLast?_cons_cons]⟩
              | false => exact outcome.of_advance advance

/-- Blocks are connected until the goal is the tip, unless there is progress
before. -/
theorem Activating.connectTowards (activating : Activating context tree best)
    {mostWork tip : Uint256} {fuel : Nat} (oldTip : Uint256)
    (heading : Heading context tree mostWork)
    (isTip : tree.tip = some tip) (onPath : tip ∈ tree.ancestry mostWork)
    (enough : tree.nHeight mostWork < tree.nHeight tip + fuel) :
    ∃ after better,
      BlockTree.connectTowards context oldTip mostWork fuel (tree.nHeight tip) tree = some after ∧
      Activating context after better ∧ Moves context tree after ∧ Advance tree after ∧
      ((Heading context after mostWork ∧ after.tip = some mostWork) ∨
        Progress context tree after mostWork oldTip) := by
  induction fuel generalizing tree tip best with
  | zero =>
      have level := activating.graded.height_le_of_mem_path onPath
      omega
  | succ fuel ih =>
      rw [BlockTree.connectTowards]
      have level := activating.graded.height_le_of_mem_path onPath
      by_cases reached : tree.nHeight tip = tree.nHeight mostWork
      · have same := activating.graded.eq_of_mem_path_of_height_le onPath reached.ge
        rw [if_pos (by rw [reached])]
        exact ⟨tree, best, rfl, activating, .refl, Advance.refl tree,
          Or.inl ⟨heading, by rw [isTip, same]⟩⟩
      · rw [if_neg (by omega)]
        obtain ⟨target, isTarget⟩ : ∃ target : Nat,
            min ((tree.nHeight tip : Int) + 32) (tree.nHeight mostWork) = target :=
          ⟨min (tree.nHeight tip + 32) (tree.nHeight mostWork), by omega⟩
        simp only [isTarget, Int.toNat_natCast]
        obtain ⟨pindexIter, isIter, iterPath, iterHeight⟩ :
            ∃ pindexIter, tree.getAncestor mostWork target = some pindexIter ∧
              pindexIter ∈ tree.ancestry mostWork ∧ tree.nHeight pindexIter = target := by
          have within : target ≤ tree.nHeight mostWork := by omega
          obtain ⟨place, placePath, placeHeight⟩ :=
            activating.graded.exists_mem_path_of_height within
          exact ⟨place, (getAncestor_eq_some_iff activating.graded).mpr ⟨placePath, placeHeight⟩,
            placePath, placeHeight⟩
        simp only [isIter]
        have tipPath : tip ∈ tree.ancestry pindexIter := by
          rcases activating.graded.mem_path_total onPath iterPath with below | above
          · exact below
          · have high := activating.graded.height_le_of_mem_path above
            omega
        obtain ⟨segment, split, taken, chain, last⟩ := activating.graded.exists_segment tipPath
        have heights : (fun walk => (tree.nHeight walk : Int) != tree.nHeight tip) =
            fun walk => tree.nHeight walk != tree.nHeight tip := by
          funext walk
          rw [Bool.eq_iff_iff]
          simp only [bne_iff_ne, ne_eq, Int.natCast_inj]
        rw [heights, ancestry, taken]
        obtain ⟨fContinue, after, better, ran, next, moves, advance, outcome⟩ :=
          activating.connectBlocks oldTip heading isTip chain fun hash member => by
            refine activating.graded.mem_path_trans ?_ iterPath
            rw [split]
            exact List.mem_append_left _ (List.mem_reverse.mp member)
        cases fContinue with
        | false =>
            refine ⟨after, better, ?_, next, moves, advance, Or.inr outcome⟩
            rw [ran]
            rfl
        | true =>
            obtain ⟨nextHeading, nextTip⟩ := outcome
            rw [last] at nextTip
            have sameHeight := advance.nHeight
            obtain ⟨final, bestFinal, restRan, activatingFinal, rest, advanced, result⟩ :=
              ih next nextHeading nextTip (by rw [advance.ancestry]; exact iterPath)
                (by rw [sameHeight]; omega)
            refine ⟨final, bestFinal, ?_, activatingFinal, moves.trans rest,
              advance.trans advanced, result.imp_right fun progress =>
                progress.of_advance advance⟩
            rw [sameHeight, iterHeight] at restRan
            rw [ran]
            exact restRan

end Connect

section Loop

/-- One step reaches its goal or makes progress, unless a block of the active
chain cannot be read. -/
theorem Activating.activateBestChainStep (activating : Activating context tree best)
    {mostWork oldTip : Uint256} (heading : Heading context tree mostWork)
    (isTip : tree.tip = some oldTip) :
    (tree.activateBestChainStep context mostWork = none ∧ ¬ Readable context tree) ∨
    ∃ after better, tree.activateBestChainStep context mostWork = some after ∧
      Activating context after better ∧ Moves context tree after ∧ Advance tree after ∧
      ((Heading context after mostWork ∧ after.tip = some mostWork) ∨
        Progress context tree after mostWork oldTip) := by
  have linked := activating.candidates mostWork heading.candidate
  obtain ⟨fork, isFork⟩ : ∃ fork, (tree.ancestry mostWork).find?
      (fun walk => decide (walk ∈ tree.chainActive)) = some fork := by
    rw [← Option.isSome_iff_exists, List.find?_isSome]
    exact ⟨context.hashGenesisBlock, activating.genesis_mem_ancestry linked,
      decide_eq_true activating.genesis_active⟩
  have onPath : fork ∈ tree.ancestry mostWork := List.mem_of_find?_eq_some isFork
  have active : fork ∈ tree.chainActive := by simpa using List.find?_some isFork
  obtain ⟨tip, isTip', chain⟩ := activating.active
  cases isTip.symm.trans isTip'
  unfold BlockTree.activateBestChainStep
  simp only [isFork]
  rcases activating.disconnectTo active (le_refl _) with
    ⟨failed, unreadable⟩ | ⟨middle, ran, next, moves, advance, atFork, candidates, index⟩
  · exact Or.inl ⟨by rw [failed]; rfl, unreadable⟩
  · right
    have middleHeading : Heading context middle mostWork := by
      refine ⟨by rw [candidates]; exact heading.candidate, ?_, ?_⟩
      · rw [candidates, advance.sortKey]
        exact heading.last
      · intro place placePath
        rw [advance.ancestry] at placePath
        obtain ⟨fork', isFork', middleChain⟩ := next.active
        cases atFork.symm.trans isFork'
        rw [advance.ancestry] at middleChain
        rcases heading.passable place placePath with placeActive | ⟨outside, usable⟩
        · left
          rw [middleChain]
          exact activating.graded.mem_path_of_find? isFork placePath (decide_eq_true placeActive)
        · right
          rw [Passable, nStatus, entry, index]
          refine ⟨fun kept => outside ?_, usable⟩
          rw [middleChain] at kept
          exact activating.active_of_mem_ancestry active kept
    have level := activating.graded.height_le_of_mem_path onPath
    have enough : middle.nHeight mostWork < middle.nHeight fork + (tree.nHeight mostWork + 2) := by
      rw [advance.nHeight]
      omega
    obtain ⟨after, better, rest, activatingAfter, further, advanced, outcome⟩ :=
      next.connectTowards oldTip middleHeading atFork (by rw [advance.ancestry]; exact onPath)
        enough
    refine ⟨after, better, ?_, activatingAfter, moves.trans further, advance.trans advanced,
      outcome.imp_right fun progress => progress.of_advance advance⟩
    rw [ran, isTip]
    rw [advance.nHeight] at rest
    exact rest

/-- How many blocks are not known to be invalid, and how many sort above the
tip: what decreases from step to step of `ActivateBestChain`. -/
def unfailed (tree : BlockTree) : Finset Uint256 :=
  tree.mapBlockIndex.keys.toFinset.filter fun hash => (tree.nStatus hash).failedValid = false

def aboveTip (context : NodeContext) (tree : BlockTree) : Finset Uint256 :=
  tree.mapBlockIndex.keys.toFinset.filter fun hash =>
    tree.tip.any fun tip => tree.workComparator context tip hash

theorem mem_aboveTip {tip : Uint256} (isTip : tree.tip = some tip) :
    hash ∈ tree.aboveTip context ↔
      hash ∈ tree.mapBlockIndex ∧ tree.sortKey context tip < tree.sortKey context hash := by
  rw [aboveTip, Finset.mem_filter, List.mem_toFinset, Std.ExtTreeMap.mem_keys, isTip,
    Option.any_some, workComparator_iff]

theorem mem_unfailed :
    hash ∈ tree.unfailed ↔
      hash ∈ tree.mapBlockIndex ∧ (tree.nStatus hash).failedValid = false := by
  rw [unfailed, Finset.mem_filter, List.mem_toFinset, Std.ExtTreeMap.mem_keys]

theorem unfailed_subset (advance : Advance tree after) : after.unfailed ⊆ tree.unfailed := by
  intro hash member
  obtain ⟨known, unmarked⟩ := mem_unfailed.mp member
  refine mem_unfailed.mpr ⟨advance.known.mp known, ?_⟩
  by_contra marked
  rw [advance.failedValid hash (Bool.eq_true_of_not_eq_false marked)] at unmarked
  contradiction

/-- The termination measure of the loop of `ActivateBestChain`. -/
def remaining (context : NodeContext) (tree : BlockTree) : Nat :=
  tree.unfailed.card * (tree.mapBlockIndex.keys.toFinset.card + 1) + (tree.aboveTip context).card

theorem remaining_lt (context : NodeContext) (tree : BlockTree) :
    tree.remaining context < (tree.mapBlockIndex.size + 1) * (tree.mapBlockIndex.size + 1) := by
  have size : tree.mapBlockIndex.keys.toFinset.card ≤ tree.mapBlockIndex.size := by
    rw [← Std.ExtTreeMap.length_keys]
    exact List.toFinset_card_le _
  have first : tree.unfailed.card ≤ tree.mapBlockIndex.size :=
    (Finset.card_filter_le _ _).trans size
  have second : (tree.aboveTip context).card ≤ tree.mapBlockIndex.size :=
    (Finset.card_filter_le _ _).trans size
  calc tree.remaining context
      ≤ tree.mapBlockIndex.size * (tree.mapBlockIndex.size + 1) + tree.mapBlockIndex.size :=
        Nat.add_le_add (Nat.mul_le_mul first (Nat.add_le_add_right size 1)) second
    _ < (tree.mapBlockIndex.size + 1) * (tree.mapBlockIndex.size + 1) := by
        rw [Nat.add_one_mul]
        omega

theorem remaining_lt_of_progress {mostWork oldTip : Uint256} (isTip : tree.tip = some oldTip)
    (activating : Activating context after best) (advance : Advance tree after)
    (progress : Progress context tree after mostWork oldTip) :
    after.remaining context < tree.remaining context := by
  have fewer := Finset.card_le_card (unfailed_subset advance)
  unfold remaining
  rw [advance.keys]
  rcases progress with ⟨_, guilty, old, new⟩ | ⟨_, newTip, isNewTip, above⟩
  · have bound : (after.aboveTip context).card ≤ tree.mapBlockIndex.keys.toFinset.card := by
      rw [← advance.keys]
      exact Finset.card_filter_le _ _
    have known : guilty ∈ tree.mapBlockIndex :=
      advance.known.mp (mem_of_failed (by simp [BlockStatus.failed, new]))
    have strict : after.unfailed.card < tree.unfailed.card := by
      refine Finset.card_lt_card ((Finset.ssubset_iff_of_subset (unfailed_subset advance)).mpr
        ⟨guilty, mem_unfailed.mpr ⟨known, old⟩, fun member => ?_⟩)
      rw [(mem_unfailed.mp member).2] at new
      contradiction
    have room := Nat.mul_le_mul_right (tree.mapBlockIndex.keys.toFinset.card + 1)
      (Nat.succ_le_of_lt strict)
    rw [Nat.succ_mul] at room
    omega
  · have strict : (after.aboveTip context).card < (tree.aboveTip context).card := by
      have newKnown : newTip ∈ after.mapBlockIndex :=
        mem_of_nChainTx_ne_zero (activating.activeLinked newTip (List.mem_of_mem_head? isNewTip))
      refine Finset.card_lt_card ((Finset.ssubset_iff_of_subset fun hash member => ?_).mpr
        ⟨newTip, (mem_aboveTip isTip).mpr ⟨advance.known.mp newKnown, above⟩, fun member => ?_⟩)
      · obtain ⟨known, higher⟩ := (mem_aboveTip isNewTip).mp member
        rw [advance.sortKey] at higher
        exact (mem_aboveTip isTip).mpr ⟨advance.known.mp known, above.trans higher⟩
      · exact absurd ((mem_aboveTip isNewTip).mp member).2 (lt_irrefl _)
    have room := Nat.mul_le_mul_right (tree.mapBlockIndex.keys.toFinset.card + 1) fewer
    omega

theorem Activating.activateLoop (activating : Activating context tree best) {fuel : Nat}
    (enough : tree.remaining context < fuel) :
    (BlockTree.activateLoop context fuel tree = none ∧
      ∃ middle, Moves context tree middle ∧ ¬ Readable context middle) ∨
    ∃ after better tip, BlockTree.activateLoop context fuel tree = some after ∧
      Activating context after better ∧ Moves context tree after ∧ Advance tree after ∧
      Heading context after tip ∧ after.tip = some tip := by
  induction fuel generalizing tree best with
  | zero => contradiction
  | succ fuel ih =>
      unfold BlockTree.activateLoop
      have candidateCount : tree.setBlockIndexCandidates.toFinset.card <
          tree.setBlockIndexCandidates.length + 1 :=
        Nat.lt_succ_of_le (List.toFinset_card_le _)
      obtain ⟨mostWork, found, isFound, foundActivating, spec⟩ :=
        activating.findMostWorkChain candidateCount
      obtain ⟨oldTip, isTip, _⟩ := activating.active
      have foundTip : found.tip = some oldTip := by
        rw [BlockTree.tip, spec.chainActive]
        exact isTip
      rw [isFound]
      by_cases same : oldTip = mostWork
      · right
        refine ⟨found, best, mostWork, ?_, foundActivating, spec.moves, spec.advance, spec.heading,
          by rw [foundTip, same]⟩
        simp [foundTip, same]
      · have notDone : ¬ found.tip = some mostWork := by
          rw [foundTip, Option.some.injEq]
          exact same
        simp only [Option.bind_eq_bind, Option.bind_some, if_neg notDone]
        rcases foundActivating.activateBestChainStep spec.heading foundTip with
          ⟨failed, unreadable⟩ | ⟨after, better, ran, next, moves, advance, outcome⟩
        · rw [failed]
          exact Or.inl ⟨rfl, found, spec.moves, unreadable⟩
        · rw [ran, Option.bind_some]
          have sofar := spec.moves.trans moves
          have advanced := spec.advance.trans advance
          by_cases reached : after.tip = some mostWork
          · have heading : Heading context after mostWork := by
              rcases outcome with ⟨heading, _⟩ | ⟨notDone, _⟩ | ⟨heading, _⟩
              · exact heading
              · exact absurd reached notDone
              · exact heading
            rw [if_pos reached]
            exact Or.inr ⟨after, better, mostWork, rfl, next, sofar, advanced, heading, reached⟩
          · have progress : Progress context tree after mostWork oldTip :=
              (outcome.resolve_left fun done => reached done.2).of_advance spec.advance
            have fewer := remaining_lt_of_progress isTip next advanced progress
            rw [if_neg reached]
            rcases ih next (by omega) with
              ⟨failed, middle, further, unreadable⟩ |
                ⟨final, bestFinal, tip, rest, activatingFinal, further, advance, heading, isTip⟩
            · exact Or.inl ⟨failed, middle, sofar.trans further, unreadable⟩
            · exact Or.inr ⟨final, bestFinal, tip, rest, activatingFinal, sofar.trans further,
                advanced.trans advance, heading, isTip⟩

/-- `ActivateBestChain` terminates.  Unless a block of the active chain cannot
be read, its tip is the last candidate. -/
theorem Activating.activateBestChain (activating : Activating context tree best) :
    (tree.activateBestChain context = none ∧
      ∃ middle, Moves context tree middle ∧ ¬ Readable context middle) ∨
    ∃ after better tip, tree.activateBestChain context = some after ∧
      Activating context after better ∧ Moves context tree after ∧ Advance tree after ∧
      Heading context after tip ∧ after.tip = some tip :=
  activating.activateLoop (remaining_lt context tree)

/-- A block whose path has its data and holds nothing that is failed or that
`ConnectBlock` rejects. -/
structure Usable (context : NodeContext) (tree : BlockTree) (hash : Uint256) : Prop where
  linked : tree.nChainTx hash ≠ 0
  sound : ∀ place ∈ tree.ancestry hash, (tree.nStatus place).haveData = true ∧
    (tree.nStatus place).failed = false ∧ context.rejected place = false

/-- Nothing usable sorts above a tip that is the last candidate. -/
theorem Activating.sortKey_le_of_usable (activating : Activating context tree best) {tip : Uint256}
    (heading : Heading context tree tip) (usable : Usable context tree hash) :
    tree.sortKey context hash ≤ tree.sortKey context tip := by
  by_contra above
  have order := (heading.last best activating.bestCandidate).trans (not_le.mp above).le
  obtain ⟨haveData, valid, _⟩ := usable.sound hash (activating.self_mem_ancestry hash)
  rcases activating.complete hash usable.linked haveData valid order with
    candidate | ⟨pair, waits, rfl⟩
  · exact above (heading.last hash candidate)
  · rcases (activating.waiting pair waits).2.1 with unlinked | ⟨place, onPath, _, missing⟩
    · exact usable.linked unlinked
    · rw [(usable.sound place onPath).1] at missing
      contradiction

end Loop

end BlockTree

end Lycancoin
