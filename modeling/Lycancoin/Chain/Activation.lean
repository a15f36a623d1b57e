import Lycancoin.Chain.TreeOrder

namespace Lycancoin

open Lycancoin.Data

namespace BlockTree

/-- An entry whose path leaves the active chain through a block without data. -/
def Stuck (tree : BlockTree) (hash : Uint256) : Prop :=
  ∃ place ∈ tree.ancestry hash, place ∉ tree.chainActive ∧ (tree.nStatus place).haveData = false

/-- What holds of a block tree while `ActivateBestChain` works on it.  The best
block that was found connectable so far is `best`: the candidates that sort
below it may have been dropped. -/
structure Activating (context : NodeContext) (tree : BlockTree) (best : Uint256) : Prop where
  graded : Forest.Graded tree.pprev tree.nHeight
  root : ∀ hash, tree.nChainTx hash ≠ 0 → tree.pprev hash = none →
    hash = context.hashGenesisBlock
  linked : ∀ hash pprev, tree.nChainTx hash ≠ 0 → tree.pprev hash = some pprev →
    tree.nChainTx pprev ≠ 0
  candidates : ∀ hash ∈ tree.setBlockIndexCandidates, tree.nChainTx hash ≠ 0
  active : ∃ tip, tree.tip = some tip ∧ tree.chainActive = tree.ancestry tip
  activeLinked : ∀ hash ∈ tree.chainActive, tree.nChainTx hash ≠ 0
  activeValid : ∀ hash ∈ tree.chainActive,
    (tree.nStatus hash).failed = false ∧ context.rejected hash = false
  blamed : ∀ hash, (tree.nStatus hash).failed = true →
    ∃ place ∈ tree.ancestry hash, (tree.nStatus place).failedValid = true
  waiting : ∀ pair ∈ tree.mapBlocksUnlinked, tree.pprev pair.2 = some pair.1 ∧
    (tree.nChainTx pair.2 = 0 ∨ tree.Stuck pair.2) ∧
    pair.2 ∉ tree.setBlockIndexCandidates
  bestCandidate : best ∈ tree.setBlockIndexCandidates
  bestValid : ∀ place ∈ tree.ancestry best, (tree.nStatus place).failed = false ∧
    context.rejected place = false ∧
    (place ∈ tree.chainActive ∨ (tree.nStatus place).haveData = true)
  complete : ∀ hash, tree.nChainTx hash ≠ 0 → (tree.nStatus hash).haveData = true →
    (tree.nStatus hash).failed = false → tree.sortKey context best ≤ tree.sortKey context hash →
    hash ∈ tree.setBlockIndexCandidates ∨ ∃ pair ∈ tree.mapBlocksUnlinked, pair.2 = hash

theorem getAncestor_eq_some_iff {tree : BlockTree}
    (graded : Forest.Graded tree.pprev tree.nHeight) {hash place : Uint256} {height : Nat} :
    tree.getAncestor hash height = some place ↔
      place ∈ tree.ancestry hash ∧ tree.nHeight place = height := by
  rw [getAncestor]
  constructor
  · intro found
    exact ⟨List.mem_of_find?_eq_some found, by simpa using List.find?_some found⟩
  · intro ⟨onPath, level⟩
    cases found : (tree.ancestry hash).find? fun walk => tree.nHeight walk == height with
    | none =>
        have missed := List.find?_eq_none.mp found place onPath
        simp [level] at missed
    | some other =>
        have sameHeight : tree.nHeight other = height := by simpa using List.find?_some found
        rw [graded.eq_of_height_eq (List.mem_of_find?_eq_some found) onPath
          (sameHeight.trans level.symm)]

/-- A block that `ConnectTip` can be asked to connect. -/
structure Connectable (tree : BlockTree) (hash : Uint256) : Prop where
  linked : tree.nChainTx hash ≠ 0
  haveData : (tree.nStatus hash).haveData = true
  valid : (tree.nStatus hash).failed = false

variable {context : NodeContext} {tree after : BlockTree} {best hash : Uint256}

namespace Activating

theorem self_mem_ancestry (activating : Activating context tree best) (hash : Uint256) :
    hash ∈ tree.ancestry hash :=
  activating.graded.self_mem_path hash

theorem linked_of_mem_ancestry (activating : Activating context tree best) {place : Uint256}
    (linked : tree.nChainTx hash ≠ 0) (member : place ∈ tree.ancestry hash) :
    tree.nChainTx place ≠ 0 := by
  induction hash using activating.graded.induction with
  | root node isRoot =>
      rw [(activating.graded.mem_path_of_root isRoot).mp member]
      exact linked
  | step node above isParent ih =>
      rcases (activating.graded.mem_path_of_parent isParent).mp member with rfl | higher
      · exact linked
      · exact ih (activating.linked node above linked isParent) higher

theorem active_of_mem_ancestry (activating : Activating context tree best) {place : Uint256}
    (active : hash ∈ tree.chainActive) (member : place ∈ tree.ancestry hash) :
    place ∈ tree.chainActive := by
  obtain ⟨tip, _, chain⟩ := activating.active
  rw [chain] at active ⊢
  exact activating.graded.mem_path_trans member active

theorem genesis_mem_ancestry (activating : Activating context tree best)
    (linked : tree.nChainTx hash ≠ 0) : context.hashGenesisBlock ∈ tree.ancestry hash := by
  induction hash using activating.graded.induction with
  | root node isRoot =>
      rw [activating.root node linked isRoot] at *
      exact activating.self_mem_ancestry _
  | step node above isParent ih =>
      exact (activating.graded.mem_path_of_parent isParent).mpr
        (Or.inr (ih (activating.linked node above linked isParent)))

theorem genesis_active (activating : Activating context tree best) :
    context.hashGenesisBlock ∈ tree.chainActive := by
  obtain ⟨tip, isTip, chain⟩ := activating.active
  have member : tip ∈ tree.chainActive := List.mem_of_mem_head? isTip
  rw [chain]
  exact activating.genesis_mem_ancestry (activating.activeLinked tip member)

end Activating

section Remove

/-- What `FindMostWorkChain` does to a candidate chain that it cannot use:
`passed` are the entries before the unusable entry `pindexTest`. -/
structure ChainRemoved (tree after : BlockTree) (fFailedChain : Bool)
    (pindexTest : Uint256) (passed : List Uint256) : Prop where
  advance : Advance tree after
  chainActive : after.chainActive = tree.chainActive
  candidates : ∀ hash, hash ∈ after.setBlockIndexCandidates ↔
    hash ∈ tree.setBlockIndexCandidates ∧ hash ∉ passed ∧ hash ≠ pindexTest
  status : ∀ hash, after.nStatus hash =
    { tree.nStatus hash with failedChild := (after.nStatus hash).failedChild }
  failed : ∀ hash, (after.nStatus hash).failed = true ↔
    (tree.nStatus hash).failed = true ∨ (fFailedChain = true ∧ hash ∈ passed)
  unlinked : ∀ pair, pair ∈ after.mapBlocksUnlinked ↔
    pair ∈ tree.mapBlocksUnlinked ∨
      (fFailedChain = false ∧ pair.2 ∈ passed ∧ tree.pprev pair.2 = some pair.1)
  kept : fFailedChain = true → after.mapBlocksUnlinked = tree.mapBlocksUnlinked

theorem ChainRemoved.failedValid {fFailedChain : Bool} {pindexTest : Uint256}
    {passed : List Uint256} (removed : ChainRemoved tree after fFailedChain pindexTest passed)
    (hash : Uint256) : (after.nStatus hash).failedValid = (tree.nStatus hash).failedValid := by
  rw [removed.status]

theorem mem_eraseCandidate (tree : BlockTree) (pindex hash : Uint256) :
    hash ∈ (tree.eraseCandidate pindex).setBlockIndexCandidates ↔
      hash ∈ tree.setBlockIndexCandidates ∧ hash ≠ pindex := by
  simp [eraseCandidate, List.mem_filter]

/-- The treatment of one entry of a candidate chain that cannot be used. -/
def discard (tree : BlockTree) (fFailedChain : Bool) (pindexFailed : Uint256) : BlockTree :=
  (if fFailedChain then
    tree.editStatus pindexFailed fun nStatus => { nStatus with failedChild := true }
  else
    { tree with
      mapBlocksUnlinked := tree.mapBlocksUnlinked ++
        ((tree.pprev pindexFailed).map fun pprev => (pprev, pindexFailed)).toList }).eraseCandidate
    pindexFailed

theorem advance_discard (fFailedChain : Bool) {pindexFailed : Uint256}
    (known : pindexFailed ∈ tree.mapBlockIndex) :
    Advance tree (tree.discard fFailedChain pindexFailed) := by
  cases fFailedChain with
  | false => exact Advance.of_index_eq rfl rfl rfl
  | true =>
      have marked : Advance tree (tree.editStatus pindexFailed fun nStatus =>
          { nStatus with failedChild := true }) := by
        apply Advance.editStatus known rfl id id
        intro _
        simp [BlockStatus.failed]
      exact marked.trans (Advance.of_index_eq rfl rfl rfl)

theorem failed_discard (tree : BlockTree) (fFailedChain : Bool) (pindexFailed hash : Uint256) :
    (tree.discard fFailedChain pindexFailed).nStatus hash =
        { tree.nStatus hash with
          failedChild := ((tree.discard fFailedChain pindexFailed).nStatus hash).failedChild } ∧
      (((tree.discard fFailedChain pindexFailed).nStatus hash).failed = true ↔
        (tree.nStatus hash).failed = true ∨ (fFailedChain = true ∧ hash = pindexFailed)) := by
  cases fFailedChain with
  | false =>
      have same : (tree.discard false pindexFailed).nStatus hash = tree.nStatus hash := rfl
      simp [same]
  | true =>
      have changed : (tree.discard true pindexFailed).nStatus hash =
          (tree.editStatus pindexFailed fun nStatus =>
            { nStatus with failedChild := true }).nStatus hash := rfl
      rw [changed, nStatus_editStatus]
      by_cases same : hash = pindexFailed
      · subst same
        simp [BlockStatus.failed]
      · simp [same]

theorem mem_unlinked_discard (tree : BlockTree) (fFailedChain : Bool) (pindexFailed : Uint256)
    (pair : Uint256 × Uint256) :
    pair ∈ (tree.discard fFailedChain pindexFailed).mapBlocksUnlinked ↔
      pair ∈ tree.mapBlocksUnlinked ∨
        (fFailedChain = false ∧ pair.2 = pindexFailed ∧ tree.pprev pair.2 = some pair.1) := by
  obtain ⟨pprev, child⟩ := pair
  cases fFailedChain with
  | true => simp [discard, eraseCandidate, editStatus, edit]
  | false =>
      simp only [discard, eraseCandidate, Bool.false_eq_true, if_false, List.mem_append,
        Option.mem_toList, Option.map_eq_some_iff, Prod.mk.injEq, true_and]
      constructor
      · rintro (old | ⟨above, isParent, rfl, rfl⟩)
        · exact Or.inl old
        · exact Or.inr ⟨rfl, isParent⟩
      · rintro (old | ⟨rfl, isParent⟩)
        · exact Or.inl old
        · exact Or.inr ⟨pprev, isParent, rfl, rfl⟩

theorem mem_candidates_discard (tree : BlockTree) (fFailedChain : Bool)
    (pindexFailed hash : Uint256) :
    hash ∈ (tree.discard fFailedChain pindexFailed).setBlockIndexCandidates ↔
      hash ∈ tree.setBlockIndexCandidates ∧ hash ≠ pindexFailed := by
  rw [discard, mem_eraseCandidate]
  cases fFailedChain <;> rfl

theorem chainActive_discard (tree : BlockTree) (fFailedChain : Bool) (pindexFailed : Uint256) :
    (tree.discard fFailedChain pindexFailed).chainActive = tree.chainActive := by
  cases fFailedChain <;> rfl

theorem removeChain_spec (fFailedChain : Bool) (pindexTest : Uint256) (rest : List Uint256)
    {passed : List Uint256} (different : pindexTest ∉ passed)
    (known : ∀ hash ∈ passed, hash ∈ tree.mapBlockIndex) :
    ChainRemoved tree
      (removeChain fFailedChain pindexTest (passed ++ pindexTest :: rest) tree)
      fFailedChain pindexTest passed := by
  induction passed generalizing tree with
  | nil =>
      rw [List.nil_append, removeChain, if_pos rfl]
      refine ⟨Advance.of_index_eq rfl rfl rfl, rfl, fun hash => ?_, fun _ => rfl, ?_, ?_,
        fun _ => rfl⟩
      · rw [mem_eraseCandidate]
        simp
      · intro hash
        simp [BlockTree.nStatus, BlockTree.entry, eraseCandidate]
      · intro pair
        simp [eraseCandidate]
  | cons pindexFailed passed ih =>
      have notTest : pindexFailed ≠ pindexTest := fun same => different (by simp [same])
      have restDifferent : pindexTest ∉ passed := fun member => different (by simp [member])
      have own : pindexFailed ∈ tree.mapBlockIndex := known pindexFailed (by simp)
      have step := advance_discard fFailedChain own
      have remains := @ih (tree.discard fFailedChain pindexFailed) restDifferent
        fun hash member => step.known.mpr (known hash (by simp [member]))
      have unfolded : removeChain fFailedChain pindexTest
          (pindexFailed :: passed ++ pindexTest :: rest) tree =
          removeChain fFailedChain pindexTest (passed ++ pindexTest :: rest)
            (tree.discard fFailedChain pindexFailed) := by
        rw [List.cons_append, removeChain, if_neg notTest]
        rfl
      rw [unfolded]
      refine ⟨step.trans remains.advance, ?_, fun hash => ?_, fun hash => ?_, fun hash => ?_,
        fun pair => ?_, fun failedChain => ?_⟩
      · exact remains.chainActive.trans (chainActive_discard _ _ _)
      · refine (remains.candidates hash).trans ?_
        rw [mem_candidates_discard, List.mem_cons]
        tauto
      · rw [remains.status, (failed_discard _ _ _ _).1]
      · refine (remains.failed hash).trans ?_
        rw [(failed_discard _ _ _ _).2, List.mem_cons]
        tauto
      · refine (remains.unlinked pair).trans ?_
        rw [mem_unlinked_discard, step.pprev, List.mem_cons]
        tauto
      · rw [remains.kept failedChain, failedChain]
        rfl

end Remove

section Find

/-- An entry that `FindMostWorkChain` does not stop at. -/
def Passable (tree : BlockTree) (hash : Uint256) : Prop :=
  hash ∉ tree.chainActive ∧ (tree.nStatus hash).failed = false ∧
    (tree.nStatus hash).haveData = true

/-- Where the walk of `FindMostWorkChain` stops. -/
theorem findUnusable_spec {places : List Uint256} (linked : ∀ hash ∈ places, tree.nChainTx hash ≠ 0) :
    (∃ passed rest, tree.findUnusable places = some none ∧ places = passed ++ rest ∧
      (∀ hash ∈ passed, tree.Passable hash) ∧
      ∀ fork above, rest = fork :: above → fork ∈ tree.chainActive) ∨
    ∃ pindexTest passed rest, tree.findUnusable places = some (some pindexTest) ∧
      places = passed ++ pindexTest :: rest ∧ (∀ hash ∈ passed, tree.Passable hash) ∧
      pindexTest ∉ tree.chainActive ∧
      ((tree.nStatus pindexTest).failed = true ∨ (tree.nStatus pindexTest).haveData = false) := by
  induction places with
  | nil => exact Or.inl ⟨[], [], rfl, rfl, by simp, by simp⟩
  | cons first rest ih =>
      have firstLinked := linked first (by simp)
      have asserted : ¬ (tree.nChainTx first = 0 ∧ tree.nHeight first ≠ 0) :=
        fun fails => firstLinked fails.1
      by_cases active : first ∈ tree.chainActive
      · refine Or.inl ⟨[], first :: rest, by rw [findUnusable, if_pos active], rfl, by simp, ?_⟩
        intro fork above equal
        cases equal
        exact active
      · cases unusable : ((tree.nStatus first).failed || !(tree.nStatus first).haveData) with
        | true =>
            refine Or.inr ⟨first, [], rest, ?_, rfl, by simp, active, ?_⟩
            · rw [findUnusable, if_neg active, if_neg asserted, if_pos unusable]
            · simpa using unusable
        | false =>
            have passable : tree.Passable first := by
              rw [Bool.or_eq_false_iff, Bool.not_eq_false'] at unusable
              exact ⟨active, unusable.1, unusable.2⟩
            have step : tree.findUnusable (first :: rest) = tree.findUnusable rest := by
              rw [findUnusable, if_neg active, if_neg asserted, unusable]
              rfl
            rw [step]
            rcases ih fun hash member => linked hash (by simp [member]) with
              ⟨passed, above, none, split, usable, fork⟩ |
                ⟨pindexTest, passed, after, found, split, usable, outside, why⟩
            · refine Or.inl ⟨first :: passed, above, none, by rw [split]; rfl, ?_, fork⟩
              intro hash member
              rcases List.mem_cons.mp member with rfl | later
              · exact passable
              · exact usable hash later
            · refine Or.inr ⟨pindexTest, first :: passed, after, found, by rw [split]; rfl, ?_,
                outside, why⟩
              intro hash member
              rcases List.mem_cons.mp member with rfl | later
              · exact passable
              · exact usable hash later

theorem Activating.not_mem_ancestry_best (activating : Activating context tree best)
    {pindexTest : Uint256} (outside : pindexTest ∉ tree.chainActive)
    (unusable : (tree.nStatus pindexTest).failed = true ∨
      (tree.nStatus pindexTest).haveData = false) :
    pindexTest ∉ tree.ancestry best := by
  intro member
  obtain ⟨valid, _, stored⟩ := activating.bestValid pindexTest member
  rcases unusable with failed | missing
  · rw [valid] at failed
    contradiction
  · rcases stored with active | haveData
    · exact outside active
    · rw [haveData] at missing
      contradiction

theorem Activating.removeChain (activating : Activating context tree best)
    {pindexNew pindexTest : Uint256} {passed rest : List Uint256}
    (split : tree.ancestry pindexNew = passed ++ pindexTest :: rest)
    (usable : ∀ hash ∈ passed, tree.Passable hash) (outside : pindexTest ∉ tree.chainActive)
    (unusable : (tree.nStatus pindexTest).failed = true ∨
      (tree.nStatus pindexTest).haveData = false)
    (removed : ChainRemoved tree after (tree.nStatus pindexTest).failed pindexTest passed) :
    Activating context after best := by
  have sameAncestry := removed.advance.ancestry
  have sameActive := removed.chainActive
  -- `pindexTest` lies on the path of every entry that is dropped
  have below : ∀ hash ∈ passed, pindexTest ∈ tree.ancestry hash :=
    fun hash isPassed => activating.graded.mem_path_of_append split isPassed
  have notBest := activating.not_mem_ancestry_best outside unusable
  have bestNotPassed : ∀ place ∈ tree.ancestry best, place ∉ passed := by
    intro place member isPassed
    exact notBest (activating.graded.mem_path_trans (below place isPassed) member)
  have failedAfter : ∀ place, place ∉ passed → (tree.nStatus place).failed = false →
      (after.nStatus place).failed = false := by
    intro place notPassed valid
    by_contra fails
    rcases (removed.failed place).mp (Bool.eq_true_of_not_eq_false fails) with old | ⟨_, isPassed⟩
    · rw [valid] at old
      contradiction
    · exact notPassed isPassed
  constructor
  · rw [removed.advance.pprev, removed.advance.nHeight]
    exact activating.graded
  · rw [removed.advance.pprev, removed.advance.nChainTx]
    exact activating.root
  · rw [removed.advance.pprev, removed.advance.nChainTx]
    exact activating.linked
  · intro hash member
    rw [removed.advance.nChainTx]
    exact activating.candidates hash ((removed.candidates hash).mp member).1
  · rw [tip, sameActive, sameAncestry]
    exact activating.active
  · rw [sameActive, removed.advance.nChainTx]
    exact activating.activeLinked
  · rw [sameActive]
    intro hash active
    obtain ⟨valid, connectable⟩ := activating.activeValid hash active
    exact ⟨failedAfter hash (fun isPassed => (usable hash isPassed).1 active) valid, connectable⟩
  · intro hash failed
    simp only [sameAncestry, removed.failedValid]
    rcases (removed.failed hash).mp failed with old | ⟨testFailed, isPassed⟩
    · exact activating.blamed hash old
    · obtain ⟨place, member, guilty⟩ := activating.blamed pindexTest testFailed
      exact ⟨place, activating.graded.mem_path_trans member (below hash isPassed), guilty⟩
  · intro pair member
    have stuck : ∀ hash, after.Stuck hash ↔ tree.Stuck hash := by
      intro hash
      simp only [Stuck, sameAncestry, sameActive, removed.advance.haveData]
    rw [removed.advance.pprev, removed.advance.nChainTx, stuck, removed.candidates]
    rcases (removed.unlinked pair).mp member with old | ⟨missing, isPassed, isParent⟩
    · obtain ⟨isParent, waits, notCandidate⟩ := activating.waiting pair old
      exact ⟨isParent, waits, fun candidate => notCandidate candidate.1⟩
    · refine ⟨isParent, Or.inr ⟨pindexTest, below pair.2 isPassed, outside, ?_⟩,
        fun candidate => candidate.2.1 isPassed⟩
      rcases unusable with failed | noData
      · rw [missing] at failed
        contradiction
      · exact noData
  · rw [removed.candidates]
    refine ⟨activating.bestCandidate, bestNotPassed best (activating.self_mem_ancestry best), ?_⟩
    rintro rfl
    exact notBest (activating.self_mem_ancestry best)
  · rw [sameAncestry, sameActive]
    intro place member
    obtain ⟨valid, connectable, stored⟩ := activating.bestValid place member
    rw [removed.advance.haveData]
    exact ⟨failedAfter place (bestNotPassed place member) valid, connectable, stored⟩
  · intro hash linked haveData valid order
    rw [removed.advance.nChainTx] at linked
    rw [removed.advance.haveData] at haveData
    rw [removed.advance.sortKey] at order
    have validBefore : (tree.nStatus hash).failed = false := by
      by_contra failed
      rw [removed.advance.failed hash (Bool.eq_true_of_not_eq_false failed)] at valid
      contradiction
    rcases activating.complete hash linked haveData validBefore order with
      candidate | ⟨pair, member, rfl⟩
    · by_cases isPassed : hash ∈ passed
      · right
        have notFailed : (tree.nStatus pindexTest).failed = false := by
          by_contra failed
          have marked := (removed.failed hash).mpr
            (Or.inr ⟨Bool.eq_true_of_not_eq_false failed, isPassed⟩)
          rw [valid] at marked
          contradiction
        cases isParent : tree.pprev hash with
        | none =>
            have onlySelf := (activating.graded.mem_path_of_root isParent).mp (below hash isPassed)
            subst onlySelf
            have ok := usable pindexTest isPassed
            rcases unusable with failed | noData
            · rw [ok.2.1] at failed
              contradiction
            · rw [ok.2.2] at noData
              contradiction
        | some pprev =>
            exact ⟨(pprev, hash), (removed.unlinked _).mpr (Or.inr ⟨notFailed, isPassed, isParent⟩),
              rfl⟩
      · left
        refine (removed.candidates hash).mpr ⟨candidate, isPassed, ?_⟩
        rintro rfl
        rcases unusable with failed | noData
        · rw [validBefore] at failed
          contradiction
        · rw [haveData] at noData
          contradiction
    · exact Or.inr ⟨pair, (removed.unlinked pair).mpr (Or.inl member), rfl⟩

/-- One change that `ActivateBestChain` makes. -/
inductive Move (context : NodeContext) (tree : BlockTree) : BlockTree → Prop
  | remove {best pindexNew pindexTest : Uint256} {passed rest : List Uint256}
      (activating : Activating context tree best)
      (candidate : pindexNew ∈ tree.setBlockIndexCandidates)
      (split : tree.ancestry pindexNew = passed ++ pindexTest :: rest)
      (usable : ∀ hash ∈ passed, tree.Passable hash)
      (outside : pindexTest ∉ tree.chainActive)
      (unusable : (tree.nStatus pindexTest).failed = true ∨
        (tree.nStatus pindexTest).haveData = false)
      {after : BlockTree}
      (removed : ChainRemoved tree after (tree.nStatus pindexTest).failed pindexTest passed) :
      Move context tree after
  | disconnect {best pindexDelete : Uint256} {after : BlockTree}
      (activating : Activating context tree best)
      (isTip : tree.tip = some pindexDelete)
      (notGenesis : pindexDelete ≠ context.hashGenesisBlock)
      (disconnected : tree.disconnectTip = some after) :
      Move context tree after
  | connect {best tip pindexNew : Uint256} {extended after : BlockTree}
      (activating : Activating context tree best)
      (isTip : tree.tip = some tip)
      (isParent : tree.pprev pindexNew = some tip)
      (connectable : Connectable tree pindexNew)
      (connected : tree.connectTip context pindexNew = some (true, extended))
      (pruned : extended.pruneBlockIndexCandidates context = some after) :
      Move context tree after
  | reject {best tip pindexNew : Uint256} {after : BlockTree}
      (activating : Activating context tree best)
      (isTip : tree.tip = some tip)
      (isParent : tree.pprev pindexNew = some tip)
      (connectable : Connectable tree pindexNew)
      (rejected : tree.connectTip context pindexNew = some (false, after)) :
      Move context tree after

/-- The changes that `ActivateBestChain` makes one after another. -/
abbrev Moves (context : NodeContext) : BlockTree → BlockTree → Prop :=
  Relation.ReflTransGen (Move context)

/-- The last candidate, whose path is usable down to the active chain. -/
structure Heading (context : NodeContext) (tree : BlockTree) (mostWork : Uint256) : Prop where
  candidate : mostWork ∈ tree.setBlockIndexCandidates
  last : ∀ hash ∈ tree.setBlockIndexCandidates,
    tree.sortKey context hash ≤ tree.sortKey context mostWork
  passable : ∀ hash ∈ tree.ancestry mostWork, hash ∈ tree.chainActive ∨ tree.Passable hash

/-- What `FindMostWorkChain` leaves as it is, and what it returns. -/
structure Found (context : NodeContext) (tree after : BlockTree) (mostWork : Uint256) : Prop where
  moves : Moves context tree after
  advance : Advance tree after
  chainActive : after.chainActive = tree.chainActive
  failedValid : ∀ hash, (after.nStatus hash).failedValid = (tree.nStatus hash).failedValid
  heading : Heading context after mostWork

theorem Activating.exists_ancestry_cons (activating : Activating context tree best)
    (hash : Uint256) : ∃ rest, tree.ancestry hash = hash :: rest := by
  unfold ancestry
  cases isParent : tree.pprev hash with
  | none => exact ⟨[], activating.graded.path_of_root isParent⟩
  | some above => exact ⟨_, activating.graded.path_of_parent isParent⟩

theorem Activating.findMostWorkChain (activating : Activating context tree best) {fuel : Nat}
    (enough : tree.setBlockIndexCandidates.toFinset.card < fuel) :
    ∃ mostWork after, BlockTree.findMostWorkChain context fuel tree = some (some mostWork, after) ∧
      Activating context after best ∧ Found context tree after mostWork := by
  induction fuel generalizing tree with
  | zero => contradiction
  | succ fuel ih =>
      unfold BlockTree.findMostWorkChain
      obtain ⟨noneIff, someSpec⟩ := lastCandidate_spec context tree tree.setBlockIndexCandidates
      cases last : tree.lastCandidate context tree.setBlockIndexCandidates with
      | none =>
          have candidate := activating.bestCandidate
          rw [noneIff.mp last] at candidate
          contradiction
      | some pindexNew =>
          obtain ⟨candidate, greatest⟩ := someSpec pindexNew last
          have linked : ∀ hash ∈ tree.ancestry pindexNew, tree.nChainTx hash ≠ 0 := fun hash member =>
            activating.linked_of_mem_ancestry (activating.candidates pindexNew candidate) member
          rcases findUnusable_spec linked with
            ⟨passed, rest, found, split, usable, fork⟩ |
              ⟨pindexTest, passed, rest, found, split, usable, outside, why⟩
          · refine ⟨pindexNew, tree, by simp only [found], activating, .refl,
              Advance.refl tree, rfl, fun _ => rfl, candidate, greatest, ?_⟩
            intro hash member
            rw [split] at member
            rcases List.mem_append.mp member with before | behind
            · exact Or.inr (usable hash before)
            · obtain ⟨front, back, rfl⟩ := List.append_of_mem behind
              left
              cases front with
              | nil => exact fork hash back rfl
              | cons first front =>
                  -- the first entry on the active chain has the rest of the path below it
                  have path : tree.ancestry pindexNew = (passed ++ first :: front) ++ hash :: back := by
                    simpa using split
                  have higher : hash ∈ tree.ancestry first :=
                    activating.graded.mem_path_of_append path (by simp)
                  exact activating.active_of_mem_ancestry (fork first _ rfl) higher
          · have notPassed : pindexTest ∉ passed := by
              intro isPassed
              obtain ⟨_, valid, haveData⟩ := usable pindexTest isPassed
              rcases why with failed | missing
              · rw [valid] at failed
                contradiction
              · rw [haveData] at missing
                contradiction
            have removed : ChainRemoved tree
                (BlockTree.removeChain (tree.nStatus pindexTest).failed pindexTest
                  (passed ++ pindexTest :: rest) tree)
                (tree.nStatus pindexTest).failed pindexTest passed :=
              removeChain_spec _ pindexTest rest notPassed fun hash isPassed =>
                mem_of_nChainTx_ne_zero (linked hash (by simp [split, isPassed]))
            rw [← split] at removed
            have next := activating.removeChain split usable outside why removed
            have dropped : pindexNew ∈ passed ∨ pindexNew = pindexTest := by
              obtain ⟨above, path⟩ := activating.exists_ancestry_cons pindexNew
              rw [split] at path
              cases passed with
              | nil => exact Or.inr (List.cons.inj path).1.symm
              | cons first passed => exact Or.inl (by simp [(List.cons.inj path).1])
            have fewer : (BlockTree.removeChain (tree.nStatus pindexTest).failed pindexTest
                (tree.ancestry pindexNew) tree).setBlockIndexCandidates.toFinset.card < fuel := by
              refine Nat.lt_of_lt_of_le (Finset.card_lt_card ?_) (Nat.le_of_lt_succ enough)
              rw [Finset.ssubset_iff_of_subset]
              · refine ⟨pindexNew, List.mem_toFinset.mpr candidate, fun kept => ?_⟩
                have left := (removed.candidates pindexNew).mp (List.mem_toFinset.mp kept)
                rcases dropped with isPassed | isTest
                · exact left.2.1 isPassed
                · exact left.2.2 isTest
              · intro hash member
                exact List.mem_toFinset.mpr
                  ((removed.candidates hash).mp (List.mem_toFinset.mp member)).1
            obtain ⟨mostWork, after, ran, activatingAfter, foundAfter⟩ := ih next fewer
            refine ⟨mostWork, after, by simp only [found, ran], activatingAfter,
              foundAfter.moves.head (.remove activating candidate split usable outside why removed),
              removed.advance.trans foundAfter.advance,
              foundAfter.chainActive.trans removed.chainActive,
              fun hash => (foundAfter.failedValid hash).trans (removed.failedValid hash),
              foundAfter.heading⟩

end Find

end BlockTree

end Lycancoin
