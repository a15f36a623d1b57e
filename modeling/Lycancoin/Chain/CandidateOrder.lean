import Lycancoin.Chain.Unpruned

namespace Lycancoin

open Lycancoin.Data

namespace BlockTree

variable {context : NodeContext} {tree after : BlockTree} {tip hash : Uint256}

/-- Every entry has more work than its predecessor, as it has unless a sum of work wraps. -/
def WorkRises (tree : BlockTree) : Prop :=
  ∀ hash pprev, tree.pprev hash = some pprev →
    (tree.entry pprev).nChainWork < (tree.entry hash).nChainWork

/-- No candidate sorts below the tip, where the work rises. -/
def Trimmed (context : NodeContext) (tree : BlockTree) : Prop :=
  tree.WorkRises → ∀ tip, tree.tip = some tip → ∀ hash ∈ tree.setBlockIndexCandidates,
    tree.sortKey context tip ≤ tree.sortKey context hash

theorem WorkRises.sortKey_lt (rises : tree.WorkRises) {pprev : Uint256}
    (isParent : tree.pprev hash = some pprev) :
    tree.sortKey context pprev < tree.sortKey context hash := by
  rw [sortKey, sortKey, Prod.Lex.toLex_lt_toLex]
  exact Or.inl (BitVec.lt_def.mp (rises hash pprev isParent))

theorem WorkRises.of_advance (rises : after.WorkRises) (advance : Advance tree after) :
    tree.WorkRises := by
  intro hash pprev isParent
  rw [← advance.pprev] at isParent
  have more := rises hash pprev isParent
  rwa [advance.entries hash, advance.entries pprev] at more

theorem Trimmed.of_advance (trimmed : Trimmed context tree) (advance : Advance tree after)
    (isTip : tree.tip = some tip)
    (lower : tree.WorkRises → ∀ newTip, after.tip = some newTip →
      tree.sortKey context newTip ≤ tree.sortKey context tip)
    (fewer : ∀ hash ∈ after.setBlockIndexCandidates, hash ∈ tree.setBlockIndexCandidates) :
    Trimmed context after := by
  intro rises newTip isNewTip hash candidate
  have risesBefore := rises.of_advance advance
  rw [advance.sortKey]
  exact (lower risesBefore newTip isNewTip).trans
    (trimmed risesBefore tip isTip hash (fewer hash candidate))

theorem Trimmed.move (trimmed : Trimmed context tree) (move : Move context tree after) :
    Trimmed context after := by
  cases move with
  | remove activating _ _ _ _ _ removed =>
      obtain ⟨tip, isTip, _⟩ := activating.active
      apply trimmed.of_advance removed.advance isTip
      · intro _ newTip isNewTip
        rw [BlockTree.tip, removed.chainActive] at isNewTip
        cases isTip.symm.trans isNewTip
        exact le_refl _
      · exact fun hash candidate => ((removed.candidates hash).mp candidate).1
  | disconnect activating isTip notGenesis disconnected =>
      obtain ⟨_, advance, newTipEq, candidates, _⟩ :=
        activating.disconnectTip isTip notGenesis disconnected
      apply trimmed.of_advance advance isTip
      · -- the new tip is the predecessor of the old one
        intro rises newTip isNewTip
        exact (rises.sortKey_lt (newTipEq.symm.trans isNewTip)).le
      · rw [candidates]
        exact fun _ => id
  | @connect best tip pindexNew extended after activating isTip isParent connectable connected
      pruned =>
      intro _ newTip isNewTip other candidate
      cases verdict : context.rejected pindexNew with
      | true =>
          rw [connectTip_of_rejected (isParent.trans isTip.symm) connectable.haveData verdict]
            at connected
          simp at connected
      | false =>
          obtain ⟨_, _, _, ran, kept, _, result⟩ :=
            activating.connectTip_accepted isTip isParent connectable verdict
          cases connected.symm.trans ran
          cases pruned.symm.trans kept
          rw [BlockTree.tip, result.chainActive] at isNewTip
          cases isNewTip
          rw [result.advance.sortKey]
          exact ((result.candidates other).mp candidate).2
  | @reject best tip pindexNew after activating isTip isParent connectable rejected =>
      cases verdict : context.rejected pindexNew with
      | true =>
          have outside := activating.child_outside isTip isParent
          obtain ⟨_, ran, _, advance, sameTip, _⟩ :=
            activating.connectTip_rejected isTip isParent connectable outside verdict
          cases rejected.symm.trans ran
          apply trimmed.of_advance advance isTip
          · intro _ newTip isNewTip
            cases (sameTip.trans isTip).symm.trans isNewTip
            exact le_refl _
          · intro other candidate
            rw [connectTip_of_rejected (isParent.trans isTip.symm) connectable.haveData verdict]
              at ran
            cases ran
            exact ((mem_eraseCandidate _ pindexNew other).mp candidate).1
      | false =>
          rw [connectTip_of_not_rejected (isParent.trans isTip.symm) connectable.haveData verdict]
            at rejected
          simp at rejected

theorem Trimmed.moves (trimmed : Trimmed context tree) (moves : Moves context tree after) :
    Trimmed context after := by
  induction moves with
  | refl => exact trimmed
  | tail _ last ih => exact ih.move last

end BlockTree

end Lycancoin
