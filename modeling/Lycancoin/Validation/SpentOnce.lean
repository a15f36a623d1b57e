import Lycancoin.Data.Flow
import Lycancoin.Validation.Providers

namespace Lycancoin

open Data

def CTransaction.spends (tx : CTransaction) : List COutPoint :=
  if tx.isCoinBase then [] else tx.vin.map CTxIn.prevout

theorem CTransaction.spends_of_coinBase {tx : CTransaction} (isCoinBase : tx.isCoinBase = true) :
    tx.spends = [] :=
  if_pos isCoinBase

theorem CTransaction.spends_of_not_coinBase {tx : CTransaction}
    (notCoinBase : tx.isCoinBase = false) : tx.spends = tx.vin.map CTxIn.prevout := by
  rw [spends, notCoinBase]
  rfl

def spending : Flow CTransaction Uint256 COutPoint where
  name := CTransaction.hash
  takes := CTransaction.spends
  maker := COutPoint.hash

/-- The outputs of the view come from a history, and nothing in the history spends them. -/
structure UtxoView.LeftBy (view : UtxoView) (history : List CTransaction) : Prop where
  provided : view.ProvidedBy (· ∈ history)
  unspent : ∀ place txout, view.output place = some txout → ∀ tx ∈ history, place ∉ tx.spends

namespace CCoins

variable {coins : CCoins} {n : Nat} {txout : CTxOut}

theorem output_spend_self (available : coins.output n = some txout) :
    (coins.spend n).2.output n = none := by
  rw [spend_of_output available]
  cases left : ({ coins with vout := coins.vout.set n CTxOut.null } : CCoins).cleanup.output n with
  | none => rfl
  | some spent =>
      obtain ⟨stored, notNull⟩ := output_eq_some (output_of_cleanup left)
      rw [List.getElem?_set] at stored
      split at stored
      · split at stored
        · cases stored
          contradiction
        · contradiction
      · contradiction

end CCoins

namespace UtxoView

variable {view after : UtxoView} {tx : CTransaction} {history : List CTransaction}
  {known : Set CTransaction}

theorem output_spendInput_self {prevout : COutPoint} {undo : CTxInUndo}
    (spent : view.spendInput prevout = .ok (after, undo)) : after.output prevout = none := by
  obtain ⟨coins, txout, found, available, rfl, _⟩ := spendInput_spec spent
  simp only [output, Function.update_self, output_live]
  exact CCoins.output_spend_self available

theorem output_spendInputs_self {vin : List CTxIn} {undos : CTxUndo}
    (spent : view.spendInputs vin = .ok (after, undos)) :
    ∀ place ∈ vin.map CTxIn.prevout, after.output place = none := by
  induction vin generalizing view undos with
  | nil => simp
  | cons txin rest ih =>
      obtain ⟨next, undo, restUndos, first, others, rfl⟩ := spendInputs_cons spent
      refine List.forall_mem_cons.mpr ⟨?_, ih others⟩
      have gone := output_spendInput_self first
      cases shown : after.output txin.prevout with
      | none => rfl
      | some txout =>
          rw [(output_of_spendInputs others).2 _ _ shown] at gone
          contradiction

/-- What `UpdateCoins` reads and leaves before it adds the outputs. -/
theorem updateCoins_spends {nHeight : Int} {txundo : CTxUndo}
    (updated : view.updateCoins tx nHeight = .ok (after, txundo)) :
    ∃ spent : UtxoView, after = spent.addOutputs tx nHeight ∧
      (∀ place txout, spent.output place = some txout → view.output place = some txout) ∧
      ∀ place ∈ tx.spends, (∃ txout, view.output place = some txout) ∧
        spent.output place = none := by
  cases isCoinBase : tx.isCoinBase with
  | true =>
      refine ⟨view, updateCoins_of_coinBase isCoinBase updated, fun _ _ => id, ?_⟩
      simp [CTransaction.spends_of_coinBase isCoinBase]
  | false =>
      obtain ⟨spent, inputs, rfl⟩ := updateCoins_of_not_coinBase isCoinBase updated
      obtain ⟨available, keeps⟩ := output_of_spendInputs inputs
      refine ⟨spent, rfl, keeps, fun place member => ⟨?_, ?_⟩⟩
      · rw [CTransaction.spends_of_not_coinBase isCoinBase] at member
        obtain ⟨txin, inside, rfl⟩ := List.mem_map.mp member
        obtain ⟨nIn, stands⟩ := List.getElem?_of_mem inside
        obtain ⟨within, rfl⟩ := List.getElem?_eq_some_iff.mp stands
        exact ⟨_, available.get within (available.length_eq ▸ within)⟩
      · rw [CTransaction.spends_of_not_coinBase isCoinBase] at member
        exact output_spendInputs_self inputs place member

theorem LeftBy.fresh (left : view.LeftBy history) (identified : Set.InjOn CTransaction.hash known)
    (isKnown : tx ∈ known) (allKnown : ∀ other ∈ history, other ∈ known)
    (available : ∀ place ∈ tx.spends, ∃ txout, view.output place = some txout)
    (spends : tx.spends ≠ []) : ∀ other ∈ history, other.hash ≠ tx.hash := by
  intro other member same
  have isTx := identified (allKnown other member) isKnown same
  subst isTx
  obtain ⟨place, taken⟩ := List.exists_mem_of_ne_nil _ spends
  obtain ⟨txout, shown⟩ := available place taken
  exact left.unspent place txout shown other member taken

theorem LeftBy.updateCoins {nHeight : Int} {txundo : CTxUndo} (left : view.LeftBy history)
    (once : spending.TakesOnce history) (fresh : ∀ other ∈ history, other.hash ≠ tx.hash)
    (updated : view.updateCoins tx nHeight = .ok (after, txundo)) :
    after.LeftBy (tx :: history) ∧ spending.TakesOnce (tx :: history) := by
  obtain ⟨spent, rfl, keeps, taken⟩ := updateCoins_spends updated
  have made : ∀ place, place.hash = tx.hash → ∀ txout, view.output place ≠ some txout := by
    intro place here txout shown
    obtain ⟨other, member, hash, _⟩ := left.provided place txout shown
    exact fresh other member (hash.trans here)
  refine ⟨⟨?_, ?_⟩, ?_, once⟩
  · have spentProvided : spent.ProvidedBy (· ∈ history) :=
      fun place txout shown => left.provided _ _ (keeps _ _ shown)
    refine (spentProvided.addOutputs tx nHeight).mono fun other member => ?_
    rw [List.mem_cons]
    exact member.symm
  · intro place txout shown
    rcases output_of_modifyCoins shown with ⟨here, _⟩ | ⟨_, old⟩
    · refine List.forall_mem_cons.mpr ⟨fun spends => ?_, fun other member spends => ?_⟩
      · obtain ⟨old, shownBefore⟩ := (taken place spends).1
        exact made place here old shownBefore
      · obtain ⟨maker, inside, hash⟩ := once.maker member spends
        exact fresh maker inside (Eq.trans hash here)
    · refine List.forall_mem_cons.mpr ⟨fun spends => ?_, left.unspent place txout (keeps _ _ old)⟩
      rw [(taken place spends).2] at old
      contradiction
  · intro place spends
    obtain ⟨txout, shown⟩ := (taken place spends).1
    obtain ⟨maker, member, hash, _⟩ := left.provided place txout shown
    exact ⟨⟨maker, member, hash⟩, left.unspent place txout shown⟩

end UtxoView

section Connect

variable {view : UtxoView} {history block : List CTransaction} {known : Set CTransaction}

theorem UtxoView.LeftBy.connectTransactions {rules : ConnectRules} {nFees : Int} {nSigOps : Nat}
    {connected : Connected} (left : view.LeftBy history) (once : spending.TakesOnce history)
    (identified : Set.InjOn CTransaction.hash known) (allKnown : ∀ tx ∈ history, tx ∈ known)
    (isKnown : ∀ tx ∈ block, tx ∈ known) (spends : ∀ tx ∈ block, tx.spends ≠ [])
    (ran : connectTransactions rules false view nFees nSigOps block = .ok connected) :
    connected.view.LeftBy (block.reverse ++ history) ∧
      spending.TakesOnce (block.reverse ++ history) := by
  induction block generalizing view nFees nSigOps history connected with
  | nil =>
      cases ran
      exact ⟨left, once⟩
  | cons tx rest ih =>
      obtain ⟨nextFees, nextSigOps, after, txundo, next, _, updated, restRan, rfl⟩ :=
        connectTransactions_cons ran
      obtain ⟨own, others⟩ := List.forall_mem_cons.mp isKnown
      obtain ⟨ownSpends, otherSpends⟩ := List.forall_mem_cons.mp spends
      obtain ⟨_, _, _, available⟩ := UtxoView.updateCoins_spends updated
      have fresh := left.fresh identified own allKnown (fun place taken => (available place taken).1)
        ownSpends
      obtain ⟨leftNext, onceNext⟩ := left.updateCoins once fresh updated
      rw [List.reverse_cons, List.append_assoc, List.singleton_append]
      have step := ih leftNext onceNext (List.forall_mem_cons.mpr ⟨own, allKnown⟩) others
        otherSpends restRan
      exact step

theorem UtxoView.LeftBy.connectBlock {env : Environment} {scripts : ScriptInterpreter}
    {index : BlockMap} {nAdjustedTime : Int} {block : CBlock} {hash : Uint256} {after : UtxoView}
    {vtxundo : Option (List CTxUndo)} (left : view.LeftBy history)
    (once : spending.TakesOnce history) (identified : Set.InjOn CTransaction.hash known)
    (allKnown : ∀ tx ∈ history, tx ∈ known) (isKnown : ∀ tx ∈ block.vtx, tx ∈ known)
    (fresh : ∀ tx ∈ block.vtx, tx ∉ history) (inputs : ∀ tx ∈ block.vtx, tx.vin ≠ [])
    (passed : Lycancoin.connectBlock env scripts index nAdjustedTime block hash view =
      .ok (after, vtxundo))
    (behind : env.hashes.getHash block.toCBlockHeader ≠ env.consensus.hashGenesisBlock) :
    after.LeftBy (block.vtx.reverse ++ history) ∧
      spending.TakesOnce (block.vtx.reverse ++ history) ∧
      ∃ coinbase rest, block.vtx = coinbase :: rest ∧ ∀ tx ∈ rest, tx.isCoinBase = false := by
  obtain ⟨checked, _, _, _, outcome⟩ := connectBlock_spec passed
  rcases outcome with ⟨isGenesis, _⟩ | ⟨_, _, connected, _, _, ran, _, rfl, rfl⟩
  · exact absurd isGenesis behind
  · obtain ⟨coinbase, rest, vtx, isCoinBase, notCoinBase⟩ := (checkBlock_spec checked).coinbase
    rw [vtx] at ran isKnown fresh inputs ⊢
    obtain ⟨_, _, middle, _, next, _, updated, restRan, rfl⟩ := connectTransactions_cons ran
    obtain ⟨own, others⟩ := List.forall_mem_cons.mp isKnown
    have freshHash : ∀ other ∈ history, other.hash ≠ coinbase.hash := by
      intro other member same
      have isCoinbase := identified (allKnown other member) own same
      exact fresh coinbase List.mem_cons_self (isCoinbase ▸ member)
    obtain ⟨leftMiddle, onceMiddle⟩ := left.updateCoins once freshHash updated
    have spends : ∀ tx ∈ rest, tx.spends ≠ [] := by
      intro tx member
      rw [CTransaction.spends_of_not_coinBase (notCoinBase tx member)]
      exact List.map_eq_nil_iff.not.mpr (inputs tx (List.mem_cons_of_mem _ member))
    obtain ⟨leftNext, onceNext⟩ := leftMiddle.connectTransactions onceMiddle identified
      (List.forall_mem_cons.mpr ⟨own, allKnown⟩) others spends restRan
    rw [List.reverse_cons, List.append_assoc, List.singleton_append]
    exact ⟨⟨leftNext.provided, leftNext.unspent⟩, onceNext, coinbase, rest, rfl, notCoinBase⟩

end Connect

section Disconnect

variable {view after : UtxoView} {place : COutPoint} {txout : CTxOut} {tx : CTransaction}
  {block older : List CTransaction} {fClean : Bool}

theorem output_of_removeOutputs {nHeight : Nat}
    (shown : (removeOutputs view tx nHeight).2.output place = some txout) :
    view.output place = some txout := by
  simp only [removeOutputs] at shown
  rcases UtxoView.output_of_modifyCoins shown with ⟨_, gone⟩ | ⟨_, old⟩
  · contradiction
  · exact old

theorem output_of_restoreInputs {vin : List CTxIn} {undos : CTxUndo}
    (shown : (restoreInputs view vin undos).2.output place = some txout) :
    place ∈ vin.map CTxIn.prevout ∨ view.output place = some txout := by
  induction vin generalizing undos txout with
  | nil => exact .inr shown
  | cons txin rest ih =>
      cases undos with
      | nil => exact .inr shown
      | cons undo others =>
          rcases output_of_applyTxInUndo shown with ⟨rfl, _⟩ | old
          · exact .inl List.mem_cons_self
          · exact (ih old).imp_left (List.mem_cons_of_mem _)

theorem output_of_disconnectTransactions {nHeight : Nat} {undos : List CTxUndo}
    (ran : disconnectTransactions view nHeight block undos = .ok (fClean, after))
    (shown : after.output place = some txout) :
    (∃ tx ∈ block, place ∈ tx.vin.map CTxIn.prevout) ∨ view.output place = some txout := by
  induction block generalizing undos fClean after with
  | nil =>
      cases ran
      exact .inr shown
  | cons tx rest ih =>
      cases undos with
      | nil =>
          cases ran
          exact .inr shown
      | cons txundo undos =>
          obtain ⟨⟨restClean, middle⟩, restRan, ran⟩ := check_bind_eq_ok.mp ran
          dsimp only at ran
          split at ran
          · contradiction
          · cases ran
            rcases output_of_restoreInputs shown with taken | old
            · exact .inl ⟨tx, List.mem_cons_self, taken⟩
            · rcases ih restRan (output_of_removeOutputs old) with ⟨other, member, taken⟩ | before
              · exact .inl ⟨other, List.mem_cons_of_mem _ member, taken⟩
              · exact .inr before

theorem UtxoView.LeftBy.disconnectBlock {index : BlockMap} {block : CBlock} {hash : Uint256}
    {coinbase : CTransaction} {rest : List CTransaction} {undos : List CTxUndo}
    (left : view.LeftBy (block.vtx.reverse ++ older))
    (once : spending.TakesOnce (block.vtx.reverse ++ older)) (vtx : block.vtx = coinbase :: rest)
    (notCoinBase : ∀ tx ∈ rest, tx.isCoinBase = false) (provided : after.ProvidedBy (· ∈ older))
    (ran : Lycancoin.disconnectBlock index block undos hash view = .ok (fClean, after)) :
    after.LeftBy older := by
  refine ⟨provided, fun place txout shown other member spends => ?_⟩
  have before : (∃ tx ∈ rest, place ∈ tx.vin.map CTxIn.prevout) ∨
      ∃ txout, view.output place = some txout := by
    rw [Lycancoin.disconnectBlock, vtx] at ran
    split at ran
    · rename_i pindex _ _ _ same
      cases same
      split at ran
      · contradiction
      · split at ran
        · contradiction
        · split at ran
          · contradiction
          · obtain ⟨⟨restClean, middle⟩, restRan, ran⟩ := check_bind_eq_ok.mp ran
            cases ran
            have kept := @output_of_removeOutputs middle place txout coinbase pindex.nHeight shown
            exact (output_of_disconnectTransactions restRan kept).imp_right
              fun old => ⟨txout, old⟩
    · contradiction
  rcases before with ⟨tx, inside, taken⟩ | ⟨txout, old⟩
  · rw [← CTransaction.spends_of_not_coinBase (notCoinBase tx inside)] at taken
    have inBlock : tx ∈ block.vtx.reverse := by
      rw [vtx, List.mem_reverse]
      exact List.mem_cons_of_mem _ inside
    exact once.not_taken inBlock taken member spends
  · exact left.unspent place txout old other (List.mem_append_right _ member) spends

end Disconnect

end Lycancoin
