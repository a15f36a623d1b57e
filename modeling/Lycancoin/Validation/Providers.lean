import Lycancoin.Coins.Spending
import Lycancoin.Validation.ConnectBlock

namespace Lycancoin

/-- The transaction `tx` has `txout` at the outpoint. -/
def CTransaction.Provides (tx : CTransaction) (place : COutPoint) (txout : CTxOut) : Prop :=
  tx.hash = place.hash ∧ tx.vout[place.n.toNat]? = some txout

def UtxoView.ProvidedBy (view : UtxoView) (txs : CTransaction → Prop) : Prop :=
  ∀ place txout, view.output place = some txout → ∃ tx, txs tx ∧ tx.Provides place txout

namespace CCoins

variable {coins : CCoins} {n position : Nat} {txout : CTxOut}

theorem output_of_cleanup (available : coins.cleanup.output n = some txout) :
    coins.output n = some txout := by
  obtain ⟨stored, notNull⟩ := output_eq_some available
  have within := (List.getElem?_eq_some_iff.mp stored).1
  have same : coins.vout[n]? = some txout := by
    obtain ⟨rest, split⟩ : coins.cleanup.vout <+: coins.vout := List.rdropWhile_prefix CTxOut.isNull _
    rw [← split, List.getElem?_append_left within]
    exact stored
  rw [output, same]
  exact if_neg (by rw [notNull]; decide)

theorem output_of_spend (available : (coins.spend n).2.output position = some txout) :
    coins.output position = some txout := by
  rw [spend] at available
  split at available
  · have kept := output_of_cleanup available
    obtain ⟨stored, notNull⟩ := output_eq_some kept
    rw [List.getElem?_set] at stored
    split at stored
    · split at stored
      · cases stored
        contradiction
      · contradiction
    · rw [output, stored]
      exact if_neg (by rw [notNull]; decide)
  · exact available

theorem output_of_fromTx {tx : CTransaction} {nHeight : Int}
    (available : (fromTx tx nHeight).output n = some txout) : tx.vout[n]? = some txout := by
  obtain ⟨stored, notNull⟩ := output_eq_some (output_of_cleanup available)
  rw [List.getElem?_map, Option.map_eq_some_iff] at stored
  obtain ⟨original, found, same⟩ := stored
  split at same
  · subst same
    contradiction
  · subst same
    exact found

end CCoins

namespace UtxoView

variable {view after shown : UtxoView} {place : COutPoint} {txout : CTxOut} {tx : CTransaction}
  {txs earlier : CTransaction → Prop}

theorem ProvidedBy.mono (provided : view.ProvidedBy txs) (more : ∀ tx, txs tx → earlier tx) :
    view.ProvidedBy earlier := by
  intro place txout available
  obtain ⟨tx, member, provides⟩ := provided place txout available
  exact ⟨tx, more tx member, provides⟩

/-- An output after an edit is one of the edited coins, or stands under another hash. -/
theorem output_of_modifyCoins {txid : Uint256} {edit : CCoins → CCoins}
    (available : (view.modifyCoins txid edit).output place = some txout) :
    (place.hash = txid ∧
        (edit ((view.coins txid).getD CCoins.empty)).output place.n.toNat = some txout) ∨
      (place.hash ≠ txid ∧ view.output place = some txout) := by
  by_cases here : place.hash = txid
  · left
    refine ⟨here, CCoins.output_of_cleanup ?_⟩
    simp only [output, modifyCoins, here, Function.update_self, output_live] at available
    exact available
  · right
    refine ⟨here, ?_⟩
    simp only [output, modifyCoins, Function.update_of_ne here] at available
    exact available

theorem output_getD (view : UtxoView) (place : COutPoint) :
    ((view.coins place.hash).getD CCoins.empty).output place.n.toNat = view.output place := by
  rw [output]
  cases view.coins place.hash with
  | none => rfl
  | some coins => rfl

/-- Spending an input gives its output to the undo data and adds none. -/
theorem output_of_spendInput {prevout : COutPoint} {undo : CTxInUndo}
    (spent : view.spendInput prevout = .ok (after, undo)) :
    view.output prevout = some undo.txout ∧
      ∀ place txout, after.output place = some txout → view.output place = some txout := by
  unfold spendInput at spent
  split at spent
  · contradiction
  · rename_i spentOut available
    cases spent
    constructor
    · rw [available]
      split <;> rfl
    · intro place txout shown
      rcases output_of_modifyCoins shown with ⟨here, edited⟩ | ⟨_, old⟩
      · rw [← here] at edited
        have kept := CCoins.output_of_spend edited
        rwa [output_getD] at kept
      · exact old

theorem output_of_spendInputs {vin : List CTxIn} {undos : CTxUndo}
    (spent : view.spendInputs vin = .ok (after, undos)) :
    List.Forall₂ (fun txin undo => view.output txin.prevout = some undo.txout) vin undos ∧
      ∀ place txout, after.output place = some txout → view.output place = some txout := by
  induction vin generalizing view undos with
  | nil =>
      cases spent
      exact ⟨.nil, fun _ _ => id⟩
  | cons txin rest ih =>
      obtain ⟨⟨middle, undo⟩, first, spent⟩ := check_bind_eq_ok.mp spent
      obtain ⟨⟨last, others⟩, later, spent⟩ := check_bind_eq_ok.mp spent
      cases spent
      obtain ⟨own, keeps⟩ := output_of_spendInput first
      obtain ⟨restOwn, restKeeps⟩ := ih later
      exact ⟨.cons own (restOwn.imp fun _ _ => keeps _ _),
        fun place txout shown => keeps _ _ (restKeeps _ _ shown)⟩

theorem ProvidedBy.addOutputs (provided : view.ProvidedBy txs) (tx : CTransaction)
    (nHeight : Int) : (view.addOutputs tx nHeight).ProvidedBy fun other => txs other ∨ other = tx := by
  intro place txout available
  rcases output_of_modifyCoins available with ⟨here, edited⟩ | ⟨_, old⟩
  · exact ⟨tx, .inr rfl, here.symm, CCoins.output_of_fromTx edited⟩
  · obtain ⟨other, member, provides⟩ := provided place txout old
    exact ⟨other, .inl member, provides⟩

end UtxoView

/-! Blocks on the way in. -/

/-- The values of the inputs were added up in a view of the outputs of some transactions. -/
def CTransaction.Funded (tx : CTransaction) (txs : CTransaction → Prop) : Prop :=
  tx.isCoinBase = false → ∃ (view : UtxoView) (nSpendHeight : Nat) (nValueIn : Int),
    view.ProvidedBy txs ∧ checkInputValues view nSpendHeight 0 tx.vin = .ok nValueIn

/-- Each transaction of a block is funded from some transactions and those before it. -/
def FundedInOrder (txs : CTransaction → Prop) : List CTransaction → Prop
  | [] => True
  | tx :: rest => tx.Funded txs ∧ FundedInOrder (fun other => txs other ∨ other = tx) rest

/-- Undo data that brings back outputs of some transactions and of those earlier in the block. -/
def UndoProvided (txs : CTransaction → Prop) : List CTransaction → List CTxUndo → Prop
  | tx :: rest, txundo :: undos =>
      List.Forall₂ (fun txin undo =>
        ∃ other, txs other ∧ other.Provides txin.prevout undo.txout) tx.vin txundo ∧
      UndoProvided (fun other => txs other ∨ other = tx) rest undos
  | _, _ => True

section Connect

variable {rules : ConnectRules} {view : UtxoView} {nFees : Int} {nSigOps : Nat}
  {tx : CTransaction} {txs : CTransaction → Prop} {block : List CTransaction}
  {connected : Connected}

theorem checkInputAmounts_values {nSpendHeight : Nat}
    (passed : checkInputAmounts view nSpendHeight tx = .ok ()) :
    ∃ nValueIn, checkInputValues view nSpendHeight 0 tx.vin = .ok nValueIn := by
  obtain ⟨_, passed⟩ := check_seq_eq_ok.mp passed
  obtain ⟨nValueIn, values, _⟩ := check_bind_eq_ok.mp passed
  exact ⟨nValueIn, values⟩

theorem checkConnect_funded (provided : view.ProvidedBy txs) {result : Int × Nat}
    (passed : checkConnect rules view nFees nSigOps tx = .ok result) : tx.Funded txs := by
  intro notCoinBase
  simp only [checkConnect, notCoinBase, Bool.false_eq_true, if_false] at passed
  obtain ⟨_, passed⟩ := check_seq_eq_ok.mp passed
  obtain ⟨_, passed⟩ := check_seq_eq_ok.mp passed
  obtain ⟨_, passed⟩ := check_seq_eq_ok.mp passed
  obtain ⟨_, _, passed⟩ := check_bind_eq_ok.mp passed
  obtain ⟨_, _, passed⟩ := check_bind_eq_ok.mp passed
  obtain ⟨_, _, passed⟩ := check_bind_eq_ok.mp passed
  obtain ⟨_, _, passed⟩ := check_bind_eq_ok.mp passed
  obtain ⟨inputs, _⟩ := check_seq_eq_ok.mp passed
  obtain ⟨amounts, _⟩ := check_seq_eq_ok.mp inputs
  obtain ⟨nValueIn, values⟩ := checkInputAmounts_values amounts
  exact ⟨view, rules.nSpendHeight, nValueIn, provided, values⟩

theorem updateCoins_provided {nHeight : Int} {after : UtxoView} {txundo : CTxUndo}
    (provided : view.ProvidedBy txs) (updated : view.updateCoins tx nHeight = .ok (after, txundo)) :
    after.ProvidedBy (fun other => txs other ∨ other = tx) ∧
      (tx.isCoinBase = false → List.Forall₂ (fun txin undo =>
        ∃ other, txs other ∧ other.Provides txin.prevout undo.txout) tx.vin txundo) := by
  unfold UtxoView.updateCoins at updated
  split at updated
  · rename_i isCoinBase
    cases updated
    refine ⟨provided.addOutputs tx nHeight, fun notCoinBase => ?_⟩
    rw [isCoinBase] at notCoinBase
    contradiction
  · obtain ⟨⟨spent, undos⟩, inputs, updated⟩ := check_bind_eq_ok.mp updated
    cases updated
    obtain ⟨restored, keeps⟩ := UtxoView.output_of_spendInputs inputs
    have left : spent.ProvidedBy txs := fun place txout shown => provided _ _ (keeps _ _ shown)
    exact ⟨left.addOutputs tx nHeight, fun _ => restored.imp fun _ _ => provided _ _⟩

theorem connectTransactions_provided (provided : view.ProvidedBy txs)
    (notCoinBase : ∀ tx ∈ block, tx.isCoinBase = false)
    (ran : connectTransactions rules false view nFees nSigOps block = .ok connected) :
    connected.view.ProvidedBy (fun other => txs other ∨ other ∈ block) ∧
      FundedInOrder txs block ∧ UndoProvided txs block connected.vtxundo := by
  induction block generalizing view nFees nSigOps txs connected with
  | nil =>
      cases ran
      exact ⟨provided.mono fun _ => .inl, trivial, trivial⟩
  | cons tx rest ih =>
      obtain ⟨nextFees, nextSigOps, after, txundo, next, checked, updated, restRan, rfl⟩ :=
        connectTransactions_cons ran
      obtain ⟨own, others⟩ := List.forall_mem_cons.mp notCoinBase
      obtain ⟨left, undone⟩ := updateCoins_provided provided updated
      obtain ⟨shown, funded, restUndone⟩ := ih left others restRan
      refine ⟨shown.mono fun other member => ?_, ⟨checkConnect_funded provided checked, funded⟩,
        undone own, restUndone⟩
      rw [List.mem_cons]
      tauto

theorem connectBlock_provided {env : Environment} {scripts : ScriptInterpreter} {index : BlockMap}
    {nAdjustedTime : Int} {block : CBlock} {hash : Uint256} {after : UtxoView}
    {vtxundo : Option (List CTxUndo)} (provided : view.ProvidedBy txs)
    (passed : connectBlock env scripts index nAdjustedTime block hash view = .ok (after, vtxundo))
    (behind : env.hashes.getHash block.toCBlockHeader ≠ env.consensus.hashGenesisBlock) :
    after.ProvidedBy (fun other => txs other ∨ other ∈ block.vtx) ∧
      FundedInOrder txs block.vtx ∧
      ∃ coinbase rest undos, block.vtx = coinbase :: rest ∧ vtxundo = some undos ∧
        UndoProvided (fun other => txs other ∨ other = coinbase) rest undos := by
  obtain ⟨checked, _, _, _, outcome⟩ := connectBlock_spec passed
  rcases outcome with ⟨isGenesis, _⟩ | ⟨_, _, connected, _, _, ran, _, rfl, rfl⟩
  · exact absurd isGenesis behind
  · obtain ⟨coinbase, rest, vtx, isCoinBase, notCoinBase⟩ := (checkBlock_spec checked).coinbase
    rw [vtx] at ran ⊢
    obtain ⟨_, _, middle, _, next, first, updated, restRan, rfl⟩ := connectTransactions_cons ran
    obtain ⟨left, _⟩ := updateCoins_provided provided updated
    obtain ⟨shown, funded, undone⟩ := connectTransactions_provided left notCoinBase restRan
    refine ⟨?_, ⟨checkConnect_funded provided first, funded⟩, coinbase, rest, next.vtxundo, rfl,
      rfl, undone⟩
    have kept : UtxoView.ProvidedBy { next.view with hashBestBlock := hash } _ := shown
    refine kept.mono fun other member => ?_
    rw [List.mem_cons]
    tauto

end Connect

/-! Blocks on the way out. -/

section Disconnect

variable {view : UtxoView} {tx : CTransaction} {txs : CTransaction → Prop}

/-- An output that is put in its place in padded outputs, or was there before. -/
theorem getElem?_restored {vout : List CTxOut} {place length n : Nat} {restored txout : CTxOut}
    (stored : ((vout ++ List.replicate length CTxOut.null).set place restored)[n]? = some txout)
    (notNull : txout.isNull = false) :
    (n = place ∧ txout = restored) ∨ vout[n]? = some txout := by
  rw [List.getElem?_set] at stored
  split at stored
  · rename_i here
    split at stored
    · cases stored
      exact .inl ⟨here.symm, rfl⟩
    · contradiction
  · rw [List.getElem?_append] at stored
    split at stored
    · exact .inr stored
    · have isNull := (List.mem_replicate.mp (List.mem_of_getElem? stored)).2
      subst isNull
      contradiction

theorem eq_of_hash_eq {place out : COutPoint} (hash : place.hash = out.hash)
    (n : place.n.toNat = out.n.toNat) : place = out := by
  cases place
  cases out
  simp only [UInt32.toNat_inj] at hash n
  rw [hash, n]

theorem output_of_applyTxInUndo {undo : CTxInUndo} {out place : COutPoint} {txout : CTxOut}
    (available : (view.applyTxInUndo undo out).2.output place = some txout) :
    (place = out ∧ txout = undo.txout) ∨ view.output place = some txout := by
  simp only [UtxoView.applyTxInUndo] at available
  rcases UtxoView.output_of_modifyCoins available with ⟨here, edited⟩ | ⟨_, old⟩
  · obtain ⟨stored, notNull⟩ := CCoins.output_eq_some edited
    by_cases whole : undo.nHeight ≠ 0
    · simp only [if_pos whole] at stored
      rcases getElem?_restored stored notNull with ⟨position, same⟩ | kept
      · exact .inl ⟨eq_of_hash_eq here position, same⟩
      · simp [CCoins.empty] at kept
    · simp only [if_neg whole] at stored
      rcases getElem?_restored stored notNull with ⟨position, same⟩ | kept
      · exact .inl ⟨eq_of_hash_eq here position, same⟩
      · right
        rw [← UtxoView.output_getD, here, CCoins.output, kept]
        exact if_neg (by rw [notNull]; decide)
  · exact .inr old

theorem restoreInputs_provided {vin : List CTxIn} {undos : CTxUndo} (provided : view.ProvidedBy txs)
    (undone : List.Forall₂ (fun (txin : CTxIn) (undo : CTxInUndo) =>
      ∃ other, txs other ∧ other.Provides txin.prevout undo.txout) vin undos) :
    (restoreInputs view vin undos).2.ProvidedBy txs := by
  induction undone with
  | nil => exact provided
  | @cons txin undo vin undos own _ ih =>
      intro place txout available
      rcases output_of_applyTxInUndo available with ⟨rfl, rfl⟩ | old
      · exact own
      · exact ih place txout old

theorem removeOutputs_provided (nHeight : Nat)
    (provided : view.ProvidedBy fun other => txs other ∨ other = tx) :
    (removeOutputs view tx nHeight).2.ProvidedBy txs := by
  intro place txout available
  simp only [removeOutputs] at available
  rcases UtxoView.output_of_modifyCoins available with ⟨_, gone⟩ | ⟨different, old⟩
  · contradiction
  · obtain ⟨other, member, provides⟩ := provided place txout old
    rcases member with member | rfl
    · exact ⟨other, member, provides⟩
    · exact absurd provides.1.symm different

theorem disconnectTransactions_provided {nHeight : Nat} {block : List CTransaction}
    {undos : List CTxUndo} {fClean : Bool} {after : UtxoView}
    (provided : view.ProvidedBy fun other => txs other ∨ other ∈ block)
    (undone : UndoProvided txs block undos) (size : undos.length = block.length)
    (ran : disconnectTransactions view nHeight block undos = .ok (fClean, after)) :
    after.ProvidedBy txs := by
  induction block generalizing txs undos fClean after with
  | nil =>
      cases ran
      exact provided.mono fun other member => member.resolve_right List.not_mem_nil
  | cons tx rest ih =>
      obtain ⟨txundo, undos, rfl⟩ := List.exists_cons_of_length_eq_add_one size
      obtain ⟨⟨restClean, middle⟩, restRan, ran⟩ := check_bind_eq_ok.mp ran
      obtain ⟨own, others⟩ := undone
      have left := ih (provided.mono fun other member => by
        rw [List.mem_cons] at member
        tauto) others (by simpa using size) restRan
      have removed := removeOutputs_provided nHeight left
      dsimp only at ran
      split at ran
      · contradiction
      · cases ran
        exact restoreInputs_provided removed own

theorem disconnectBlock_provided {index : BlockMap} {block : CBlock} {hash : Uint256}
    {coinbase : CTransaction} {rest : List CTransaction} {undos : List CTxUndo} {fClean : Bool}
    {after : UtxoView} (vtx : block.vtx = coinbase :: rest)
    (provided : view.ProvidedBy fun other => txs other ∨ other ∈ block.vtx)
    (undone : UndoProvided (fun other => txs other ∨ other = coinbase) rest undos)
    (ran : disconnectBlock index block undos hash view = .ok (fClean, after)) :
    after.ProvidedBy txs := by
  rw [disconnectBlock, vtx] at ran
  split at ran
  · rename_i pindex _ _ found same
    cases same
    split at ran
    · contradiction
    · split at ran
      · contradiction
      · split at ran
        · contradiction
        · rename_i size
          obtain ⟨⟨restClean, middle⟩, restRan, ran⟩ := check_bind_eq_ok.mp ran
          cases ran
          have left := disconnectTransactions_provided (provided.mono fun other member => by
            rw [vtx, List.mem_cons] at member
            tauto) undone (by simpa using size) restRan
          exact removeOutputs_provided pindex.nHeight left
  · contradiction

end Disconnect

end Lycancoin
