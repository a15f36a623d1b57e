import Lycancoin.Chain.HeaderRun
import Lycancoin.Coins.Spending
import Lycancoin.Validation.ConnectBlock

namespace Lycancoin

open Lycancoin.Data

section Coins

variable {coins : CCoins} {n : Nat} {txout : CTxOut}

/-- Writing the spent output back into what is left of its coins. -/
theorem CCoins.restore_spend (sound : coins.Sound) (available : coins.output n = some txout) :
    cleanup { (coins.spend n).2 with
      vout := ((coins.spend n).2.vout ++ List.replicate
        (n + 1 - (coins.spend n).2.vout.length) CTxOut.null).set n txout } = coins := by
  obtain ⟨stored, notNull⟩ := output_eq_some available
  have spent := spend_of_output available
  have spentCanonical :
      PaddedList.Canonical CTxOut.null CTxOut.isNull (coins.spend n).2.vout := by
    rw [spent]
    exact canonical_cleanup (canonical_set_null sound.canonical)
  apply eq_of_slot_eq (clean_cleanup _) sound.clean
  · rw [slot_cleanup, PaddedList.slot_set, PaddedList.slot_append_replicate,
      slot_spend sound available, Function.update_idem]
    · have value : txout = PaddedList.slot CTxOut.null coins.vout n := by
        rw [PaddedList.slot, stored, Option.getD_some]
      rw [value, Function.update_eq_self]
    · simp only [List.length_append, List.length_replicate]
      omega
    · intro other member isNull
      rcases List.mem_or_eq_of_mem_set member with padded | rfl
      · rcases List.mem_append.mp padded with old | blank
        · exact spentCanonical other old isNull
        · exact List.eq_of_mem_replicate blank
      · rw [notNull] at isNull
        contradiction
  all_goals rw [spent]; rfl

end Coins

namespace UtxoView

variable {view after : UtxoView} (shown : UtxoView) {prevout : COutPoint} {undo : CTxInUndo}

/-- The undo data of an input puts its output back. -/
theorem applyTxInUndo_of_spendInput (sound : view.Sound)
    (spent : view.spendInput prevout = .ok (after, undo)) (same : shown.coins = after.coins) :
    shown.applyTxInUndo undo prevout = (true, { shown with coins := view.coins }) := by
  obtain ⟨coins, txout, found, available, rfl, rfl⟩ := spendInput_spec spent
  have coinsSound := sound _ _ found
  have restored := CCoins.restore_spend coinsSound available
  have live : coins.live = some coins := CCoins.live_of_not_isPruned coinsSound.unspent
  have clean : (coins.spend prevout.n.toNat).2.Clean := by
    rw [CCoins.spend_of_output available]
    exact CCoins.clean_cleanup _
  dsimp only at same
  have original : Function.update view.coins prevout.hash (some coins) = view.coins := by
    rw [← found, Function.update_eq_self]
  cases pruned : (coins.spend prevout.n.toNat).2.isPruned with
  | true =>
      -- the undo data carries what the coins have lost with their last output
      have emptied := (CCoins.isPruned_iff_vout_eq_nil clean).mp pruned
      have above : coins.nHeight ≠ 0 := (coinsSound.height).ne'
      have record : (coins.spend prevout.n.toNat).2 =
          { CCoins.empty with
            fCoinBase := coins.fCoinBase, nHeight := coins.nHeight, nVersion := coins.nVersion } := by
        rw [CCoins.spend_of_output available] at emptied ⊢
        simp only [CCoins.cleanup, CCoins.empty] at emptied ⊢
        rw [emptied]
      rw [record] at restored
      simp only [applyTxInUndo, modifyCoins, same, Function.update_self, Function.update_idem, emptied,
        CCoins.live_of_isPruned pruned, List.isEmpty_nil, if_true, Option.getD_none, above,
        ne_eq, not_false_eq_true, restored, live, original]
      rfl
  | false =>
      have left : (coins.spend prevout.n.toNat).2.vout.isEmpty = false := by
        rw [List.isEmpty_eq_false_iff]
        intro emptied
        rw [(CCoins.isPruned_iff_vout_eq_nil clean).mpr emptied] at pruned
        contradiction
      have gone : (coins.spend prevout.n.toNat).2.isAvailable prevout.n.toNat = false := by
        rw [CCoins.isAvailable_eq, CCoins.output_spend coinsSound available, if_pos rfl]
        rfl
      simp only [applyTxInUndo, modifyCoins, same, Function.update_self, Function.update_idem, left,
        CCoins.live_of_not_isPruned pruned, Bool.false_eq_true, if_false, Option.getD_some,
        ne_eq, not_true_eq_false, pruned, gone, restored, live, original]
      rfl

/-- The undo data of the inputs of a transaction puts their outputs back. -/
theorem restoreInputs_of_spendInputs {vin : List CTxIn} {undos : CTxUndo} (sound : view.Sound)
    (spent : view.spendInputs vin = .ok (after, undos)) (same : shown.coins = after.coins) :
    undos.length = vin.length ∧
      restoreInputs shown vin undos = (true, { shown with coins := view.coins }) := by
  induction vin generalizing view undos with
  | nil =>
      cases spent
      exact ⟨rfl, by rw [← same]; rfl⟩
  | cons txin rest ih =>
      obtain ⟨next, undo, restUndos, first, others, rfl⟩ := spendInputs_cons spent
      obtain ⟨lengths, restored⟩ := ih (sound_spendInput sound first) others
      have firstRestored := applyTxInUndo_of_spendInput
        { shown with coins := next.coins } sound first rfl
      refine ⟨by simp [lengths], ?_⟩
      simp only [restoreInputs, restored, firstRestored, Bool.and_self]

theorem removeOutputs_of_addOutputs {tx : CTransaction} (nHeight : Nat)
    (absent : view.coins tx.hash = none) (version : 0 ≤ tx.nVersion)
    (same : shown.coins = (view.addOutputs tx nHeight).coins) :
    removeOutputs shown tx nHeight = (true, { shown with coins := view.coins }) := by
  rw [coins_addOutputs] at same
  have notNegative : ¬ (CCoins.fromTx tx nHeight).nVersion < 0 := Int.not_lt.mpr version
  have matched : ((CCoins.fromTx tx nHeight).live.getD CCoins.empty).clearUnspendable.equals
      (CCoins.fromTx tx nHeight) = true := by
    rw [CCoins.equals_iff_live_eq]
    cases pruned : (CCoins.fromTx tx nHeight).isPruned with
    | true =>
        rw [CCoins.live_of_isPruned pruned]
        rfl
    | false =>
        rw [CCoins.live_of_not_isPruned pruned, Option.getD_some]
        rw [CCoins.fromTx, CCoins.clearUnspendable_idem]
        exact CCoins.live_of_not_isPruned pruned
  have original : Function.update view.coins tx.hash none = view.coins := by
    rw [← absent, Function.update_eq_self]
  have nothing : CCoins.empty.cleanup.live = none := rfl
  simp only [removeOutputs, modifyCoins, same, Function.update_self, Function.update_idem,
    if_neg notNegative, matched, nothing, original]

end UtxoView

/-- No two transactions of the list have the same hash without being the same. -/
def HashesIdentify (txs : List CTransaction) : Prop :=
  ∀ tx ∈ txs, ∀ other ∈ txs, tx.hash = other.hash → tx = other

/-- What holds while the transactions of a block are connected: the view `start`
has become `view`, and `done` are the transactions behind. -/
structure Progress (start view : UtxoView) (done : List CTransaction) : Prop where
  sound : view.Sound
  known : ∀ txid, (view.coins txid).isSome →
    (start.coins txid).isSome ∨ ∃ tx ∈ done, tx.hash = txid
  spent : ∀ tx ∈ done, tx.isCoinBase = false → ∀ txin ∈ tx.vin,
    view.output txin.prevout = none ∧
      ((start.coins txin.prevout.hash).isSome ∨ ∃ other ∈ done, other.hash = txin.prevout.hash)

namespace Progress

variable {start view after : UtxoView} {done : List CTransaction} {tx : CTransaction}

/-- A transaction that comes twice would spend its inputs twice. -/
theorem unseen (progress : Progress start view done) (inputs : tx.vin ≠ [])
    (notCoinBase : tx.isCoinBase = false)
    (available : ∀ place ∈ tx.vin.map CTxIn.prevout, (view.output place).isSome)
    (identified : ∀ other ∈ done, other.hash = tx.hash → other = tx) :
    ∀ other ∈ done, other.hash ≠ tx.hash := by
  intro other member sameHash
  obtain rfl := identified other member sameHash
  obtain ⟨txin, rest, vinEq⟩ := List.exists_cons_of_ne_nil inputs
  have first : txin ∈ other.vin := by simp [vinEq]
  have found := available txin.prevout (List.mem_map_of_mem first)
  rw [(progress.spent other member notCoinBase txin first).1] at found
  contradiction

theorem absent (progress : Progress start view done) (fresh : start.coins tx.hash = none)
    (unseen : ∀ other ∈ done, other.hash ≠ tx.hash) : view.coins tx.hash = none := by
  by_contra present
  rcases progress.known tx.hash (Option.isSome_iff_ne_none.mpr present) with old | ⟨other, member, same⟩
  · rw [fresh] at old
    contradiction
  · exact unseen other member same

theorem coinbase (sound : start.Sound) (checked : TransactionSound tx) (nHeight : Int)
    (above : 0 < nHeight) (isCoinBase : tx.isCoinBase = true) :
    Progress start (start.addOutputs tx nHeight) [tx] where
  sound := UtxoView.sound_addOutputs sound checked above
  known := by
    intro txid present
    rw [UtxoView.coins_addOutputs, Function.update_apply] at present
    split at present
    · rename_i same
      exact Or.inr ⟨tx, by simp, same.symm⟩
    · exact Or.inl present
  spent := by
    intro other member notCoinBase
    rw [List.mem_singleton] at member
    subst member
    rw [isCoinBase] at notCoinBase
    contradiction

theorem step (progress : Progress start view done) (checked : TransactionSound tx) {nHeight : Int}
    (above : 0 < nHeight) (fresh : start.coins tx.hash = none)
    (unseen : ∀ other ∈ done, other.hash ≠ tx.hash)
    (spent : UtxoView.InputsSpent view after (tx.vin.map CTxIn.prevout)) :
    Progress start (after.addOutputs tx nHeight) (tx :: done) := by
  have txAbsent := progress.absent fresh unseen
  refine ⟨UtxoView.sound_addOutputs spent.sound checked above, ?_, ?_⟩
  · intro txid present
    rw [UtxoView.coins_addOutputs, Function.update_apply] at present
    split at present
    · rename_i same
      exact Or.inr ⟨tx, by simp, same.symm⟩
    · have before : (view.coins txid).isSome := by
        by_contra missing
        rw [spent.absent txid (by simpa using missing)] at present
        contradiction
      rcases progress.known txid before with old | ⟨other, member, same⟩
      · exact Or.inl old
      · exact Or.inr ⟨other, List.mem_cons_of_mem _ member, same⟩
  · -- an input that is gone stays gone: its transaction is not the new one
    have kept : ∀ place : COutPoint, after.output place = none → place.hash ≠ tx.hash →
        (after.addOutputs tx nHeight).output place = none := by
      intro place gone different
      rw [UtxoView.output_addOutputs nHeight different, gone]
    intro other member notCoinBase txin inputMember
    rcases List.mem_cons.mp member with rfl | earlier
    · have place : txin.prevout ∈ other.vin.map CTxIn.prevout := List.mem_map_of_mem inputMember
      have gone : after.output txin.prevout = none := by rw [spent.output, if_pos place]
      have found := spent.available txin.prevout place
      have present : (view.coins txin.prevout.hash).isSome := by
        by_contra missing
        rw [UtxoView.output, Option.not_isSome_iff_eq_none.mp missing] at found
        contradiction
      have different : txin.prevout.hash ≠ other.hash := by
        intro same
        rw [same, txAbsent] at present
        contradiction
      refine ⟨kept _ gone different, ?_⟩
      rcases progress.known _ present with old | ⟨source, sourceMember, same⟩
      · exact Or.inl old
      · exact Or.inr ⟨source, List.mem_cons_of_mem _ sourceMember, same⟩
    · obtain ⟨gone, origin⟩ := progress.spent other earlier notCoinBase txin inputMember
      have different : txin.prevout.hash ≠ tx.hash := by
        intro same
        rcases origin with old | ⟨source, sourceMember, sourceHash⟩
        · rw [same, fresh] at old
          contradiction
        · exact unseen source sourceMember (sourceHash.trans same)
      have goneAfter : after.output txin.prevout = none := by
        rw [spent.output, gone, ite_self]
      refine ⟨kept _ goneAfter different, ?_⟩
      rcases origin with old | ⟨source, sourceMember, sourceHash⟩
      · exact Or.inl old
      · exact Or.inr ⟨source, List.mem_cons_of_mem _ sourceMember, sourceHash⟩

end Progress

section Connect

variable {rules : ConnectRules} {view start : UtxoView} {done rest : List CTransaction}
  {tx : CTransaction} {nFees : Int} {nSigOps : Nat} {connected : Connected} {first : Bool}

/-- The transactions behind the coinbase are undone in reverse order. -/
theorem Progress.disconnectTransactions {txs : List CTransaction}
    (progress : Progress start view done) (shown : UtxoView) (checked : ∀ tx ∈ txs, TransactionSound tx)
    (notCoinBase : ∀ tx ∈ txs, tx.isCoinBase = false)
    (version : ∀ tx ∈ txs, 0 ≤ tx.nVersion) (fresh : ∀ tx ∈ txs, start.coins tx.hash = none)
    (identified : HashesIdentify (txs ++ done)) (above : 0 < rules.nHeight)
    (ran : connectTransactions rules false view nFees nSigOps txs = .ok connected)
    (same : shown.coins = connected.view.coins) :
    Lycancoin.disconnectTransactions shown rules.nHeight txs connected.vtxundo =
        .ok (true, { shown with coins := view.coins }) ∧
      connected.vtxundo.length = txs.length ∧ connected.view.Sound := by
  induction txs generalizing view done nFees nSigOps connected with
  | nil =>
      cases ran
      refine ⟨?_, rfl, progress.sound⟩
      dsimp only at same
      rw [← same]
      rfl
  | cons tx rest ih =>
      obtain ⟨nextFees, nextSigOps, after, txundo, next, _, updated, restRan, rfl⟩ :=
        connectTransactions_cons ran
      obtain ⟨spent, spentInputs, rfl⟩ :=
        UtxoView.updateCoins_of_not_coinBase (notCoinBase tx (by simp)) updated
      have txChecked := checked tx (by simp)
      have inputs := UtxoView.spendInputs_spec progress.sound spentInputs
      have unseen := progress.unseen txChecked.vin_ne_nil (notCoinBase tx (by simp))
        inputs.available fun other member same =>
          identified other (by simp [member]) tx (by simp) same
      have txFresh := fresh tx (by simp)
      have spentAbsent := inputs.absent _ (progress.absent txFresh unseen)
      have stepped := progress.step txChecked (Int.natCast_pos.mpr above) txFresh unseen inputs
      obtain ⟨restUndone, restLength, restSound⟩ := ih stepped
        (fun other member => checked other (by simp [member]))
        (fun other member => notCoinBase other (by simp [member]))
        (fun other member => version other (by simp [member]))
        (fun other member => fresh other (by simp [member]))
        (fun left leftMember right rightMember => identified left (by simp at leftMember ⊢; tauto)
          right (by simp at rightMember ⊢; tauto))
        restRan same
      have outputsRemoved := UtxoView.removeOutputs_of_addOutputs
        { shown with coins := (spent.addOutputs tx rules.nHeight).coins } rules.nHeight
        spentAbsent (version tx (by simp)) rfl
      obtain ⟨undoLength, inputsRestored⟩ := UtxoView.restoreInputs_of_spendInputs
        { shown with coins := spent.coins } progress.sound spentInputs rfl
      refine ⟨?_, by simp [restLength], restSound⟩
      simp only [Lycancoin.disconnectTransactions, restUndone, outputsRemoved, inputsRestored,
        undoLength, Bool.false_eq_true, if_false, bind, Except.bind, ne_eq, not_true_eq_false,
        Bool.and_self]
      rfl

/-- Connecting a block and disconnecting it with its undo data is clean and
gives the view back.  The genesis block, which adds nothing, has no undo data. -/
theorem disconnectBlock_undoes_connectBlock {env : Environment} {scripts : ScriptInterpreter}
    {index : BlockMap} {nAdjustedTime : Int} {block : CBlock} {hash : Uint256}
    {after : UtxoView} {vtxundo : List CTxUndo} (indexed : PredecessorsIndexed index)
    (sound : view.Sound) (version : ∀ tx ∈ block.vtx, 0 ≤ tx.nVersion)
    (fresh : ∀ tx ∈ block.vtx, view.coins tx.hash = none)
    (identified : HashesIdentify block.vtx)
    (passed : connectBlock env scripts index nAdjustedTime block hash view =
      .ok (after, some vtxundo)) :
    disconnectBlock index block vtxundo hash after = .ok (true, view) := by
  obtain ⟨checked, pindex, found, best, outcome⟩ := connectBlock_spec passed
  rcases outcome with
    ⟨_, _, impossible⟩ | ⟨prev, pindexPrev, connected, pprevEq, _, ran, _, rfl, undoEq⟩
  · contradiction
  · cases undoEq
    have above := indexed.height_pos found pprevEq
    have blockSound := checkBlock_spec checked
    obtain ⟨coinbase, txs, vtxEq, isCoinBase, notCoinBase⟩ := blockSound.coinbase
    have transactions := blockSound.transactions
    rw [vtxEq] at ran version fresh identified transactions
    obtain ⟨_, _, first, _, next, _, updated, restRan, rfl⟩ := connectTransactions_cons ran
    obtain rfl := UtxoView.updateCoins_of_coinBase isCoinBase updated
    have progress := Progress.coinbase sound
      (transactions coinbase (by simp)) pindex.nHeight (Int.natCast_pos.mpr above) isCoinBase
    obtain ⟨undone, undoLength, _⟩ := progress.disconnectTransactions
      { next.view with hashBestBlock := hash }
      (fun tx member => transactions tx (by simp [member])) notCoinBase
      (fun tx member => version tx (by simp [member]))
      (fun tx member => fresh tx (by simp [member]))
      (fun left leftMember right rightMember => identified left (by simp at leftMember ⊢; tauto)
        right (by simp at rightMember ⊢; tauto))
      above restRan rfl
    have coinbaseRemoved := UtxoView.removeOutputs_of_addOutputs
      { coins := (view.addOutputs coinbase pindex.nHeight).coins, hashBestBlock := hash }
      pindex.nHeight
      (fresh coinbase (by simp)) (version coinbase (by simp)) rfl
    rw [pprevEq, Option.getD_some] at best
    have rulesHeight : (connectRules env scripts index block pindex
      (pindexPrev.nHeight + 1)).nHeight = pindex.nHeight := rfl
    rw [rulesHeight] at undone
    simp only [disconnectBlock, found, vtxEq, pprevEq, undoLength, undone, coinbaseRemoved,
      List.length_cons, ne_eq, not_true_eq_false, if_false, if_true, bind, Except.bind,
      Bool.and_self, best]
    rfl

end Connect

/-- Digests that tell the hashes of the sample block apart. -/
def sampleHashes : Digests where
  getHash block := ⟨BitVec.ofNat 256 block.nTime.toNat⟩
  getPoWHash _ := 0
  hashPair left right := ⟨3 * left.value + right.value⟩

def sampleEnvironment : Environment :=
  { hashes := sampleHashes, network := .main, fCheckpointsEnabled := false }

def sampleScripts : ScriptInterpreter :=
  { scriptCheck := fun _ _ _ _ => none, nScriptCheckThreads := 0 }

def sampleCoinbase : CTransaction where
  hash := 1
  nVersion := 1
  vin := [{ prevout := COutPoint.null, scriptSig := [1, 1], nSequence := 0 }]
  vout := [{ nValue := 500, scriptPubKey := [] }]
  nLockTime := 0

/-- A transaction that spends output 0 of the transaction under `prev`. -/
def sampleSpend (hash prev : Uint256) (nValue : Int) : CTransaction where
  hash
  nVersion := 1
  vin := [{ prevout := { hash := prev, n := 0 }, scriptSig := [], nSequence := 0 }]
  vout := [{ nValue, scriptPubKey := [] }]
  nLockTime := 0

/-- A block on genesis.  Its second transaction spends the last output of an
old transaction, and its third one spends the second. -/
def sampleBlock : CBlock where
  nVersion := 3
  hashPrevBlock := sampleEnvironment.consensus.hashGenesisBlock
  hashMerkleRoot := 27
  nTime := 1391485371
  nBits := 0x1e0ffff0
  nNonce := 0
  vtx := [sampleCoinbase, sampleSpend 2 7 90, sampleSpend 3 2 80]

def sampleIndex : BlockMap :=
  (HeaderIndex.run sampleEnvironment [⟨1391485371, sampleBlock.toCBlockHeader⟩]).mapBlockIndex

def sampleCoins : CCoins where
  fCoinBase := false
  vout := [{ nValue := 100, scriptPubKey := [] }]
  nHeight := 1
  nVersion := 1

def sampleView : UtxoView where
  coins := Function.update (fun _ => none) 7 (some sampleCoins)
  hashBestBlock := sampleEnvironment.consensus.hashGenesisBlock

theorem sampleView_sound : sampleView.Sound := by
  intro txid coins found
  have same : coins = sampleCoins := by
    simp only [sampleView, Function.update_apply] at found
    split at found
    · exact (Option.some.inj found).symm
    · contradiction
  subst same
  refine ⟨rfl, ?_, ?_, by decide, by decide⟩
  · rintro txout ⟨rfl⟩
    rfl
  · unfold PaddedList.Canonical
    decide

theorem disconnectBlock_undoes_sampleBlock :
    ∃ after vtxundo,
      connectBlock sampleEnvironment sampleScripts sampleIndex 1391485371 sampleBlock
        (sampleHashes.getHash sampleBlock.toCBlockHeader) sampleView = .ok (after, some vtxundo) ∧
      disconnectBlock sampleIndex sampleBlock vtxundo
        (sampleHashes.getHash sampleBlock.toCBlockHeader) after = .ok (true, sampleView) := by
  have succeeds : (connectBlock sampleEnvironment sampleScripts sampleIndex 1391485371 sampleBlock
      (sampleHashes.getHash sampleBlock.toCBlockHeader) sampleView).toOption.any
        (fun result => result.2.isSome) = true := by decide
  obtain ⟨⟨after, undo⟩, connected, isSome⟩ := exists_ok_of_any succeeds
  obtain ⟨vtxundo, rfl⟩ := Option.isSome_iff_exists.mp isSome
  refine ⟨after, vtxundo, connected, ?_⟩
  exact disconnectBlock_undoes_connectBlock (indexSound_run sampleEnvironment _).1.indexed
    sampleView_sound (by decide) (by decide) (by unfold HashesIdentify; decide) connected

end Lycancoin
