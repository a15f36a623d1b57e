import Lycancoin.Mempool.PoolApart
import Lycancoin.Wallet.Balance
import Lycancoin.Wallet.WalletChain

namespace Lycancoin

open Data

/-- The transactions of the chain above genesis, the newest first. -/
def activeTxs (setting : WalletSetting) (chain : CChain) : List CTransaction :=
  chain.dropLast.flatMap fun hash =>
    (setting.readBlockFromDisk hash).elim [] fun block => block.vtx.reverse

section Active

variable {setting : WalletSetting} {chain : CChain} {hash : Uint256} {block : CBlock}
  {tx : CTransaction}

theorem mem_activeTxs : tx ∈ activeTxs setting chain ↔ InActive setting chain tx := by
  simp only [activeTxs, List.mem_flatMap, InActive]
  refine exists_congr fun hash => and_congr_right fun _ => ?_
  cases setting.readBlockFromDisk hash <;> simp

theorem activeTxs_cons (more : chain ≠ []) (stored : setting.readBlockFromDisk hash = some block) :
    activeTxs setting (hash :: chain) = block.vtx.reverse ++ activeTxs setting chain := by
  rw [activeTxs, dropLast_cons hash more, List.flatMap_cons, stored]
  rfl

end Active

namespace NodeFault

variable {α : Type} {value : α}

theorem ofCheck_eq_ok {check : Check α} : ofCheck check = .ok value ↔ check = .ok value := by
  cases check <;> simp [ofCheck]

theorem ofPool_eq_ok {call : Except PoolFault α} : ofPool call = .ok value ↔ call = .ok value := by
  cases call <;> simp [ofPool]

end NodeFault

open NodeFault

namespace WalletNode

variable {setting : WalletSetting} {known : Set CTransaction} {node after : WalletNode}
  {history : List CTransaction}

/-- In the chain and the pool of a node, every output is spent at most once. -/
structure NodeSpent (setting : WalletSetting) (node : WalletNode) : Prop where
  left : node.pcoinsTip.LeftBy (activeTxs setting node.chainActive)
  once : spending.TakesOnce (activeTxs setting node.chainActive)
  apart : node.mempool.Apart (activeTxs setting node.chainActive)
  blocks : ∀ hash ∈ node.chainActive.dropLast, ∀ block,
    setting.readBlockFromDisk hash = some block → ∃ coinbase rest,
      block.vtx = coinbase :: rest ∧ ∀ tx ∈ rest, tx.isCoinBase = false

theorem NodeSpent.congr (spent : NodeSpent setting node) (coins : after.pcoinsTip = node.pcoinsTip)
    (chain : after.chainActive = node.chainActive) (pool : after.mempool = node.mempool) :
    NodeSpent setting after where
  left := by rw [coins, chain]; exact spent.left
  once := by rw [chain]; exact spent.once
  apart := by rw [pool, chain]; exact spent.apart
  blocks := by rw [chain]; exact spent.blocks

theorem eq_of_syncWithWallets {txs : List CTransaction} {pblock : Option CBlock}
    (ran : node.syncWithWallets setting txs pblock = .ok after) :
    ∃ mapWallet, after = { node with mapWallet } := by
  unfold syncWithWallets at ran
  cases synced : WalletMap.syncTransactions setting.env.hashes setting.isMine pblock
      node.mapWallet txs with
  | none =>
      rw [synced] at ran
      cases ran
  | some mapWallet =>
      rw [synced] at ran
      cases ran
      exact ⟨mapWallet, rfl⟩

theorem NodeSound.activeKnown (sound : NodeSound setting known node) :
    ∀ tx ∈ activeTxs setting node.chainActive, tx ∈ known :=
  fun tx member => (sound.wallet.settled tx (mem_activeTxs.mp member)).isKnown

theorem NodeSound.poolKnown (sound : NodeSound setting known node) :
    ∀ tx, node.mempool.Holds tx → tx ∈ known :=
  fun tx held => (sound.pool.settled tx held).1.isKnown

theorem NodeSpent.acceptToMemoryPool (spent : NodeSpent setting node)
    (sound : NodeSound setting known node) (identified : Set.InjOn CTransaction.hash known)
    {rules : PoolRules} {tx : CTransaction} {fLimitFree fRejectAbsurdFee : Bool}
    (ran : node.acceptToMemoryPool setting rules tx fLimitFree fRejectAbsurdFee = .ok after) :
    NodeSpent setting after := by
  unfold WalletNode.acceptToMemoryPool at ran
  split at ran
  · contradiction
  · rename_i mempool accepted
    obtain ⟨mapWallet, rfl⟩ := eq_of_syncWithWallets ran
    exact { spent with
      apart := (accepted_of_eq_ok accepted).apart sound.pool.exact spent.left spent.once spent.apart
        identified sound.activeKnown sound.poolKnown }

/-! `DisconnectTip`: the pool while transactions go back to it. -/

structure PoolSpent (known : Set CTransaction) (history : List CTransaction) (pool : CTxMemPool) :
    Prop where
  exact : pool.Exact
  known : ∀ tx, pool.Holds tx → tx ∈ known
  apart : pool.Apart history

theorem PoolSpent.mono {pool less : CTxMemPool} (spent : PoolSpent known history pool)
    (exact : less.Exact) (kept : ∀ tx, less.Holds tx → pool.Holds tx) :
    PoolSpent known history less :=
  ⟨exact, fun tx held => spent.known tx (kept tx held), spent.apart.mono kept⟩

theorem PoolSpent.resurrect {rules : PoolRules} {tx : CTransaction}
    (spent : PoolSpent known history node.mempool) (left : node.pcoinsTip.LeftBy history)
    (once : spending.TakesOnce history) (identified : Set.InjOn CTransaction.hash known)
    (historyKnown : ∀ other ∈ history, other ∈ known) (isKnown : tx ∈ known)
    (ran : node.resurrect setting rules tx = .ok after) :
    (∃ mempool mapWallet, after = { node with mempool, mapWallet }) ∧
      PoolSpent known history after.mempool := by
  obtain ⟨less, gone, removed, exact, removal⟩ := spent.exact.remove tx [] true
  unfold WalletNode.resurrect at ran
  simp only [removed, ofPool, bind, Except.bind, pure, Except.pure] at ran
  split at ran
  · cases ran
    exact ⟨⟨_, _, rfl⟩, spent.mono exact fun _ => removal.holds⟩
  · split at ran
    · cases ran
      exact ⟨⟨_, _, rfl⟩, spent.mono exact fun _ => removal.holds⟩
    · rename_i mempool passed
      obtain ⟨mapWallet, rfl⟩ := eq_of_syncWithWallets ran
      have accepted := accepted_of_eq_ok passed
      refine ⟨⟨_, _, rfl⟩, accepted.exact spent.exact, fun other held => ?_, accepted.apart
        spent.exact left once spent.apart identified historyKnown spent.known⟩
      rcases accepted.holds_iff held with before | rfl
      · exact spent.known other before
      · exact isKnown

theorem PoolSpent.resurrectAll {rules : CTransaction → PoolRules} {block : List CTransaction}
    (spent : PoolSpent known history node.mempool) (left : node.pcoinsTip.LeftBy history)
    (once : spending.TakesOnce history) (identified : Set.InjOn CTransaction.hash known)
    (historyKnown : ∀ other ∈ history, other ∈ known) (isKnown : ∀ tx ∈ block, tx ∈ known)
    (ran : WalletNode.resurrectAll setting rules node block = .ok after) :
    (∃ mempool mapWallet, after = { node with mempool, mapWallet }) ∧
      PoolSpent known history after.mempool := by
  induction block generalizing node with
  | nil =>
      cases ran
      exact ⟨⟨_, _, rfl⟩, spent⟩
  | cons tx rest ih =>
      obtain ⟨own, others⟩ := List.forall_mem_cons.mp isKnown
      obtain ⟨middle, first, ran⟩ := bind_eq_ok.mp ran
      obtain ⟨⟨mempool, mapWallet, rfl⟩, spentMiddle⟩ :=
        spent.resurrect left once identified historyKnown own first
      obtain ⟨⟨mempool, mapWallet, rfl⟩, spentAfter⟩ := ih spentMiddle left others ran
      exact ⟨⟨mempool, mapWallet, rfl⟩, spentAfter⟩

theorem NodeSpent.disconnectTip (spent : NodeSpent setting node)
    (sound : NodeSound setting known node) (identified : Set.InjOn CTransaction.hash known)
    {rules : CTransaction → PoolRules} (ran : node.disconnectTip setting rules = .ok after) :
    NodeSpent setting after := by
  unfold WalletNode.disconnectTip at ran
  split at ran
  · contradiction
  · rename_i hash rest chain
    split at ran
    · rename_i block pindexDelete vtxundo stored found written
      obtain ⟨below, coinbase, others, vtx, more, linkedBelow, undone⟩ :=
        sound.undo hash vtxundo written block stored
      have linked := sound.linked
      rw [chain] at linked
      obtain rfl := linked.unique linkedBelow
      have active : ∀ tx, InActive setting node.chainActive tx ↔
          InActive setting below tx ∨ tx ∈ block.vtx := by
        intro tx
        rw [chain]
        exact inActive_cons more stored
      obtain ⟨⟨fClean, view⟩, disconnected, ran⟩ := bind_eq_ok.mp ran
      rw [ofCheck_eq_ok] at disconnected
      have provided : view.ProvidedBy (InActive setting below) :=
        disconnectBlock_provided vtx (sound.coins.mono fun tx => (active tx).mp) undone disconnected
      obtain ⟨leftBefore, onceBefore, apartBefore, blocks⟩ := spent
      rw [chain, activeTxs_cons more stored] at leftBefore onceBefore apartBefore
      rw [chain, dropLast_cons hash more] at blocks
      have notCoinBase : ∀ tx ∈ others, tx.isCoinBase = false := by
        obtain ⟨first, later, same, notCoinBase⟩ := blocks hash List.mem_cons_self block stored
        rw [vtx] at same
        cases same
        exact notCoinBase
      have left : view.LeftBy (activeTxs setting below) :=
        leftBefore.disconnectBlock onceBefore vtx notCoinBase
          (provided.mono fun tx => mem_activeTxs.mpr) disconnected
      have once := onceBefore.older
      dsimp only at ran
      split at ran
      · contradiction
      · have start : PoolSpent known (activeTxs setting below)
            ({ node with pcoinsTip := view } : WalletNode).mempool :=
          ⟨sound.pool.exact, sound.poolKnown, apartBefore.older⟩
        have isKnown : ∀ tx, InActive setting node.chainActive tx → tx ∈ known :=
          fun tx member => (sound.wallet.settled tx member).isKnown
        have historyKnown : ∀ tx ∈ activeTxs setting below, tx ∈ known :=
          fun tx member => isKnown tx ((active tx).mpr (.inl (mem_activeTxs.mp member)))
        have blockKnown : ∀ tx ∈ block.vtx, tx ∈ known :=
          fun tx member => isKnown tx ((active tx).mpr (.inr member))
        obtain ⟨middle, resurrected, ran⟩ := bind_eq_ok.mp ran
        obtain ⟨⟨mempool, mapWallet, rfl⟩, pool⟩ :=
          start.resurrectAll left once identified historyKnown blockKnown resurrected
        obtain ⟨swept, sweep, ran⟩ := bind_eq_ok.mp ran
        rw [ofPool_eq_ok] at sweep
        obtain ⟨grown, rfl⟩ := eq_of_syncWithWallets ran
        rcases pool.exact.removeCoinbaseSpends view (UInt32.ofNat pindexDelete.nHeight) with
          ⟨less, gone, result, exact, removal⟩ | ⟨failed, _⟩
        · rw [result] at sweep
          cases sweep
          exact ⟨left, once, pool.apart.mono fun _ => removal.holds,
            fun other member => blocks other (List.mem_cons_of_mem _ member)⟩
        · rw [failed] at sweep
          contradiction
    · contradiction

theorem NodeSpent.connectTip (spent : NodeSpent setting node)
    (sound : NodeSound setting known node) (identified : Set.InjOn CTransaction.hash known)
    {nAdjustedTime : Int} {hash : Uint256} (connectable : Connectable setting known node hash)
    (ran : node.connectTip setting nAdjustedTime hash = .ok after) : NodeSpent setting after := by
  unfold WalletNode.connectTip at ran
  split at ran
  · rename_i pindexNew block found stored
    split at ran
    · contradiction
    · rename_i parent
      rw [ne_eq, not_not] at parent
      obtain ⟨⟨view, vtxundo⟩, connected, ran⟩ := bind_eq_ok.mp ran
      rw [ofCheck_eq_ok] at connected
      have behind : setting.env.hashes.getHash block.toCBlockHeader ≠
          setting.env.consensus.hashGenesisBlock := by
        rw [setting.getHash_eq hash block stored]
        exact sound.ne_genesis found parent
      have more : node.chainActive ≠ [] := by
        intro empty
        have linked := sound.linked
        rw [empty] at linked
        exact linked
      obtain ⟨_, isKnown, _, unseen⟩ := connectable block stored
      have fresh : ∀ tx ∈ block.vtx, tx ∉ activeTxs setting node.chainActive := by
        intro tx member active
        obtain ⟨other, inChain, old, oldStored, inside⟩ := mem_activeTxs.mp active
        exact unseen tx member other (List.dropLast_subset _ inChain) old oldStored inside
      have checked := checkBlock_transactions (connectBlock_spec connected).1
      obtain ⟨left, once, shape⟩ := spent.left.connectBlock spent.once identified
        sound.activeKnown isKnown fresh
        (fun tx member => (checkTransaction_spec (checked tx member)).vin_ne_nil) connected behind
      obtain ⟨mempool, txConflicted, removed, exact, kept, _, free⟩ :=
        sound.pool.exact.removeForBlock_members block.vtx []
      simp only [removed, ofPool, bind, Except.bind] at ran
      obtain ⟨middle, conflictsSynced, ran⟩ := bind_eq_ok.mp ran
      obtain ⟨mapWallet, rfl⟩ := eq_of_syncWithWallets conflictsSynced
      obtain ⟨grown, rfl⟩ := eq_of_syncWithWallets ran
      have history := activeTxs_cons more stored
      refine ⟨?_, ?_, ?_, fun other member old oldStored => ?_⟩
      · rw [history]
        exact left
      · rw [history]
        exact once
      · rw [history]
        exact (spent.apart.mono kept).append free
      · rw [dropLast_cons hash more] at member
        rcases List.mem_cons.mp member with rfl | below
        · rw [stored] at oldStored
          cases oldStored
          exact shape
        · exact spent.blocks other below old oldStored
  · contradiction

theorem NodeSpent.step (spent : NodeSpent setting node) (sound : NodeSound setting known node)
    (identified : Set.InjOn CTransaction.hash known) {call : Call}
    (admissible : Admissible setting known node call) (ran : node.step setting call = .ok after) :
    NodeSpent setting after := by
  cases call with
  | acceptBlockHeader call =>
      cases ran
      exact spent.congr rfl rfl rfl
  | acceptToMemoryPool rules tx fLimitFree fRejectAbsurdFee =>
      exact spent.acceptToMemoryPool sound identified ran
  | connectTip nAdjustedTime hash => exact spent.connectTip sound identified admissible ran
  | disconnectTip rules => exact spent.disconnectTip sound identified ran
  | getDepthInMainChain txid =>
      rw [WalletNode.step] at ran
      split at ran
      · cases ran
        exact spent
      · cases ran
        exact spent.congr rfl rfl rfl

theorem nodeSpent_genesis (fSanityCheck : Bool) : NodeSpent setting (genesis setting fSanityCheck)
    where
  left := ⟨nofun, nofun⟩
  once := trivial
  apart := {
    notCoinBase := by
      rintro tx ⟨entry, found, _⟩
      simp [genesis, CTxMemPool.new] at found
    absent := fun _ _ => List.not_mem_nil
    unspent := fun _ _ _ _ => nofun }
  blocks := nofun

theorem Reaches.spent (reached : Reaches setting known node)
    (identified : Set.InjOn CTransaction.hash known) : NodeSpent setting node := by
  induction reached with
  | genesis fSanityCheck => exact nodeSpent_genesis fSanityCheck
  | step before admissible ran ih => exact ih.step (before.sound identified) identified admissible ran

theorem NodeSpent.eq (spent : NodeSpent setting node) (exact : node.mempool.Exact)
    {tx other : CTransaction} {place : COutPoint}
    (present : InActive setting node.chainActive tx ∨ node.mempool.Holds tx)
    (otherPresent : InActive setting node.chainActive other ∨ node.mempool.Holds other)
    (taken : place ∈ tx.spends) (otherTaken : place ∈ other.spends) : tx = other := by
  rcases present with active | held
  · rcases otherPresent with otherActive | otherHeld
    · exact spent.once.eq (mem_activeTxs.mpr active) (mem_activeTxs.mpr otherActive) taken otherTaken
    · exact absurd taken (spent.apart.unspent other otherHeld place otherTaken tx
        (mem_activeTxs.mpr active))
  · rcases otherPresent with otherActive | otherHeld
    · exact absurd otherTaken (spent.apart.unspent tx held place taken other
        (mem_activeTxs.mpr otherActive))
    · exact exact.eq_of_spends held otherHeld (spent.apart.notCoinBase tx held)
        (spent.apart.notCoinBase other otherHeld) taken otherTaken

end WalletNode

open Std Data

/-- What an output is worth to a wallet that can spend its outputs under `isMine`. -/
def CTxOut.spendableValue (isMine : CScript → IsMineType) (txout : CTxOut) : Int :=
  if IsMineFilter.ISMINE_SPENDABLE.accepts (isMine txout.scriptPubKey) then txout.nValue else 0

/-- What `GetDebit` finds under an outpoint. -/
def WalletMap.spendableAt (mapWallet : WalletMap) (isMine : CScript → IsMineType)
    (outpoint : COutPoint) : Int :=
  mapWallet.getDebitOf isMine .ISMINE_SPENDABLE { prevout := outpoint, scriptSig := [], nSequence := 0 }

def CTransaction.outpoints (tx : CTransaction) : List COutPoint :=
  tx.vout.zipIdx.map fun item => { hash := tx.hash, n := UInt32.ofNat item.2 }

namespace WalletNode

/-- The change of a transaction that the wallet watches but cannot spend. -/
def watchOnlyChange (setting : WalletSetting) (context : BalanceContext) (tx : CTransaction) : Int :=
  (tx.vout.map fun txout =>
    if isChange setting context txout && setting.isMine txout.scriptPubKey == .watchOnly then
      txout.nValue
    else 0).sum

variable {setting : WalletSetting} {context : BalanceContext} {node : WalletNode}
  {known : Set CTransaction} {txid : Uint256} {wtx : CWalletTx} {txout : CTxOut}

theorem getCreditOf_spendable (nonnegative : 0 ≤ txout.nValue)
    (bounded : txout.nValue ≤ MAX_MONEY) :
    getCreditOf setting .ISMINE_SPENDABLE txout = some (txout.spendableValue setting.isMine) := by
  have inRange : moneyRange txout.nValue = true := moneyRange_iff.mpr ⟨nonnegative, bounded⟩
  rw [getCreditOf, inRange]
  rfl

theorem spendableValue_bounds (nonnegative : 0 ≤ txout.nValue) :
    0 ≤ txout.spendableValue setting.isMine ∧
      txout.spendableValue setting.isMine ≤ txout.nValue := by
  unfold CTxOut.spendableValue
  split <;> omega

/-- `GetAvailableCredit` adds up what is not spent. -/
theorem sumAvailable_spec {hashTx : Uint256} {nCredit : Int} {items : List (CTxOut × Nat)}
    (nonnegative : ∀ item ∈ items, 0 ≤ item.1.nValue) (start : 0 ≤ nCredit)
    (bounded : nCredit + outputValues (items.map Prod.fst) ≤ MAX_MONEY) :
    node.sumAvailable setting hashTx nCredit items = some (nCredit + (items.map fun item =>
      if node.isSpent setting { hash := hashTx, n := UInt32.ofNat item.2 } then 0
      else item.1.spendableValue setting.isMine).sum) := by
  induction items generalizing nCredit with
  | nil => simp [sumAvailable]
  | cons item rest ih =>
      obtain ⟨txout, i⟩ := item
      obtain ⟨own, others⟩ := List.forall_mem_cons.mp nonnegative
      have restNonnegative : 0 ≤ outputValues (rest.map Prod.fst) := by
        apply List.sum_nonneg
        simp only [List.map_map, List.forall_mem_map]
        exact others
      rw [List.map_cons, outputValues_cons] at bounded
      dsimp only at own bounded
      rw [List.map_cons, List.sum_cons, sumAvailable]
      cases node.isSpent setting { hash := hashTx, n := UInt32.ofNat i } with
      | true =>
          rw [if_pos rfl, zero_add]
          exact ih others start (by omega)
      | false =>
          obtain ⟨low, high⟩ := @spendableValue_bounds setting _ own
          have inRange : moneyRange (nCredit + txout.spendableValue setting.isMine) = true := by
            rw [moneyRange_iff]
            omega
          simp only [Bool.not_false, if_true, getCreditOf_spendable own (by omega), inRange,
            Bool.false_eq_true, if_false]
          rw [ih others (by omega) (by omega), add_assoc]

theorem listOutputs_of_spending {nDebit : Int} (debited : nDebit > 0)
    (items : List (CTxOut × Nat)) :
    ((listOutputs setting context .ISMINE_SPENDABLE nDebit items).1.map COutputEntry.amount).sum -
        ((listOutputs setting context .ISMINE_SPENDABLE nDebit items).2.map
          COutputEntry.amount).sum =
      (items.map fun item => if isChange setting context item.1 then 0
        else item.1.spendableValue setting.isMine - item.1.nValue).sum := by
  induction items with
  | nil => rfl
  | cons item rest ih =>
      obtain ⟨txout, i⟩ := item
      rw [List.map_cons, List.sum_cons, ← ih]
      simp only [listOutputs, debited, if_true, CTxOut.spendableValue]
      split
      · rw [zero_add]
      · split
        · simp only [List.map_cons, List.sum_cons]
          ring
        · simp only [List.map_cons, List.sum_cons]
          ring

/-- The entries of a transaction that only pays to the wallet. -/
theorem listOutputs_of_receiving {nDebit : Int} (free : ¬nDebit > 0)
    (items : List (CTxOut × Nat)) :
    ((listOutputs setting context .ISMINE_SPENDABLE nDebit items).1.map COutputEntry.amount).sum =
        (items.map fun item => item.1.spendableValue setting.isMine).sum ∧
      (listOutputs setting context .ISMINE_SPENDABLE nDebit items).2 = [] := by
  induction items with
  | nil => exact ⟨rfl, rfl⟩
  | cons item rest ih =>
      obtain ⟨txout, i⟩ := item
      obtain ⟨received, sent⟩ := ih
      rw [List.map_cons, List.sum_cons, ← received]
      simp only [listOutputs, free, if_false, sent, CTxOut.spendableValue]
      cases IsMineFilter.ISMINE_SPENDABLE.accepts (setting.isMine txout.scriptPubKey) <;> simp

theorem nValue_of_isChange (change : isChange setting context txout = true) :
    txout.nValue = txout.spendableValue setting.isMine +
      if setting.isMine txout.scriptPubKey == .watchOnly then txout.nValue else 0 := by
  unfold isChange at change
  unfold CTxOut.spendableValue
  split at change
  · cases mine : setting.isMine txout.scriptPubKey with
    | no => contradiction
    | watchOnly => simp [IsMineFilter.accepts, IsMineFilter.ISMINE_SPENDABLE]
    | spendable => simp [IsMineFilter.accepts, IsMineFilter.ISMINE_SPENDABLE]
  · contradiction

theorem sum_sent (tx : CTransaction) :
    (tx.vout.map fun txout => if isChange setting context txout then 0
        else txout.spendableValue setting.isMine - txout.nValue).sum + outputValues tx.vout =
      (tx.vout.map fun txout => txout.spendableValue setting.isMine).sum +
        watchOnlyChange setting context tx := by
  unfold watchOnlyChange
  induction tx.vout with
  | nil => rfl
  | cons txout rest ih =>
      simp only [List.map_cons, List.sum_cons, outputValues_cons]
      cases change : isChange setting context txout with
      | true =>
          have split := nValue_of_isChange change
          simp only [if_true, Bool.true_and]
          omega
      | false =>
          simp only [Bool.false_eq_true, if_false, Bool.false_and]
          omega

theorem map_zipIdx_fst {α β : Type} (items : List α) (f : α → β) :
    (items.zipIdx.map fun item => f item.1) = items.map f := by
  rw [← Function.comp_def, ← List.map_map, List.zipIdx_map_fst]

/-- What a transaction adds to `getbalance '*'`: what it pays to the wallet less what it takes from
it, and the watch-only change of a transaction that takes something. -/
theorem getAmounts_spec (checked : TransactionSound wtx.tx) {nDebit : Int} (nonnegative : 0 ≤ nDebit)
    (debit : node.getDebit setting .ISMINE_SPENDABLE wtx = some nDebit) :
    ∃ listReceived listSent nFee,
      node.getAmounts setting context .ISMINE_SPENDABLE wtx = some (listReceived, listSent, nFee) ∧
      (listReceived.map COutputEntry.amount).sum - (listSent.map COutputEntry.amount).sum - nFee =
        (wtx.tx.vout.map fun txout => txout.spendableValue setting.isMine).sum - nDebit +
          if nDebit > 0 then watchOnlyChange setting context wtx.tx else 0 := by
  by_cases debited : nDebit > 0
  · refine ⟨(listOutputs setting context .ISMINE_SPENDABLE nDebit wtx.tx.vout.zipIdx).1,
      (listOutputs setting context .ISMINE_SPENDABLE nDebit wtx.tx.vout.zipIdx).2,
      nDebit - outputValues wtx.tx.vout, ?_, ?_⟩
    · simp only [getAmounts, debit, bind, Option.bind, if_pos debited, checked.getValueOut,
        Except.toOption, Option.map, pure]
    · rw [listOutputs_of_spending debited,
        map_zipIdx_fst wtx.tx.vout fun txout => if isChange setting context txout then 0
          else txout.spendableValue setting.isMine - txout.nValue, if_pos debited]
      have sent := @sum_sent setting context wtx.tx
      omega
  · obtain ⟨received, sent⟩ := @listOutputs_of_receiving setting context _ debited wtx.tx.vout.zipIdx
    refine ⟨(listOutputs setting context .ISMINE_SPENDABLE nDebit wtx.tx.vout.zipIdx).1, [], 0,
      ?_, ?_⟩
    · simp only [getAmounts, debit, bind, Option.bind, if_neg debited, sent, pure]
    · rw [received, map_zipIdx_fst wtx.tx.vout fun txout => txout.spendableValue setting.isMine,
        if_neg debited]
      simp only [List.map_nil, List.sum_nil]
      omega

/-- `GetDebit` of a transaction of the wallet for what can be spent. -/
theorem getDebit_spendable (sound : WalletSound known node.mapWallet)
    (identified : Set.InjOn CTransaction.hash known) (checked : TransactionSound wtx.tx)
    (funded : wtx.tx.Funded (· ∈ known)) :
    (∀ place ∈ wtx.tx.spends, 0 ≤ node.mapWallet.spendableAt setting.isMine place) ∧
      node.getDebit setting .ISMINE_SPENDABLE wtx =
        some (wtx.tx.spends.map (node.mapWallet.spendableAt setting.isMine)).sum := by
  have inputs : wtx.tx.vin.isEmpty = false := List.isEmpty_eq_false_iff.mpr checked.vin_ne_nil
  have reads : node.getDebit setting .ISMINE_SPENDABLE wtx =
      node.mapWallet.getDebit setting.isMine .ISMINE_SPENDABLE wtx.tx := by
    rw [getDebit, inputs]
    simp only [IsMineFilter.ISMINE_SPENDABLE, Bool.false_eq_true, if_false, if_true]
    cases node.mapWallet.getDebit setting.isMine { watchOnly := false, spendable := true } wtx.tx
    · rfl
    · simp
  rw [reads]
  cases isCoinBase : wtx.tx.isCoinBase with
  | true =>
      rw [CTransaction.spends_of_coinBase isCoinBase, getDebit_coinBase sound isCoinBase]
      exact ⟨nofun, rfl⟩
  | false =>
      obtain ⟨each, debit⟩ := getDebit_spec sound identified isCoinBase funded
      rw [CTransaction.spends_of_not_coinBase isCoinBase, debit, List.map_map]
      exact ⟨List.forall_mem_map.mpr each, rfl⟩

end WalletNode

end Lycancoin
