import Lycancoin.Data.KeyedTotal
import Lycancoin.Wallet.BalanceSpec

namespace Lycancoin

open Std Data

namespace WalletNode

variable {setting : WalletSetting} {context : BalanceContext} {node : WalletNode}
  {known : Set CTransaction} {txid : Uint256} {wtx : CWalletTx}

theorem NodeSound.present (sound : NodeSound setting known node)
    (identified : Set.InjOn CTransaction.hash known) (found : node.mapWallet[txid]? = some wtx)
    (depth : 0 ≤ node.depth setting wtx) :
    InActive setting node.chainActive wtx.tx ∨ node.mempool.Holds wtx.tx := by
  by_cases active : InActive setting node.chainActive wtx.tx
  · exact .inl active
  · right
    have outside : ∀ hash ∈ node.chainActive, ∀ block,
        setting.readBlockFromDisk hash = some block → wtx.tx ∉ block.vtx := by
      intro hash member block stored inside
      rcases mem_dropLast_or_genesis sound.wallet.last member with above | rfl
      · exact active ⟨hash, above, block, stored, inside⟩
      · rw [setting.genesis] at stored
        cases stored
        exact (sound.wallet.entries txid wtx found).notGenesis (List.mem_singleton.mp inside)
    have known := (sound.depth identified found).2 outside
    rw [WalletNode.depth, known] at depth
    split at depth
    · rename_i inPool
      rw [ExtTreeMap.contains_eq_isSome_getElem?, Option.isSome_iff_exists] at inPool
      obtain ⟨entry, held⟩ := inPool
      have hash := sound.pool.exact.hash_eq _ _ held
      have same : entry.tx = wtx.tx := identified (sound.poolKnown _ ⟨entry, hash ▸ held, rfl⟩)
        (sound.wallet.sound.known txid wtx found) hash
      exact ⟨entry, held, same⟩
    · contradiction

theorem NodeSound.accounted (sound : NodeSound setting known node) {tx : CTransaction}
    (present : InActive setting node.chainActive tx ∨ node.mempool.Holds tx) :
    Accounted setting.isMine known node.mapWallet tx :=
  present.elim (sound.wallet.settled tx) fun held => (sound.pool.settled tx held).1

theorem trustsInputs_isSome (sound : WalletSound known node.mapWallet)
    (identified : Set.InjOn CTransaction.hash known) {view : UtxoView} {vin : List CTxIn}
    (provided : view.ProvidedBy (· ∈ known))
    (available : ∀ txin ∈ vin, ∃ txout, view.output txin.prevout = some txout) :
    ∃ trusts, node.trustsInputs setting vin = some trusts := by
  induction vin with
  | nil => exact ⟨true, rfl⟩
  | cons txin rest ih =>
      obtain ⟨⟨txout, shown⟩, others⟩ := List.forall_mem_cons.mp available
      obtain ⟨trusts, ran⟩ := ih others
      unfold trustsInputs
      cases found : node.mapWallet[txin.prevout.hash]? with
      | none => exact ⟨false, rfl⟩
      | some parent =>
          obtain ⟨maker, isKnown, hash, place⟩ := provided _ _ shown
          have same : parent.tx = maker := identified (sound.known _ _ found) isKnown
            ((sound.hash_eq _ _ found).trans hash.symm)
          simp only [same, place]
          split
          · exact ⟨false, rfl⟩
          · exact ⟨trusts, ran⟩

/-- `GetDebit` does not throw for a transaction of the chain or the pool. -/
theorem getDebit_isSome (sound : WalletSound known node.mapWallet)
    (identified : Set.InjOn CTransaction.hash known) (funded : wtx.tx.Funded (· ∈ known)) :
    ∃ nDebit, node.getDebit setting .ISMINE_ALL wtx = some nDebit ∧
      (wtx.tx.isCoinBase = true → nDebit = 0) := by
  unfold WalletNode.getDebit
  split
  · exact ⟨0, rfl, fun _ => rfl⟩
  · cases isCoinBase : wtx.tx.isCoinBase with
    | true =>
        simp only [IsMineFilter.ISMINE_ALL, if_true, getDebit_coinBase sound isCoinBase]
        exact ⟨0, rfl, fun _ => rfl⟩
    | false =>
        simp only [IsMineFilter.ISMINE_ALL, if_true,
          (getDebit_spec sound identified isCoinBase funded).2]
        exact ⟨_, rfl, nofun⟩

theorem NodeSound.isTrusted (sound : NodeSound setting known node)
    (identified : Set.InjOn CTransaction.hash known) (found : node.mapWallet[txid]? = some wtx) :
    ∃ fTrusted, node.isTrusted setting context wtx = some fTrusted ∧
      (fTrusted = true → 0 ≤ node.depth setting wtx) := by
  unfold WalletNode.isTrusted
  split
  · exact ⟨false, rfl, nofun⟩
  · dsimp only
    split
    · exact ⟨true, rfl, fun _ => by omega⟩
    · split
      · exact ⟨false, rfl, nofun⟩
      · split
        · exact ⟨false, rfl, nofun⟩
        · rename_i atLeast
          have depth : 0 ≤ node.depth setting wtx := Int.not_lt.mp (by assumption)
          have accounted := sound.accounted (sound.present identified found depth)
          obtain ⟨nDebit, debit, ofCoinBase⟩ :=
            @getDebit_isSome setting _ _ _ sound.wallet.sound identified accounted.funded
          rw [debit]
          dsimp only
          split
          · exact ⟨false, rfl, nofun⟩
          · rename_i debited
            cases isCoinBase : wtx.tx.isCoinBase with
            | true => simp [ofCoinBase isCoinBase] at debited
            | false =>
                obtain ⟨view, nSpendHeight, nValueIn, provided, values⟩ :=
                  accounted.funded isCoinBase
                obtain ⟨trusts, ran⟩ := @trustsInputs_isSome setting _ _ sound.wallet.sound
                  identified _ _ provided (exists_output_of_checkInputValues values)
                exact ⟨trusts, ran, fun _ => depth⟩

/-! The wallet as flows between outpoints. -/

section Counting

variable (setting context node)

/-- A transaction that is trusted and mature. -/
def isCounted (wtx : CWalletTx) : Bool :=
  node.isTrusted setting context wtx == some true &&
    !decide (node.getBlocksToMaturity setting wtx > 0)

/-- The transactions of the wallet that are trusted and mature. -/
def counted : Finset Uint256 :=
  node.mapWallet.keys.toFinset.filter fun txid =>
    node.mapWallet[txid]?.any (node.isCounted setting context)

def outputsOf (txid : Uint256) : Finset COutPoint :=
  node.mapWallet[txid]?.elim ∅ fun wtx => wtx.tx.outpoints.toFinset

def inputsOf (txid : Uint256) : Finset COutPoint :=
  node.mapWallet[txid]?.elim ∅ fun wtx => wtx.tx.spends.toFinset

/-- The watch-only change of a transaction that takes something from the wallet. -/
def watchOnlyChangeOf (txid : Uint256) : Int :=
  node.mapWallet[txid]?.elim 0 fun wtx =>
    if wtx.tx.spends.any fun place => decide (0 < node.mapWallet.spendableAt setting.isMine place)
    then watchOnlyChange setting context wtx.tx
    else 0

/-- Outputs of counted transactions that are spent, but not by counted transactions. -/
def spentByOthers : Finset COutPoint :=
  ((node.counted setting context).biUnion node.outputsOf).filter (fun place =>
    node.isSpent setting place = true) \ (node.counted setting context).biUnion node.inputsOf

/-- Inputs of counted transactions that are not outputs of counted transactions. -/
def takenFromOthers : Finset COutPoint :=
  (node.counted setting context).biUnion node.inputsOf \
    (node.counted setting context).biUnion node.outputsOf

end Counting

/-- What a counted transaction adds to `getbalance '*'`. -/
def flowOf (setting : WalletSetting) (context : BalanceContext) (node : WalletNode)
    (wtx : CWalletTx) : Int :=
  (wtx.tx.vout.map fun txout => txout.spendableValue setting.isMine).sum -
    (wtx.tx.spends.map (node.mapWallet.spendableAt setting.isMine)).sum +
    if (wtx.tx.spends.any fun place =>
      decide (0 < node.mapWallet.spendableAt setting.isMine place)) = true
    then watchOnlyChange setting context wtx.tx
    else 0

/-- What a counted transaction adds to `GetBalance`. -/
def unspentOf (setting : WalletSetting) (node : WalletNode) (wtx : CWalletTx) : Int :=
  (wtx.tx.vout.zipIdx.map fun item =>
    if node.isSpent setting { hash := wtx.tx.hash, n := UInt32.ofNat item.2 } then 0
    else item.1.spendableValue setting.isMine).sum

theorem isCounted_of_trusted {fTrusted : Bool}
    (trusted : node.isTrusted setting context wtx = some fTrusted) :
    node.isCounted setting context wtx =
      (fTrusted && !decide (node.getBlocksToMaturity setting wtx > 0)) := by
  rw [isCounted, trusted]
  cases fTrusted <;> rfl

theorem NodeSound.counted_present (sound : NodeSound setting known node)
    (identified : Set.InjOn CTransaction.hash known) (found : node.mapWallet[txid]? = some wtx)
    (isCounted : node.isCounted setting context wtx = true) :
    0 ≤ node.depth setting wtx ∧
      (InActive setting node.chainActive wtx.tx ∨ node.mempool.Holds wtx.tx) := by
  obtain ⟨fTrusted, trusted, depth⟩ := @NodeSound.isTrusted _ context _ _ _ _ sound identified found
  rw [isCounted_of_trusted trusted, Bool.and_eq_true] at isCounted
  exact ⟨depth isCounted.1, sound.present identified found (depth isCounted.1)⟩

theorem NodeSound.getAmounts (sound : NodeSound setting known node)
    (identified : Set.InjOn CTransaction.hash known) (found : node.mapWallet[txid]? = some wtx)
    (isCounted : node.isCounted setting context wtx = true) :
    ∃ listReceived listSent nFee,
      node.getAmounts setting context .ISMINE_SPENDABLE wtx = some (listReceived, listSent, nFee) ∧
      (listReceived.map COutputEntry.amount).sum - (listSent.map COutputEntry.amount).sum - nFee =
        node.flowOf setting context wtx := by
  have accounted := sound.accounted (sound.counted_present identified found isCounted).2
  have checked := checkTransaction_spec accounted.checked
  obtain ⟨each, debit⟩ :=
    @getDebit_spendable setting _ _ _ sound.wallet.sound identified checked accounted.funded
  have nonnegative := List.forall_mem_map.mpr each
  obtain ⟨listReceived, listSent, nFee, amounts, sum⟩ :=
    @getAmounts_spec _ context _ _ checked _ (List.sum_nonneg nonnegative) debit
  refine ⟨listReceived, listSent, nFee, amounts, ?_⟩
  rw [sum, flowOf]
  congr 1
  simp only [gt_iff_lt, sum_pos_iff nonnegative, List.mem_map, exists_exists_and_eq_and,
    List.any_eq_true, decide_eq_true_eq]

theorem NodeSound.sumAmounts (sound : NodeSound setting known node)
    (identified : Set.InjOn CTransaction.hash known) {items : List (Uint256 × CWalletTx)}
    (found : ∀ item ∈ items, node.mapWallet[item.1]? = some item.2) (nBalance : Int) :
    node.sumAmounts setting context 0 .ISMINE_SPENDABLE nBalance items =
      some (nBalance + (items.map fun item => if node.isCounted setting context item.2 then
        node.flowOf setting context item.2 else 0).sum) := by
  induction items generalizing nBalance with
  | nil => simp [WalletNode.sumAmounts]
  | cons item rest ih =>
      obtain ⟨txid, wtx⟩ := item
      obtain ⟨own, others⟩ := List.forall_mem_cons.mp found
      obtain ⟨fTrusted, trusted, depth⟩ :=
        @NodeSound.isTrusted _ context _ _ _ _ sound identified own
      have counts := isCounted_of_trusted trusted
      rw [List.map_cons, List.sum_cons, WalletNode.sumAmounts, trusted]
      dsimp only
      cases isCounted : node.isCounted setting context wtx with
      | false =>
          rw [isCounted] at counts
          have skips : (!fTrusted || decide (node.getBlocksToMaturity setting wtx > 0)) = true := by
            rw [← Bool.not_eq_false', Bool.not_or, Bool.not_not]
            exact counts.symm
          rw [if_pos skips, if_neg Bool.false_ne_true, zero_add]
          exact ih others nBalance
      | true =>
          rw [isCounted] at counts
          have takes : (!fTrusted || decide (node.getBlocksToMaturity setting wtx > 0)) = false := by
            rw [← Bool.not_eq_true', Bool.not_or, Bool.not_not]
            exact counts.symm
          obtain ⟨listReceived, listSent, nFee, amounts, sum⟩ :=
            sound.getAmounts identified own isCounted
          have deep := (sound.counted_present identified own isCounted).1
          simp only [takes, Bool.false_eq_true, if_false, if_true, amounts, ge_iff_le, if_pos deep]
          rw [ih others, ← sum]
          congr 1
          ring

theorem NodeSound.sumCredits (sound : NodeSound setting known node)
    (identified : Set.InjOn CTransaction.hash known) {items : List (Uint256 × CWalletTx)}
    (found : ∀ item ∈ items, node.mapWallet[item.1]? = some item.2) (nTotal : Int) :
    node.sumCredits setting context nTotal items =
      some (nTotal + (items.map fun item => if node.isCounted setting context item.2 then
        node.unspentOf setting item.2 else 0).sum) := by
  induction items generalizing nTotal with
  | nil => simp [WalletNode.sumCredits]
  | cons item rest ih =>
      obtain ⟨txid, wtx⟩ := item
      obtain ⟨own, others⟩ := List.forall_mem_cons.mp found
      obtain ⟨fTrusted, trusted, depth⟩ :=
        @NodeSound.isTrusted _ context _ _ _ _ sound identified own
      rw [List.map_cons, List.sum_cons, WalletNode.sumCredits, trusted,
        isCounted_of_trusted trusted]
      dsimp only
      cases fTrusted with
      | false =>
          rw [if_neg Bool.false_ne_true, Bool.false_and, if_neg Bool.false_ne_true, zero_add]
          exact ih others nTotal
      | true =>
          have checked := checkTransaction_spec (sound.wallet.sound.checked txid wtx own)
          have credit : node.getAvailableCredit setting wtx =
              some (if (!decide (node.getBlocksToMaturity setting wtx > 0)) = true then
                node.unspentOf setting wtx else 0) := by
            have available := @sumAvailable_spec setting node wtx.tx.hash 0 wtx.tx.vout.zipIdx
              (fun item member => (checked.values _ (List.fst_mem_of_mem_zipIdx member)).1) le_rfl
              (by rw [List.zipIdx_map_fst, zero_add]; exact checked.total.2)
            rw [zero_add] at available
            rw [getAvailableCredit, available]
            unfold getBlocksToMaturity
            cases wtx.tx.isCoinBase with
            | false => rfl
            | true =>
                simp only [Bool.true_and, Bool.not_true, Bool.false_eq_true, if_false]
                cases decide (max 0 (COINBASE_MATURITY + 15 - node.depth setting wtx) > 0) <;> rfl
          simp only [if_true, credit, Bool.true_and]
          rw [ih others, add_assoc]

/-! Sums over transactions as sums over outpoints. -/

theorem toNat_of_mem_zipIdx {tx : CTransaction} (checked : checkTransaction tx = .ok ())
    {item : CTxOut × Nat} (member : item ∈ tx.vout.zipIdx) :
    (UInt32.ofNat item.2).toNat = item.2 ∧ tx.vout[item.2]? = some item.1 := by
  have stored := List.mem_zipIdx_iff_getElem?.mp member
  have within := (List.getElem?_eq_some_iff.mp stored).1
  have short := checkTransaction_length_lt checked
  have size : UInt32.size = 4294967296 := rfl
  exact ⟨UInt32.toNat_ofNat_of_lt' (by omega), stored⟩

theorem nodup_outpoints {tx : CTransaction} (checked : checkTransaction tx = .ok ()) :
    tx.outpoints.Nodup := by
  have distinct : tx.vout.zipIdx.Nodup := by
    apply List.Nodup.of_map Prod.snd
    rw [List.zipIdx_map_snd]
    exact List.nodup_range'
  refine distinct.map_on fun item member other otherMember same => ?_
  obtain ⟨position, stored⟩ := toNat_of_mem_zipIdx checked member
  obtain ⟨otherPosition, otherStored⟩ := toNat_of_mem_zipIdx checked otherMember
  have index : item.2 = other.2 := by
    have places := congrArg (fun place => place.n.toNat) same
    dsimp only at places
    rwa [position, otherPosition] at places
  rw [index, otherStored] at stored
  exact Prod.ext (Option.some.inj stored).symm index

theorem nodup_spends {tx : CTransaction} (checked : TransactionSound tx) : tx.spends.Nodup := by
  cases isCoinBase : tx.isCoinBase with
  | true => simp [CTransaction.spends_of_coinBase isCoinBase]
  | false =>
      rw [CTransaction.spends_of_not_coinBase isCoinBase]
      exact checked.distinct

theorem sum_outputsOf (sound : WalletSound known node.mapWallet)
    (found : node.mapWallet[txid]? = some wtx) (weight : COutPoint → Int) :
    ∑ place ∈ node.outputsOf txid, weight place =
      (wtx.tx.vout.zipIdx.map fun item =>
        weight { hash := wtx.tx.hash, n := UInt32.ofNat item.2 }).sum := by
  rw [outputsOf, found, Option.elim_some,
    List.sum_toFinset _ (nodup_outpoints (sound.checked txid wtx found)), CTransaction.outpoints,
    List.map_map]
  rfl

theorem spendableAt_output (sound : WalletSound known node.mapWallet)
    (found : node.mapWallet[txid]? = some wtx) {item : CTxOut × Nat}
    (member : item ∈ wtx.tx.vout.zipIdx) :
    node.mapWallet.spendableAt setting.isMine
      { hash := wtx.tx.hash, n := UInt32.ofNat item.2 } =
      item.1.spendableValue setting.isMine := by
  obtain ⟨position, stored⟩ := toNat_of_mem_zipIdx (sound.checked txid wtx found) member
  have own : node.mapWallet[wtx.tx.hash]? = some wtx := by rw [sound.hash_eq txid wtx found, found]
  refine getDebitOf_eq own ?_
  dsimp only
  rw [position, stored]

theorem sum_spendable_outputsOf (sound : WalletSound known node.mapWallet)
    (found : node.mapWallet[txid]? = some wtx) :
    ∑ place ∈ node.outputsOf txid, node.mapWallet.spendableAt setting.isMine place =
      (wtx.tx.vout.map fun txout => txout.spendableValue setting.isMine).sum := by
  rw [sum_outputsOf sound found, ← map_zipIdx_fst wtx.tx.vout]
  exact congrArg List.sum (List.map_congr_left fun item => spendableAt_output sound found)

theorem sum_unspent_outputsOf (sound : WalletSound known node.mapWallet)
    (found : node.mapWallet[txid]? = some wtx) :
    ∑ place ∈ node.outputsOf txid, (if ¬node.isSpent setting place = true then
        node.mapWallet.spendableAt setting.isMine place else 0) =
      node.unspentOf setting wtx := by
  rw [sum_outputsOf sound found, unspentOf]
  refine congrArg List.sum (List.map_congr_left fun item member => ?_)
  rw [spendableAt_output sound found member, ite_not]

theorem sum_spendable_inputsOf (sound : WalletSound known node.mapWallet)
    (found : node.mapWallet[txid]? = some wtx) :
    ∑ place ∈ node.inputsOf txid, node.mapWallet.spendableAt setting.isMine place =
      (wtx.tx.spends.map (node.mapWallet.spendableAt setting.isMine)).sum := by
  rw [inputsOf, found, Option.elim_some, List.sum_toFinset _
    (nodup_spends (checkTransaction_spec (sound.checked txid wtx found)))]

theorem flowOf_eq (sound : WalletSound known node.mapWallet)
    (found : node.mapWallet[txid]? = some wtx) :
    node.flowOf setting context wtx =
      ∑ place ∈ node.outputsOf txid, node.mapWallet.spendableAt setting.isMine place -
        ∑ place ∈ node.inputsOf txid, node.mapWallet.spendableAt setting.isMine place +
        node.watchOnlyChangeOf setting context txid := by
  rw [sum_spendable_outputsOf sound found, sum_spendable_inputsOf sound found, watchOnlyChangeOf,
    found]
  rfl

theorem mem_counted : txid ∈ node.counted setting context ↔
    ∃ wtx, node.mapWallet[txid]? = some wtx ∧ node.isCounted setting context wtx = true := by
  rw [counted, Finset.mem_filter, List.mem_toFinset, ExtTreeMap.mem_keys, Option.any_eq_true,
    and_iff_right_iff_imp]
  rintro ⟨wtx, found, _⟩
  exact ExtTreeMap.mem_iff_isSome_getElem?.mpr (by rw [found]; rfl)

theorem sum_counted (weight : CWalletTx → Int) (weightOf : Uint256 → Int)
    (same : ∀ (txid : Uint256) (wtx : CWalletTx), node.mapWallet[txid]? = some wtx →
      weight wtx = weightOf txid) :
    (node.mapWallet.toList.map fun item =>
      if node.isCounted setting context item.2 = true then weight item.2 else 0).sum =
      ∑ txid ∈ node.counted setting context, weightOf txid := by
  have total := @KeyedTotal.sum_toList _ _ _ _ _ _
    (fun wtx => if node.isCounted setting context wtx = true then weight wtx else 0) node.mapWallet
  rw [total, KeyedTotal.total, counted, Finset.sum_filter]
  refine Finset.sum_congr rfl fun txid member => ?_
  rw [List.mem_toFinset, ExtTreeMap.mem_keys, ExtTreeMap.mem_iff_isSome_getElem?,
    Option.isSome_iff_exists] at member
  obtain ⟨wtx, found⟩ := member
  rw [found, Option.elim_some, Option.any_some, same txid wtx found]

/-! What is counted makes and takes outpoints of its own. -/

theorem mem_inputsOf (found : node.mapWallet[txid]? = some wtx) {place : COutPoint} :
    place ∈ node.inputsOf txid ↔ place ∈ wtx.tx.spends := by
  rw [inputsOf, found, Option.elim_some, List.mem_toFinset]

theorem hash_of_mem_outputsOf (sound : WalletSound known node.mapWallet) {place : COutPoint}
    (member : place ∈ node.outputsOf txid) : place.hash = txid := by
  unfold outputsOf at member
  cases found : node.mapWallet[txid]? with
  | none => simp [found] at member
  | some wtx =>
      rw [found, Option.elim_some, List.mem_toFinset] at member
      obtain ⟨item, _, rfl⟩ := List.mem_map.mp member
      exact sound.hash_eq txid wtx found

theorem outputsOf_apart (sound : WalletSound known node.mapWallet) (txids : Set Uint256) :
    txids.PairwiseDisjoint node.outputsOf := by
  intro txid _ other _ different
  refine Finset.disjoint_left.mpr fun place member otherMember => different ?_
  rw [← hash_of_mem_outputsOf sound member, hash_of_mem_outputsOf sound otherMember]

theorem NodeSound.inputsOf_apart (sound : NodeSound setting known node)
    (identified : Set.InjOn CTransaction.hash known) (spent : NodeSpent setting node) :
    (node.counted setting context : Set Uint256).PairwiseDisjoint node.inputsOf := by
  intro txid member other otherMember different
  obtain ⟨wtx, found, counts⟩ := mem_counted.mp member
  obtain ⟨otherWtx, otherFound, otherCounts⟩ := mem_counted.mp otherMember
  refine Finset.disjoint_left.mpr fun place taken otherTaken => different ?_
  have same : wtx.tx = otherWtx.tx := spent.eq sound.pool.exact
    (sound.counted_present identified found counts).2
    (sound.counted_present identified otherFound otherCounts).2
    ((mem_inputsOf found).mp taken) ((mem_inputsOf otherFound).mp otherTaken)
  rw [← sound.wallet.sound.hash_eq txid wtx found, same,
    sound.wallet.sound.hash_eq other otherWtx otherFound]

theorem NodeSound.isSpent_inputsOf (sound : NodeSound setting known node)
    (identified : Set.InjOn CTransaction.hash known) (member : txid ∈ node.counted setting context)
    {place : COutPoint} (taken : place ∈ node.inputsOf txid) :
    node.isSpent setting place = true := by
  obtain ⟨wtx, found, counts⟩ := mem_counted.mp member
  have spends := (mem_inputsOf found).mp taken
  have noted : (place, txid) ∈ node.mapWallet.mapTxSpends := by
    refine List.mem_flatMap.mpr
      ⟨(txid, wtx), ExtTreeMap.mem_toList_iff_getElem?_eq_some.mpr found, ?_⟩
    cases isCoinBase : wtx.tx.isCoinBase with
    | true => simp [CTransaction.spends_of_coinBase isCoinBase] at spends
    | false =>
        rw [CTransaction.spends_of_not_coinBase isCoinBase] at spends
        obtain ⟨txin, inside, rfl⟩ := List.mem_map.mp spends
        rw [CWalletTx.addToSpends, isCoinBase]
        exact List.mem_map.mpr ⟨txin, inside, rfl⟩
  refine List.any_eq_true.mpr ⟨(place, txid), noted, ?_⟩
  rw [beq_self_eq_true, Bool.true_and, found, Option.any_some, decide_eq_true_eq]
  exact (sound.counted_present identified found counts).1

/-- What `getbalance '*'` with no minimum depth and `GetBalance` return, and by what they differ. -/
theorem NodeSound.balances (sound : NodeSound setting known node)
    (identified : Set.InjOn CTransaction.hash known) (spent : NodeSpent setting node) :
    ∃ total balance,
      node.getBalanceOfAll setting context 0 .ISMINE_SPENDABLE = some total ∧
      node.getBalance setting context = some balance ∧
      total - balance =
        ∑ place ∈ node.spentByOthers setting context,
          node.mapWallet.spendableAt setting.isMine place -
        ∑ place ∈ node.takenFromOthers setting context,
          node.mapWallet.spendableAt setting.isMine place +
        ∑ txid ∈ node.counted setting context, node.watchOnlyChangeOf setting context txid := by
  have found : ∀ item ∈ node.mapWallet.toList, node.mapWallet[item.1]? = some item.2 :=
    fun item => ExtTreeMap.mem_toList_iff_getElem?_eq_some.mp
  have walletSound := sound.wallet.sound
  refine ⟨_, _, sound.sumAmounts identified found 0, sound.sumCredits identified found 0, ?_⟩
  rw [zero_add, zero_add,
    sum_counted (node.flowOf setting context) _ fun txid wtx found => flowOf_eq walletSound found,
    sum_counted (node.unspentOf setting) _ fun txid wtx found =>
      (sum_unspent_outputsOf walletSound found).symm,
    Finset.sum_add_distrib, ← Finset.sum_biUnion (outputsOf_apart walletSound _),
    ← Finset.sum_filter]
  have flows := @Flow.sum_flows_sub_sum_left _ _ _ (node.mapWallet.spendableAt setting.isMine) _ _
    (node.counted setting context) (fun place => node.isSpent setting place = true) _
    (outputsOf_apart walletSound _) (sound.inputsOf_apart identified spent)
    fun txid member place => sound.isSpent_inputsOf identified member
  rw [spentByOthers, takenFromOthers, ← flows]
  ring

/-- In every state of every run, for every address book and either way to treat unconfirmed change:
`getbalance '*' 0` and `GetBalance` agree exactly when what others have spent of the counted outputs
and the watch-only change make up for what counted transactions have taken from others. -/
theorem getBalanceOfAll_eq_getBalance_iff (setting : WalletSetting) (context : BalanceContext)
    (known : Set CTransaction) (node : WalletNode) (identified : Set.InjOn CTransaction.hash known)
    (reached : Reaches setting known node) :
    ∃ total balance,
      node.getBalanceOfAll setting context 0 .ISMINE_SPENDABLE = some total ∧
      node.getBalance setting context = some balance ∧
      (total = balance ↔
        ∑ place ∈ node.spentByOthers setting context,
            node.mapWallet.spendableAt setting.isMine place +
          ∑ txid ∈ node.counted setting context, node.watchOnlyChangeOf setting context txid =
        ∑ place ∈ node.takenFromOthers setting context,
          node.mapWallet.spendableAt setting.isMine place) := by
  obtain ⟨total, balance, first, second, difference⟩ :=
    @NodeSound.balances _ context _ _ (reached.sound identified) identified
      (reached.spent identified)
  refine ⟨total, balance, first, second, ?_⟩
  constructor
  · intro same
    omega
  · intro even
    omega

/-- A clock, and an empty address book. -/
def plainContext : BalanceContext where
  nAdjustedTime := 1391489000
  bSpendZeroConfChange := true
  extractDestination := fun _ => none
  mapAddressBook := fun _ => none

/-- At the end of the sample run the wallet has spent a coinbase that is not yet mature to it. -/
theorem getBalanceOfAll_ne_getBalance_plain :
    Set.InjOn CTransaction.hash { tx | tx ∈ plainTransactions 500 } ∧
    ∃ node, Reaches (plainSetting 500) { tx | tx ∈ plainTransactions 500 } node ∧
      node.getBalanceOfAll (plainSetting 500) plainContext 0 .ISMINE_SPENDABLE = some (-500) ∧
      node.getBalance (plainSetting 500) plainContext = some 0 := by
  obtain ⟨node, reached, holds⟩ := @plainRun_of_any 500
    (fun node =>
      node.getBalanceOfAll (plainSetting 500) plainContext 0 .ISMINE_SPENDABLE == some (-500) &&
      node.getBalance (plainSetting 500) plainContext == some 0) (by decide +kernel)
  rw [Bool.and_eq_true, beq_iff_eq, beq_iff_eq] at holds
  exact ⟨identified_of_apart (by decide), node, reached, holds⟩

/-- The first coinbase has matured when the wallet spends it, and 300 come back. -/
def maturedSpend : CTransaction :=
  { sampleSpend 99 1 300 with
    vout := [{ nValue := 300, scriptPubKey := ownScript }, { nValue := 150, scriptPubKey := [] }] }

def maturedChain : List CBlock :=
  (List.range 30).map (fun n => plainBlock 500 (n + 1) [] ⟨BitVec.ofNat 256 (n + 1)⟩) ++
    [plainBlock 500 31 [maturedSpend] 192]

/-- What is counted in this wallet makes up for what it has taken from others. -/
theorem getBalanceOfAll_eq_getBalance_iff_matured :
    ∃ node, Reaches (settingOf maturedChain)
        { tx | tx ∈ maturedChain.flatMap fun block => block.vtx } node ∧
      node.getBalance (settingOf maturedChain) plainContext = some 300 ∧
      ∑ place ∈ node.spentByOthers (settingOf maturedChain) plainContext,
          node.mapWallet.spendableAt (settingOf maturedChain).isMine place +
        ∑ txid ∈ node.counted (settingOf maturedChain) plainContext,
          node.watchOnlyChangeOf (settingOf maturedChain) plainContext txid =
      ∑ place ∈ node.takenFromOthers (settingOf maturedChain) plainContext,
        node.mapWallet.spendableAt (settingOf maturedChain).isMine place := by
  obtain ⟨node, reached, holds⟩ := @runOf_of_any maturedChain
    (fun node =>
      node.getBalanceOfAll (settingOf maturedChain) plainContext 0 .ISMINE_SPENDABLE ==
          some 300 &&
        node.getBalance (settingOf maturedChain) plainContext == some 300) (by decide +kernel)
  rw [Bool.and_eq_true, beq_iff_eq, beq_iff_eq] at holds
  obtain ⟨total, balance, first, second, agree⟩ := getBalanceOfAll_eq_getBalance_iff
    (settingOf maturedChain) plainContext _ node (identified_of_apart (by decide)) reached
  cases holds.1.symm.trans first
  cases holds.2.symm.trans second
  exact ⟨node, reached, holds.2, agree.mp rfl⟩

end WalletNode

end Lycancoin
