import Lycancoin.Wallet.CreateInputs
import Lycancoin.Wallet.WalletChain

namespace Lycancoin

open Data

/-- The transactions of the wallet are held under their own hashes, and have few enough outputs for
an index of 32 bits. -/
structure WalletMap.Keyed (mapWallet : WalletMap) : Prop where
  hash_eq : ∀ (wtxid : Uint256) (wtx : CWalletTx), mapWallet[wtxid]? = some wtx → wtx.tx.hash = wtxid
  vout_lt : ∀ (wtxid : Uint256) (wtx : CWalletTx), mapWallet[wtxid]? = some wtx →
    wtx.tx.vout.length < 2 ^ 32

def coinOutpoint (coin : Uint256 × Nat) : COutPoint := { hash := coin.1, n := UInt32.ofNat coin.2 }

/-- What the wallet's outputs behind some inputs are worth. -/
def CoinView.inputTotal (view : CoinView Uint256) (vin : List CTxIn) : Int :=
  (vin.map fun txin => view.nValue txin.prevout.hash txin.prevout.n.toNat).sum

theorem mapM_eq_ok {ε α β : Type} {f : α → Except ε β} {xs : List α} {ys : List β}
    (run : xs.mapM f = .ok ys) : List.Forall₂ (fun x y => f x = .ok y) xs ys := by
  induction xs generalizing ys with
  | nil =>
      obtain rfl : ys = [] := by simpa [pure, Except.pure] using run.symm
      exact .nil
  | cons x xs ih =>
      rw [List.mapM_cons] at run
      obtain ⟨y, yEq, run⟩ := bind_eq_ok.1 run
      obtain ⟨rest, restEq, run⟩ := bind_eq_ok.1 run
      obtain rfl : y :: rest = ys := by simpa [pure, Except.pure] using run
      exact .cons yEq (ih restEq)

/-- Signing changes nothing but the scripts of the inputs. -/
theorem CreateContext.signInputs_spec {create : CreateContext}
    {sources : List (CTransaction × Nat)} {txNew signedTx : CMutableTransaction}
    (run : create.signInputs sources txNew = .ok signedTx) :
    signedTx.vout = txNew.vout ∧
      signedTx.vin.map CTxIn.prevout = txNew.vin.map CTxIn.prevout := by
  induction sources generalizing txNew with
  | nil =>
      obtain rfl : txNew = signedTx := by simpa [signInputs] using run
      exact ⟨rfl, rfl⟩
  | cons source rest ih =>
      unfold signInputs at run
      split at run
      · simp at run
      · next scriptSig _ =>
        obtain ⟨vout, prevouts⟩ := ih run
        refine ⟨vout, ?_⟩
        rw [prevouts]
        apply List.ext_getElem?
        intro i
        simp only [List.getElem?_map, List.getElem?_modify]
        by_cases same : source.2 = i
        · cases found : txNew.vin[i]? with
          | none => simp
          | some txin => simp [same]
        · simp [same]

namespace WalletNode

variable {setting : WalletSetting} {create : CreateContext} {node : WalletNode}
  {vCoins : List (COutput Uint256)} {vecSend : List CRecipient}

/-- What holds of a transaction that `CreateTransaction` returns. -/
structure Created (setting : WalletSetting) (create : CreateContext) (node : WalletNode)
    (vCoins : List (COutput Uint256)) (vecSend : List CRecipient)
    (created : CreatedTransaction) : Prop where
  nodup : (created.txNew.vin.map CTxIn.prevout).Nodup
  available : ∀ txin ∈ created.txNew.vin, ∃ output ∈ vCoins,
    output.fSpendable = true ∧ txin.prevout = coinOutpoint output.coin
  balanced : (node.coinView setting).inputTotal created.txNew.vin =
    valueTotal created.txNew.vout + created.nFeeRet
  outputs : ∃ payments nDust nFeeBefore nChange,
    OutputsFor create.policy.minRelayTxFee vecSend nFeeBefore nChange payments
      created.txNew.vout created.nFeeRet created.nChangePosRet nDust ∧
    (flagged vecSend ≠ [] → flaggedTotal vecSend payments =
      amountTotal (flagged vecSend) - created.nFeeRet - nDust ∧
      nChange = (node.coinView setting).inputTotal created.txNew.vin - amountTotal vecSend)
  fee : let nBytes := (CTransaction.ofMutable create.hash created.txNew).getSerializeSize
    create.policy.getMinimumFee nBytes ≤ created.nFeeRet ∨
      (create.policy.fSendFreeTransactions = true ∧ nBytes ≤ MAX_FREE_TRANSACTION_CREATE_SIZE ∧
        create.enoughPriority created.txNew.vin nBytes = true)

structure InputsFor (setting : WalletSetting) (node : WalletNode) (vCoins : List (COutput Uint256))
    (nValueIn : Int) (vin : List CTxIn) : Prop where
  nodup : (vin.map CTxIn.prevout).Nodup
  available : ∀ txin ∈ vin, ∃ output ∈ vCoins,
    output.fSpendable = true ∧ txin.prevout = coinOutpoint output.coin
  total : (node.coinView setting).inputTotal vin = nValueIn

theorem InputsFor.congr {nValueIn : Int} {vin others : List CTxIn}
    (inputs : InputsFor setting node vCoins nValueIn vin)
    (same : others.map CTxIn.prevout = vin.map CTxIn.prevout) :
    InputsFor setting node vCoins nValueIn others := by
  constructor
  · rw [same]
    exact inputs.nodup
  · intro txin member
    have listed : txin.prevout ∈ vin.map CTxIn.prevout := same ▸ List.mem_map_of_mem member
    obtain ⟨other, otherIn, eq⟩ := List.mem_map.1 listed
    obtain ⟨output, outputIn, spendable, prevout⟩ := inputs.available other otherIn
    exact ⟨output, outputIn, spendable, eq.symm.trans prevout⟩
  · rw [← inputs.total]
    have values := congrArg (List.map fun prevout : COutPoint =>
      (node.coinView setting).nValue prevout.hash prevout.n.toNat) same
    simpa [CoinView.inputTotal, Function.comp_def] using congrArg List.sum values

theorem CoinsFor.inputs {nTargetValue nValueIn : Int} {setCoins coins : List (Uint256 × Nat)}
    {vin : List CTxIn} (keyed : node.mapWallet.Keyed)
    (available : Available setting create node vCoins)
    (selected : CoinsFor setting node vCoins nTargetValue setCoins nValueIn)
    (perm : coins.Perm setCoins) (prevouts : vin.map CTxIn.prevout = coins.map coinOutpoint) :
    InputsFor setting node vCoins nValueIn vin := by
  have source : ∀ coin ∈ coins, ∃ output ∈ vCoins,
      output.fSpendable = true ∧ output.coin = coin ∧ coin.2 < 2 ^ 32 := by
    intro coin member
    obtain ⟨output, outputIn, spendable, rfl⟩ := selected.subset coin (perm.mem_iff.1 member)
    obtain ⟨wtx, txout, found, txoutAt, _⟩ := available.held output outputIn
    have bound := (List.getElem?_eq_some_iff.1 txoutAt).1
    have few := keyed.vout_lt output.tx wtx found
    exact ⟨output, outputIn, spendable, rfl, by simp only [COutput.coin]; omega⟩
  constructor
  · rw [prevouts]
    apply List.Nodup.map_on _ (perm.nodup_iff.2 selected.nodup)
    intro coin coinIn other otherIn same
    obtain ⟨_, _, _, _, bound⟩ := source coin coinIn
    obtain ⟨_, _, _, _, otherBound⟩ := source other otherIn
    simp only [coinOutpoint, COutPoint.mk.injEq] at same
    have index := congrArg UInt32.toNat same.2
    simp only [UInt32.toNat_ofNat'] at index
    rw [Nat.mod_eq_of_lt bound, Nat.mod_eq_of_lt otherBound] at index
    exact Prod.ext same.1 index
  · intro txin member
    have listed : txin.prevout ∈ coins.map coinOutpoint := prevouts ▸ List.mem_map_of_mem member
    obtain ⟨coin, coinIn, eq⟩ := List.mem_map.1 listed
    obtain ⟨output, outputIn, spendable, rfl, _⟩ := source coin coinIn
    exact ⟨output, outputIn, spendable, eq.symm⟩
  · have values := congrArg (List.map fun prevout : COutPoint =>
      (node.coinView setting).nValue prevout.hash prevout.n.toNat) prevouts
    rw [selected.total, CoinView.total, ← (perm.map _).sum_eq, CoinView.inputTotal]
    simp only [List.map_map, Function.comp_def] at values
    rw [values]
    congr 1
    apply List.map_congr_left
    intro coin coinIn
    obtain ⟨_, _, _, _, bound⟩ := source coin coinIn
    simp only [coinOutpoint, UInt32.toNat_ofNat']
    rw [Nat.mod_eq_of_lt bound]

theorem addFee_eq_ok {nSubtract : Nat} {nValue nFee result : Int}
    (run : addFee nSubtract nValue nFee = .ok result) :
    result = if nSubtract = 0 then nValue + nFee else nValue := by
  unfold addFee at run
  split at run
  · next none =>
    rw [if_pos none]
    exact (signed_eq_ok.1 run).2
  · next some =>
    rw [if_neg some]
    simpa [pure, Except.pure] using run.symm

theorem walletTx_eq_ok {wtxid : Uint256} {tx : CTransaction} (run : node.walletTx wtxid = .ok tx) :
    ∃ wtx, node.mapWallet[wtxid]? = some wtx ∧ wtx.tx = tx := by
  unfold walletTx at run
  split at run
  · simp at run
  · next wtx found => exact ⟨wtx, found, by simpa using run⟩

theorem judgeFee_spec {txNew : CMutableTransaction} {nFeeRet nChangePosRet : Int}
    {result : RoundResult} (run : judgeFee create txNew nFeeRet nChangePosRet = .ok result) :
    (∃ nFeeNeeded, result = .again nFeeNeeded ∧ nFeeRet < nFeeNeeded ∧
      nFeeNeeded ≤ create.policy.maxTxFee) ∨
    result = .done ⟨txNew, nFeeRet, nChangePosRet⟩ ∧
      (create.policy.getMinimumFee
          (CTransaction.ofMutable create.hash txNew).getSerializeSize ≤ nFeeRet ∨
        (create.policy.fSendFreeTransactions = true ∧
          (CTransaction.ofMutable create.hash txNew).getSerializeSize ≤
            MAX_FREE_TRANSACTION_CREATE_SIZE ∧
          create.enoughPriority txNew.vin
            (CTransaction.ofMutable create.hash txNew).getSerializeSize = true)) := by
  unfold judgeFee at run
  dsimp only at run
  split at run
  · simp at run
  · split at run
    · next free =>
      obtain rfl : _ = result := by simpa using run
      exact Or.inr ⟨rfl, Or.inr free⟩
    · split at run
      · simp at run
      · split at run
        · next enough =>
          obtain rfl : _ = result := by simpa using run
          exact Or.inr ⟨rfl, Or.inl enough⟩
        · next short =>
          obtain rfl : _ = result := by simpa using run
          exact Or.inl ⟨_, rfl, Int.not_le.1 short, create.policy.getMinimumFee_le _⟩

/-- The input that `CreateTransaction` makes of a coin of the wallet. -/
theorem map_prevout_zip {coins : List (Uint256 × Nat)} {sources : List CTransaction}
    (keyed : node.mapWallet.Keyed)
    (found : List.Forall₂ (fun coin source => node.walletTx coin.1 = .ok source) coins sources) :
    ((sources.zip coins).map fun (source, coin) =>
      { prevout := { hash := source.hash, n := UInt32.ofNat coin.2 }
        scriptSig := []
        nSequence := 0xfffffffe : CTxIn }).map CTxIn.prevout = coins.map coinOutpoint := by
  induction found with
  | nil => rfl
  | @cons coin source coins sources found _ ih =>
      obtain ⟨wtx, foundAt, rfl⟩ := walletTx_eq_ok found
      simp only [List.zip_cons_cons, List.map_cons, ih, keyed.hash_eq coin.1 wtx foundAt,
        coinOutpoint]

/-- The recipients that pay the fee pay all of it. -/
theorem payees_flaggedTotal {nFeeRet : Int} {payments : List CTxOut}
    (run : create.payees (flagged vecSend).length nFeeRet true vecSend = .ok payments) :
    flaggedTotal vecSend payments =
      if flagged vecSend = [] then 0 else amountTotal (flagged vecSend) - nFeeRet := by
  have total := (payees_spec run).2
  split
  · next empty =>
    rw [total, empty]
    simp [amountTotal]
  · next nonempty =>
    rw [total, if_pos ⟨rfl, nonempty⟩]
    have whole := Int.mul_tdiv_add_tmod nFeeRet (flagged vecSend).length
    omega

/-- One round keeps the amounts in step: it ends with a sound transaction, or with a larger fee that
the maximum still allows. -/
theorem createRound_spec {nLockTime : UInt32} {random : RoundChoices} {nFeeRet : Int}
    {result : RoundResult} (keyed : node.mapWallet.Keyed)
    (known : node.availableCoins setting create = some vCoins)
    (available : Available setting create node vCoins)
    (amounts : 0 ≤ amountTotal vecSend ∧ amountTotal vecSend ≤ MAX_MONEY)
    (feeRange : 0 ≤ nFeeRet ∧ nFeeRet < 10 ^ 18)
    (run : node.createRound setting create vecSend nLockTime (amountTotal vecSend)
      (flagged vecSend).length random nFeeRet = .ok result) :
    (∃ nFeeNeeded, result = .again nFeeNeeded ∧ nFeeRet < nFeeNeeded ∧
      nFeeNeeded ≤ create.policy.maxTxFee) ∨
    ∃ created, result = .done created ∧ Created setting create node vCoins vecSend created := by
  obtain ⟨nTotalValue, totalEq, run⟩ := bind_eq_ok.1 run
  have totalEq := addFee_eq_ok totalEq
  obtain ⟨payments, paymentsEq, run⟩ := bind_eq_ok.1 run
  have pays := (payees_spec paymentsEq).1
  have flaggedEq := payees_flaggedTotal paymentsEq
  obtain ⟨⟨fSelected, setCoins, nValueIn⟩, selectEq, run⟩ := bind_eq_ok.1 run
  obtain ⟨_, enough, run⟩ := bind_eq_ok.1 run
  have enough : fSelected = true := by simpa using refuseIf_eq_ok.1 enough
  obtain ⟨nRest, restEq, run⟩ := bind_eq_ok.1 run
  obtain ⟨_, rfl⟩ := signed_eq_ok.1 restEq
  obtain ⟨nChange, changeEq, run⟩ := bind_eq_ok.1 run
  have changeEq := addFee_eq_ok changeEq
  obtain ⟨⟨vout, nFeeAfter, nChangePosRet⟩, placeEq, run⟩ := bind_eq_ok.1 run
  obtain ⟨sources, sourcesEq, run⟩ := bind_eq_ok.1 run
  obtain ⟨txNew, signEq, run⟩ := bind_eq_ok.1 run
  -- the coins
  have limit : MAX_MONEY = 495000000000000000 := by decide
  have cent : CENT = 1000000 := rfl
  have targetFits : InInt64 (nTotalValue + CENT) := by
    rw [totalEq]
    split <;> exact ⟨by omega, by omega⟩
  have selected : CoinsFor setting node vCoins nTotalValue setCoins nValueIn :=
    selectCoins_spec known available targetFits selectEq enough
  have reaches := selected.reaches
  have prevouts := map_prevout_zip keyed (mapM_eq_ok sourcesEq)
  have unsigned := selected.inputs keyed available (random.setOrder_perm setCoins) prevouts
  obtain ⟨voutEq, sameInputs⟩ := create.signInputs_spec signEq
  dsimp only at voutEq sameInputs
  have inputs := unsigned.congr sameInputs
  -- the change and the fee
  have changeNonneg : 0 ≤ nChange := by
    rw [changeEq]
    split at totalEq <;> split <;> omega
  obtain ⟨paid, nDust, outputs, paidTotal⟩ := addChange_spec changeNonneg pays placeEq
  have nFeeMore : nFeeRet ≤ nFeeAfter := by
    rcases outputs.change with ⟨_, _, _, fee⟩ | ⟨fee, _⟩ <;> omega
  rcases judgeFee_spec run with ⟨nFeeNeeded, rfl, more, most⟩ | ⟨rfl, fee⟩
  · exact Or.inl ⟨nFeeNeeded, rfl, by omega, most⟩
  · right
    have paidSum := Lycancoin.valueTotal_eq outputs.pays
    have placed := outputs.valueTotal_eq
    have total := inputs.total
    have noDust := outputs.noDust
    have flaggedNone : flagged vecSend = [] → amountTotal (flagged vecSend) = 0 := by
      intro empty
      simp [empty, amountTotal]
    have empty : (flagged vecSend).length = 0 ↔ flagged vecSend = [] := List.length_eq_zero_iff
    simp only [empty] at changeEq
    refine ⟨_, rfl, inputs.nodup, inputs.available, ?_,
      ⟨paid, nDust, nFeeRet, nChange, ?_, ?_⟩, fee⟩
    · dsimp only
      rw [voutEq]
      by_cases none : flagged vecSend = []
      · rw [if_pos none] at flaggedEq changeEq
        have noDust := noDust none
        have flaggedNone := flaggedNone none
        omega
      · rw [if_neg none] at flaggedEq changeEq
        omega
    · rw [voutEq]
      exact outputs
    · intro nonempty
      have fee := outputs.feePaid nonempty
      rw [if_neg nonempty] at flaggedEq changeEq
      dsimp only
      constructor <;> omega

/-- The fee loop goes on only with larger fees up to the maximum, so that it ends; and it ends with a
sound transaction if with any. -/
theorem feeLoop_spec {nLockTime : UInt32} {random : Nat → RoundChoices} {fuel round : Nat}
    {nFeeRet : Int} (keyed : node.mapWallet.Keyed)
    (coins : ∀ vCoins, node.availableCoins setting create = some vCoins →
      Available setting create node vCoins)
    (amounts : 0 ≤ amountTotal vecSend ∧ amountTotal vecSend ≤ MAX_MONEY)
    (feeRange : 0 ≤ nFeeRet ∧ nFeeRet < 10 ^ 18) :
    ((create.policy.maxTxFee - nFeeRet).toNat < fuel →
      (node.feeLoop setting create vecSend nLockTime (amountTotal vecSend)
        (flagged vecSend).length random fuel round nFeeRet).isSome) ∧
    ∀ created, node.feeLoop setting create vecSend nLockTime (amountTotal vecSend)
        (flagged vecSend).length random fuel round nFeeRet = some (.ok created) →
      ∃ vCoins, node.availableCoins setting create = some vCoins ∧
        Created setting create node vCoins vecSend created := by
  induction fuel generalizing round nFeeRet with
  | zero => simp [feeLoop]
  | succ fuel ih =>
      unfold feeLoop
      cases roundEq : node.createRound setting create vecSend nLockTime (amountTotal vecSend)
          (flagged vecSend).length (random round) nFeeRet with
      | error fault => simp
      | ok result =>
          -- a round that ends well has listed the coins
          have listed : ∃ vCoins, node.availableCoins setting create = some vCoins := by
            obtain ⟨_, _, run⟩ := bind_eq_ok.1 roundEq
            obtain ⟨_, _, run⟩ := bind_eq_ok.1 run
            obtain ⟨_, selectEq, _⟩ := bind_eq_ok.1 run
            unfold selectCoins at selectEq
            split at selectEq
            · simp at selectEq
            · next vCoins known => exact ⟨vCoins, known⟩
          obtain ⟨vCoins, known⟩ := listed
          rcases createRound_spec keyed known (coins vCoins known) amounts feeRange roundEq with
            ⟨nFeeNeeded, rfl, more, most⟩ | ⟨created, rfl, sound⟩
          · have below := create.policy.maxTxFee_lt
            have rest := @ih (round + 1) nFeeNeeded ⟨by omega, by omega⟩
            refine ⟨fun enough => rest.1 (by omega), rest.2⟩
          · refine ⟨fun _ => rfl, ?_⟩
            intro other otherEq
            obtain rfl : created = other := by simpa using otherEq
            exact ⟨vCoins, known, sound⟩

/-- **Creation of a transaction.**  The fee loop ends within as many rounds as the maximum fee has
satoshis.  A transaction that it returns spends distinct available coins, pays each recipient what
is due, has no dust, and what goes in is what comes out and the fee. -/
theorem createTransaction_balanced (setting : WalletSetting) (create : CreateContext)
    (node : WalletNode) (vecSend : List CRecipient) (back : Option Nat)
    (random : Nat → RoundChoices)
    (amounts : ∀ recipient ∈ vecSend, 0 ≤ recipient.nAmount ∧ recipient.nAmount ≤ MAX_MONEY)
    (total : amountTotal vecSend ≤ MAX_MONEY) (keyed : node.mapWallet.Keyed)
    (coins : ∀ vCoins, node.availableCoins setting create = some vCoins →
      COutput.total (node.coinView setting) vCoins ≤ MAX_MONEY) :
    (∀ fuel, create.policy.maxTxFee.toNat < fuel →
      (node.createTransaction setting create vecSend back random fuel).isSome) ∧
    ∀ fuel created,
      node.createTransaction setting create vecSend back random fuel = some (.ok created) →
      ∃ vCoins, node.availableCoins setting create = some vCoins ∧
        (created.txNew.vin.map CTxIn.prevout).Nodup ∧
        (∀ txin ∈ created.txNew.vin, ∃ output ∈ vCoins,
          output.fSpendable = true ∧ txin.prevout = coinOutpoint output.coin) ∧
        (node.coinView setting).inputTotal created.txNew.vin =
          valueTotal created.txNew.vout + created.nFeeRet ∧
        (∀ txout ∈ created.txNew.vout, txout.isDust create.policy.minRelayTxFee = false) ∧
        (∃ payments nDust, 0 ≤ nDust ∧
          List.Forall₂ (fun recipient txout => txout.scriptPubKey = recipient.scriptPubKey ∧
            (recipient.fSubtractFeeFromAmount = false → txout.nValue = recipient.nAmount))
            vecSend payments ∧
          (flagged vecSend ≠ [] → flaggedTotal vecSend payments =
            amountTotal (flagged vecSend) - created.nFeeRet - nDust) ∧
          ((created.txNew.vout = payments ∧ created.nChangePosRet = -1 ∧ nDust = 0) ∨
            ∃ change nPos, nPos ≤ payments.length ∧ created.nChangePosRet = nPos ∧
              created.txNew.vout = payments.insertIdx nPos change ∧
              (flagged vecSend ≠ [] → change.nValue =
                (node.coinView setting).inputTotal created.txNew.vin - amountTotal vecSend +
                  nDust) ∧
              (nDust = 0 ∨
                change.nValue = change.getDustThreshold create.policy.minRelayTxFee))) ∧
        (create.policy.getMinimumFee
            (CTransaction.ofMutable create.hash created.txNew).getSerializeSize ≤
            created.nFeeRet ∨
          (create.policy.fSendFreeTransactions = true ∧
            (CTransaction.ofMutable create.hash created.txNew).getSerializeSize ≤
              MAX_FREE_TRANSACTION_CREATE_SIZE ∧
            create.enoughPriority created.txNew.vin
              (CTransaction.ofMutable create.hash created.txNew).getSerializeSize = true)) := by
  have nonneg : 0 ≤ amountTotal vecSend := by
    apply List.sum_nonneg
    intro amount amountIn
    obtain ⟨recipient, member, rfl⟩ := List.mem_map.1 amountIn
    exact (amounts recipient member).1
  have available : ∀ vCoins, node.availableCoins setting create = some vCoins →
      Available setting create node vCoins :=
    fun vCoins known => availableCoins_spec known (coins vCoins known)
  unfold createTransaction
  cases sums : sumRecipients vecSend 0 0 with
  | error fault => simp
  | ok result =>
      obtain ⟨nValue, nSubtract⟩ := result
      obtain ⟨valueEq, countEq, _⟩ := sumRecipients_spec sums
      simp only [zero_add] at valueEq countEq
      subst valueEq countEq
      dsimp only
      split
      · simp
      · split
        · simp
        · next nLockTime _ =>
          have loop := fun fuel => @feeLoop_spec setting create node vecSend nLockTime random fuel 0
            0 keyed available ⟨nonneg, total⟩ ⟨le_rfl, by decide⟩
          constructor
          · intro fuel enough
            exact (loop fuel).1 (by omega)
          · intro fuel created run
            obtain ⟨vCoins, known, sound⟩ := (loop fuel).2 created run
            obtain ⟨payments, nDust, nFeeBefore, nChange, outputs, paid⟩ := sound.outputs
            refine ⟨vCoins, known, sound.nodup, sound.available, sound.balanced,
              fun txout member => outputs.not_isDust member,
              ⟨payments, nDust, outputs.nDust_nonneg,
                outputs.pays.imp fun recipient txout pays => ⟨pays.script, pays.whole⟩,
                fun nonempty => (paid nonempty).1, ?_⟩, sound.fee⟩
            rcases outputs.change with ⟨same, position, zero, _⟩ | ⟨_, change, placed⟩
            · exact Or.inl ⟨same, position, zero⟩
            · obtain ⟨nPos, bound, position, inserted⟩ := placed.position
              refine Or.inr ⟨change, nPos, bound, position, inserted, ?_,
                placed.raised.imp_right And.right⟩
              intro nonempty
              rw [placed.value, (paid nonempty).2]

/-- A wallet with one confirmed output of 1000000, and options with a fee of 1000 for 1000 bytes. -/
def plainWalletTx : CWalletTx where
  tx := {
    hash := 77
    nVersion := 1
    vin := [{ prevout := { hash := 5, n := 0 }, scriptSig := [], nSequence := 0xffffffff }]
    vout := [{ nValue := 1000000, scriptPubKey := ownScript }]
    nLockTime := 0 }
  hashBlock := sampleEnvironment.consensus.hashGenesisBlock
  vMerkleBranch := []
  nIndex := 0
  fMerkleVerified := true

def plainNode : WalletNode :=
  { genesis (plainSetting 0) true with mapWallet := (∅ : WalletMap).insert 77 plainWalletTx }

def plainPolicy : FeePolicy where
  payTxFee := ⟨0⟩
  fPayAtLeastCustomFee := true
  estimateFee := ⟨0⟩
  minTxFee := ⟨1000⟩
  minRelayTxFee := ⟨1000⟩
  maxTxFee := 10000
  fSendFreeTransactions := false
  maxTxFee_lt := by decide
  minRelayTxFee_lt := by decide

def plainCreate : CreateContext where
  nAdjustedTime := 1391489000
  bSpendZeroConfChange := true
  extractDestination _ := none
  mapAddressBook _ := none
  policy := plainPolicy
  coinControl := none
  isLockedCoin _ _ := false
  hash _ := 0
  getScriptForDestination _ := ownScript
  signSignature _ _ _ := some [1]
  enoughPriority _ _ := false

def plainRound : RoundChoices where
  selection _ := plainChoices Uint256
  setOrder := id
  setOrder_perm _ := List.Perm.refl _
  getRandInt _ := 0
  getRandInt_lt _ some := some
  reservedKey := some []

def plainRecipients : List CRecipient := [⟨[7], 600000, true⟩]

theorem createTransaction_balanced_plain :
    ∃ created, plainNode.createTransaction (plainSetting 0) plainCreate plainRecipients none
        (fun _ => plainRound) 10001 = some (.ok created) ∧
      (plainNode.coinView (plainSetting 0)).inputTotal created.txNew.vin =
        valueTotal created.txNew.vout + created.nFeeRet := by
  have listed : plainNode.availableCoins (plainSetting 0) plainCreate =
      some [⟨77, 0, 1, true⟩] := by
    decide
  have held : ∀ (wtxid : Uint256) (wtx : CWalletTx), plainNode.mapWallet[wtxid]? = some wtx →
      wtxid = 77 ∧ wtx = plainWalletTx := by
    intro wtxid wtx found
    simp only [plainNode, Std.ExtTreeMap.getElem?_insert] at found
    split at found
    · next same =>
      exact ⟨(Std.LawfulEqCmp.eq_of_compare same).symm, (Option.some.inj found).symm⟩
    · simp at found
  have keyed : plainNode.mapWallet.Keyed := by
    constructor <;> intro wtxid wtx found <;> obtain ⟨rfl, rfl⟩ := held wtxid wtx found
    · rfl
    · decide
  have spec := createTransaction_balanced (plainSetting 0) plainCreate plainNode plainRecipients
    none (fun _ => plainRound) (by decide) (by decide) keyed (by
      intro vCoins known
      rw [listed] at known
      obtain rfl := Option.some.inj known
      decide)
  have runs : (plainNode.createTransaction (plainSetting 0) plainCreate plainRecipients none
      (fun _ => plainRound) 10001).any fun result => result.toOption.isSome := by
    decide +kernel
  obtain ⟨result, ran, good⟩ := (Option.any_eq_true _ _).1 runs
  cases result with
  | error fault => simp [Except.toOption] at good
  | ok created =>
      obtain ⟨_, _, _, _, balanced, _⟩ := spec.2 10001 created ran
      exact ⟨created, ran, balanced⟩

end WalletNode

end Lycancoin
