import Lycancoin.Wallet.CoinSelectionSpec
import Lycancoin.Wallet.CreateTransaction

namespace Lycancoin

open Data

theorem signed_eq_ok {value result : Int} :
    signed value = .ok result ↔ InInt64 value ∧ result = value := by
  unfold signed
  split <;> simp_all [eq_comm]

theorem refuseIf_eq_ok {condition : Bool} {reason : String} {result : Unit} :
    refuseIf condition reason = .ok result ↔ condition = false := by
  unfold refuseIf
  cases condition <;> simp

def flagged (vecSend : List CRecipient) : List CRecipient :=
  vecSend.filter CRecipient.fSubtractFeeFromAmount

def amountTotal (vecSend : List CRecipient) : Int := (vecSend.map CRecipient.nAmount).sum

def valueTotal (vout : List CTxOut) : Int := (vout.map CTxOut.nValue).sum

def flaggedTotal : List CRecipient → List CTxOut → Int
  | recipient :: recipients, txout :: vout =>
      (if recipient.fSubtractFeeFromAmount then txout.nValue else 0) + flaggedTotal recipients vout
  | _, _ => 0

/-- An output for a recipient: it is not dust, and it has the whole amount unless the fee is
subtracted from it. -/
structure Pays (minRelayTxFee : CFeeRate) (recipient : CRecipient) (txout : CTxOut) : Prop where
  script : txout.scriptPubKey = recipient.scriptPubKey
  notDust : txout.isDust minRelayTxFee = false
  whole : recipient.fSubtractFeeFromAmount = false → txout.nValue = recipient.nAmount

variable {create : CreateContext} {vecSend : List CRecipient}

theorem sumRecipients_spec {nValue total : Int} {nSubtract count : Nat}
    (run : sumRecipients vecSend nValue nSubtract = .ok (total, count)) :
    total = nValue + amountTotal vecSend ∧ count = nSubtract + (flagged vecSend).length ∧
      0 ≤ total := by
  induction vecSend generalizing nValue nSubtract with
  | nil =>
      obtain ⟨_, nonneg, run⟩ := bind_eq_ok.1 run
      have nonneg := refuseIf_eq_ok.1 nonneg
      simp only [pure, Except.pure, Except.ok.injEq, Prod.mk.injEq] at run
      simp only [decide_eq_false_iff_not] at nonneg
      simp only [amountTotal, flagged, List.map_nil, List.sum_nil, List.filter_nil,
        List.length_nil]
      omega
  | cons recipient rest ih =>
      obtain ⟨_, _, run⟩ := bind_eq_ok.1 run
      obtain ⟨after, added, run⟩ := bind_eq_ok.1 run
      obtain ⟨_, rfl⟩ := signed_eq_ok.1 added
      obtain ⟨totalEq, countEq, nonneg⟩ := ih run
      refine ⟨?_, ?_, nonneg⟩
      · simp only [amountTotal, List.map_cons, List.sum_cons] at totalEq ⊢
        omega
      · rw [countEq]
        cases flag : recipient.fSubtractFeeFromAmount with
        | true => simp [flagged, flag, Nat.add_assoc, Nat.add_comm 1]
        | false => simp [flagged, flag]

theorem valueTotal_eq {vout : List CTxOut}
    (pays : List.Forall₂ (Pays create.policy.minRelayTxFee) vecSend vout) :
    valueTotal vout = amountTotal vecSend - amountTotal (flagged vecSend) +
      flaggedTotal vecSend vout := by
  induction pays with
  | nil => simp [valueTotal, amountTotal, flagged, flaggedTotal]
  | @cons recipient txout recipients vout pays _ ih =>
      simp only [valueTotal, amountTotal, flagged, flaggedTotal, List.map_cons,
        List.sum_cons] at ih ⊢
      cases flag : recipient.fSubtractFeeFromAmount with
      | true =>
          simp only [flag, List.filter_cons_of_pos, List.map_cons, List.sum_cons, if_true]
          omega
      | false =>
          have whole := pays.whole flag
          simp only [flag, Bool.false_eq_true, not_false_eq_true, List.filter_cons_of_neg, if_false]
          omega

section

variable {nSubtract : Nat} {nFeeRet : Int}

/-- The outputs to the recipients, and what is left to those that pay the fee. -/
theorem payees_spec {fFirst : Bool} {vout : List CTxOut}
    (run : create.payees nSubtract nFeeRet fFirst vecSend = .ok vout) :
    List.Forall₂ (Pays create.policy.minRelayTxFee) vecSend vout ∧
      flaggedTotal vecSend vout = amountTotal (flagged vecSend) -
        (flagged vecSend).length * nFeeRet.tdiv nSubtract -
        (if fFirst = true ∧ flagged vecSend ≠ [] then nFeeRet.tmod nSubtract else 0) := by
  induction vecSend generalizing fFirst vout with
  | nil =>
      simp only [CreateContext.payees, pure, Except.pure, Except.ok.injEq] at run
      subst run
      simp [flaggedTotal, flagged, amountTotal]
  | cons recipient rest ih =>
      obtain ⟨nValue, valueEq, run⟩ := bind_eq_ok.1 run
      obtain ⟨_, notDust, run⟩ := bind_eq_ok.1 run
      obtain ⟨others, othersEq, run⟩ := bind_eq_ok.1 run
      obtain rfl : _ = vout := by simpa [pure, Except.pure] using run
      have notDust := refuseIf_eq_ok.1 notDust
      obtain ⟨restPays, restTotal⟩ := ih othersEq
      unfold CreateContext.payeeValue at valueEq
      cases flag : recipient.fSubtractFeeFromAmount with
      | true =>
          rw [if_pos flag] at valueEq
          obtain ⟨share, shareEq, valueEq⟩ := bind_eq_ok.1 valueEq
          obtain ⟨_, rfl⟩ := signed_eq_ok.1 shareEq
          refine ⟨.cons ⟨rfl, notDust, by simp [flag]⟩ restPays, ?_⟩
          simp only [flag, Bool.not_true, Bool.and_false, Bool.false_eq_true, false_and,
            if_false] at restTotal
          simp only [flaggedTotal, flag, if_true, flagged, List.filter_cons_of_pos, amountTotal,
            List.map_cons, List.sum_cons, List.length_cons] at restTotal ⊢
          cases first : fFirst with
          | true =>
              rw [if_pos first] at valueEq
              obtain ⟨_, rfl⟩ := signed_eq_ok.1 valueEq
              simp only [ne_eq, reduceCtorEq, not_false_eq_true, and_self, if_true]
              push_cast
              rw [add_mul]
              omega
          | false =>
              rw [if_neg (by simp [first])] at valueEq
              obtain rfl : _ = nValue := by simpa [pure, Except.pure] using valueEq
              simp only [Bool.false_eq_true, false_and, if_false]
              push_cast
              rw [add_mul]
              omega
      | false =>
          rw [if_neg (by simp [flag])] at valueEq
          obtain rfl : _ = nValue := by simpa [pure, Except.pure] using valueEq
          refine ⟨.cons ⟨rfl, notDust, fun _ => rfl⟩ restPays, ?_⟩
          simpa [flaggedTotal, flagged, flag] using restTotal

theorem subtractDust_spec {nDust : Int} {vout after : List CTxOut}
    (pays : List.Forall₂ (Pays create.policy.minRelayTxFee) vecSend vout)
    (run : create.subtractDust nDust vecSend vout = .ok after) :
    List.Forall₂ (Pays create.policy.minRelayTxFee) vecSend after ∧
      flaggedTotal vecSend after =
        flaggedTotal vecSend vout - (if flagged vecSend ≠ [] then nDust else 0) := by
  induction pays generalizing after with
  | nil =>
      have done : after = [] := by simpa [CreateContext.subtractDust, pure, Except.pure] using run.symm
      simp [done, flaggedTotal, flagged]
  | @cons recipient txout recipients vout first rest ih =>
      unfold CreateContext.subtractDust at run
      cases flag : recipient.fSubtractFeeFromAmount with
      | true =>
          rw [if_pos flag] at run
          obtain ⟨nValue, lowered, run⟩ := bind_eq_ok.1 run
          obtain ⟨_, rfl⟩ := signed_eq_ok.1 lowered
          obtain ⟨_, notDust, run⟩ := bind_eq_ok.1 run
          obtain rfl : _ = after := by simpa [pure, Except.pure] using run
          refine ⟨.cons ⟨first.script, refuseIf_eq_ok.1 notDust, by simp [flag]⟩ rest, ?_⟩
          simp only [flaggedTotal, flag, if_true, flagged, List.filter_cons_of_pos, ne_eq,
            reduceCtorEq, not_false_eq_true]
          omega
      | false =>
          rw [if_neg (by simp [flag])] at run
          obtain ⟨others, othersEq, run⟩ := bind_eq_ok.1 run
          obtain rfl : _ = after := by simpa [pure, Except.pure] using run
          obtain ⟨othersPay, total⟩ := ih othersEq
          refine ⟨.cons first othersPay, ?_⟩
          simpa [flaggedTotal, flagged, flag] using total

theorem getDustThreshold_congr {minRelayTxFee : CFeeRate} {left right : CTxOut}
    (same : left.scriptPubKey = right.scriptPubKey) :
    left.getDustThreshold minRelayTxFee = right.getDustThreshold minRelayTxFee := by
  simp [CTxOut.getDustThreshold, CTxOut.getSerializeSize, same]

/-- Where the change goes: to no output, or to one of its own that is raised by `nDust`. -/
structure ChangePlaced (minRelayTxFee : CFeeRate) (nChange nDust : Int) (payments vout : List CTxOut)
    (nChangePosRet : Int) (change : CTxOut) : Prop where
  value : change.nValue = nChange + nDust
  notDust : change.isDust minRelayTxFee = false
  raised : nDust = 0 ∨
    nChange < change.getDustThreshold minRelayTxFee ∧
      change.nValue = change.getDustThreshold minRelayTxFee
  position : ∃ nPos ≤ payments.length, nChangePosRet = nPos ∧ vout = payments.insertIdx nPos change

/-- The outputs of a transaction: those to the recipients and perhaps the change, where the dust
change goes to the fee or is raised at the cost of a recipient. -/
structure OutputsFor (minRelayTxFee : CFeeRate) (vecSend : List CRecipient) (nFeeBefore nChange : Int)
    (payments vout : List CTxOut) (nFeeRet nChangePosRet nDust : Int) : Prop where
  pays : List.Forall₂ (Pays minRelayTxFee) vecSend payments
  nDust_nonneg : 0 ≤ nDust
  feePaid : flagged vecSend ≠ [] → nFeeRet = nFeeBefore
  noDust : flagged vecSend = [] → nDust = 0
  change : (vout = payments ∧ nChangePosRet = -1 ∧ nDust = 0 ∧ nFeeRet = nFeeBefore + nChange) ∨
    nFeeRet = nFeeBefore ∧
      ∃ change, ChangePlaced minRelayTxFee nChange nDust payments vout nChangePosRet change

theorem addChange_spec {random : RoundChoices} {nChange : Int}
    {payments vout : List CTxOut} {nFeeAfter nChangePosRet : Int} (changeNonneg : 0 ≤ nChange)
    (pays : List.Forall₂ (Pays create.policy.minRelayTxFee) vecSend payments)
    (run : create.addChange (flagged vecSend).length random vecSend nFeeRet nChange payments =
      .ok (vout, nFeeAfter, nChangePosRet)) :
    ∃ paid nDust, OutputsFor create.policy.minRelayTxFee vecSend nFeeRet nChange paid vout nFeeAfter
        nChangePosRet nDust ∧
      flaggedTotal vecSend paid = flaggedTotal vecSend payments - nDust := by
  unfold CreateContext.addChange at run
  by_cases some : nChange > 0
  case neg =>
    rw [if_neg some] at run
    simp only [pure, Except.pure, Except.ok.injEq, Prod.mk.injEq] at run
    obtain ⟨rfl, rfl, rfl⟩ := run
    refine ⟨payments, 0, ⟨pays, le_rfl, fun _ => rfl, fun _ => rfl, Or.inl ⟨rfl, rfl, rfl, ?_⟩⟩, ?_⟩
    · omega
    · omega
  case pos =>
    rw [if_pos some] at run
    obtain ⟨script, _, run⟩ := bind_eq_ok.1 run
    obtain ⟨⟨newTxOut, paid⟩, raise, run⟩ := bind_eq_ok.1 run
    -- the change after it has been raised
    have raised : ∃ nDust, 0 ≤ nDust ∧ newTxOut.nValue = nChange + nDust ∧
        List.Forall₂ (Pays create.policy.minRelayTxFee) vecSend paid ∧
        flaggedTotal vecSend paid = flaggedTotal vecSend payments - nDust ∧
        (flagged vecSend = [] → nDust = 0) ∧
        (flagged vecSend ≠ [] → newTxOut.isDust create.policy.minRelayTxFee = false) ∧
        (nDust = 0 ∨ nChange < newTxOut.getDustThreshold create.policy.minRelayTxFee ∧
          newTxOut.nValue = newTxOut.getDustThreshold create.policy.minRelayTxFee) := by
      unfold CreateContext.raiseChange at raise
      split at raise
      · next dusty =>
        obtain ⟨nDust, dustEq, raise⟩ := bind_eq_ok.1 raise
        obtain ⟨_, rfl⟩ := signed_eq_ok.1 dustEq
        obtain ⟨nValue, valueEq, raise⟩ := bind_eq_ok.1 raise
        obtain ⟨_, rfl⟩ := signed_eq_ok.1 valueEq
        obtain ⟨lowered, loweredEq, raise⟩ := bind_eq_ok.1 raise
        simp only [pure, Except.pure, Except.ok.injEq, Prod.mk.injEq] at raise
        obtain ⟨rfl, rfl⟩ := raise
        have nonempty : flagged vecSend ≠ [] := List.ne_nil_of_length_pos dusty.1
        obtain ⟨loweredPays, total⟩ := subtractDust_spec pays loweredEq
        have low := dusty.2
        simp only [CTxOut.isDust, decide_eq_true_eq] at low
        rw [if_pos nonempty] at total
        have same : ∀ nValue, CTxOut.getDustThreshold create.policy.minRelayTxFee ⟨nValue, script⟩ =
            CTxOut.getDustThreshold create.policy.minRelayTxFee ⟨nChange, script⟩ :=
          fun nValue => getDustThreshold_congr rfl
        refine ⟨_, ?_, rfl, loweredPays, total, fun empty => absurd empty nonempty, ?_,
          Or.inr ⟨?_, ?_⟩⟩
        · omega
        · intro _
          simp only [CTxOut.isDust, decide_eq_false_iff_not, same]
          omega
        · simp only [same]
          omega
        · simp only [same]
          omega
      · next notDusty =>
        simp only [pure, Except.pure, Except.ok.injEq, Prod.mk.injEq] at raise
        obtain ⟨rfl, rfl⟩ := raise
        refine ⟨0, le_rfl, by simp, pays, by simp, fun _ => rfl, ?_, Or.inl rfl⟩
        intro nonempty
        simpa [List.length_pos_iff.2 nonempty] using notDusty
    obtain ⟨nDust, dustNonneg, valueEq, paidPays, total, noDust, solid, amount⟩ := raised
    dsimp only at run
    split at run
    · next dusty =>
      have empty : flagged vecSend = [] := by
        by_contra nonempty
        rw [solid nonempty] at dusty
        exact absurd dusty (by simp)
      have zero := noDust empty
      obtain ⟨nFee, feeEq, run⟩ := bind_eq_ok.1 run
      obtain ⟨_, rfl⟩ := signed_eq_ok.1 feeEq
      simp only [pure, Except.pure, Except.ok.injEq, Prod.mk.injEq] at run
      obtain ⟨rfl, rfl, rfl⟩ := run
      exact ⟨paid, nDust, ⟨paidPays, dustNonneg, fun nonempty => absurd empty nonempty, noDust,
        Or.inl ⟨rfl, rfl, zero, rfl⟩⟩, total⟩
    · next notDusty =>
      simp only [pure, Except.pure, Except.ok.injEq, Prod.mk.injEq] at run
      obtain ⟨rfl, rfl, rfl⟩ := run
      have below := random.getRandInt_lt (paid.length + 1) (by omega)
      exact ⟨paid, nDust, ⟨paidPays, dustNonneg, fun _ => rfl, noDust, Or.inr ⟨rfl, newTxOut,
        valueEq, by simpa using notDusty, amount, random.getRandInt (paid.length + 1), by omega,
        rfl, rfl⟩⟩, total⟩

end

theorem OutputsFor.valueTotal_eq {minRelayTxFee : CFeeRate} {nFeeBefore nChange nFeeRet : Int}
    {payments vout : List CTxOut} {nChangePosRet nDust : Int}
    (outputs : OutputsFor minRelayTxFee vecSend nFeeBefore nChange payments vout nFeeRet
      nChangePosRet nDust) :
    valueTotal vout + nFeeRet = valueTotal payments + nFeeBefore + nChange + nDust := by
  rcases outputs.change with ⟨rfl, _, zero, fee⟩ | ⟨fee, change, placed⟩
  · omega
  · obtain ⟨nPos, bound, _, rfl⟩ := placed.position
    have inserted : valueTotal (payments.insertIdx nPos change) =
        change.nValue + valueTotal payments := by
      have perm := List.perm_insertIdx change payments bound
      simpa [valueTotal] using (perm.map CTxOut.nValue).sum_eq
    have value := placed.value
    omega

theorem OutputsFor.not_isDust {minRelayTxFee : CFeeRate} {nFeeBefore nChange nFeeRet : Int}
    {payments vout : List CTxOut} {nChangePosRet nDust : Int}
    (outputs : OutputsFor minRelayTxFee vecSend nFeeBefore nChange payments vout nFeeRet
      nChangePosRet nDust) {txout : CTxOut} (member : txout ∈ vout) :
    txout.isDust minRelayTxFee = false := by
  have paid : ∀ payment ∈ payments, payment.isDust minRelayTxFee = false := by
    intro payment paymentIn
    obtain ⟨i, bound, rfl⟩ := List.getElem_of_mem paymentIn
    exact (outputs.pays.get (outputs.pays.length_eq ▸ bound) bound).notDust
  rcases outputs.change with ⟨rfl, _⟩ | ⟨_, change, placed⟩
  · exact paid txout member
  · obtain ⟨nPos, bound, _, rfl⟩ := placed.position
    rcases (List.mem_insertIdx bound).1 member with rfl | old
    · exact placed.notDust
    · exact paid txout old

end Lycancoin

namespace Lycancoin

open Data

namespace WalletNode

variable {setting : WalletSetting} {create : CreateContext} {node : WalletNode}

theorem mem_availableOutputs {wtxid : Uint256} {nDepth : Int} {outs : List (CTxOut × Nat)}
    {output : COutput Uint256}
    (member : output ∈ node.availableOutputs setting create wtxid nDepth outs) :
    output.tx = wtxid ∧ ∃ txout, (txout, output.i) ∈ outs ∧ 0 < txout.nValue := by
  induction outs with
  | nil => simp [availableOutputs] at member
  | cons out rest ih =>
      unfold availableOutputs at member
      dsimp only at member
      split at member
      · next chosen =>
        simp only [Bool.and_eq_true, decide_eq_true_eq] at chosen
        have positive : out.1.nValue > 0 := chosen.1.2
        rcases List.mem_cons.1 member with rfl | later
        · exact ⟨rfl, out.1, List.mem_cons_self, positive⟩
        · obtain ⟨same, txout, txoutIn, positive⟩ := ih later
          exact ⟨same, txout, List.mem_cons_of_mem out txoutIn, positive⟩
      · obtain ⟨same, txout, txoutIn, positive⟩ := ih member
        exact ⟨same, txout, List.mem_cons_of_mem out txoutIn, positive⟩

theorem map_i_availableOutputs (wtxid : Uint256) (nDepth : Int) (outs : List (CTxOut × Nat)) :
    ((node.availableOutputs setting create wtxid nDepth outs).map COutput.i).Sublist
      (outs.map Prod.snd) := by
  induction outs with
  | nil => simp [availableOutputs]
  | cons out rest ih =>
      unfold availableOutputs
      dsimp only
      split
      · rw [List.map_cons, List.map_cons]
        exact ih.cons_cons out.2
      · exact ih.cons out.2

theorem nodup_availableOutputs (wtxid : Uint256) (nDepth : Int) (vout : List CTxOut) :
    ((node.availableOutputs setting create wtxid nDepth vout.zipIdx).map COutput.coin).Nodup := by
  have indexes : ((node.availableOutputs setting create wtxid nDepth vout.zipIdx).map
      COutput.i).Nodup := by
    apply (map_i_availableOutputs wtxid nDepth vout.zipIdx).nodup
    rw [List.zipIdx_map_snd]
    exact List.nodup_range'
  apply List.Nodup.of_map Prod.snd
  simpa [COutput.coin, Function.comp_def] using indexes

/-- The available coins are outputs of wallet transactions, each with a value and listed once. -/
theorem availableFrom_spec {items : List (Uint256 × CWalletTx)} {vCoins : List (COutput Uint256)}
    (keys : (items.map Prod.fst).Nodup)
    (run : node.availableFrom setting create items = some vCoins) :
    (vCoins.map COutput.coin).Nodup ∧
      ∀ output ∈ vCoins, ∃ wtx, (output.tx, wtx) ∈ items ∧
        ∃ txout, wtx.tx.vout[output.i]? = some txout ∧ 0 < txout.nValue := by
  induction items generalizing vCoins with
  | nil =>
      obtain rfl : vCoins = [] := by simpa [availableFrom] using run.symm
      simp
  | cons item rest ih =>
      obtain ⟨wtxid, pcoin⟩ := item
      simp only [List.map_cons, List.nodup_cons] at keys
      have skip : node.availableFrom setting create rest = some vCoins →
          (vCoins.map COutput.coin).Nodup ∧
            ∀ output ∈ vCoins, ∃ wtx, (output.tx, wtx) ∈ (wtxid, pcoin) :: rest ∧
              ∃ txout, wtx.tx.vout[output.i]? = some txout ∧ 0 < txout.nValue := by
        intro run
        obtain ⟨distinct, found⟩ := ih keys.2 run
        refine ⟨distinct, fun output member => ?_⟩
        obtain ⟨wtx, itemIn, facts⟩ := found output member
        exact ⟨wtx, List.mem_cons_of_mem (wtxid, pcoin) itemIn, facts⟩
      unfold availableFrom at run
      split at run
      · exact skip run
      · split at run
        · simp at run
        · dsimp only at run
          split at run
          · exact skip run
          · obtain ⟨others, othersEq, rfl⟩ := Option.map_eq_some_iff.1 run
            obtain ⟨distinct, found⟩ := ih keys.2 othersEq
            constructor
            · rw [List.map_append, List.nodup_append]
              refine ⟨nodup_availableOutputs _ _ _, distinct, ?_⟩
              rintro coin coinIn other otherIn rfl
              obtain ⟨output, outputIn, rfl⟩ := List.mem_map.1 coinIn
              obtain ⟨later, laterIn, same⟩ := List.mem_map.1 otherIn
              obtain ⟨wtx, itemIn, _⟩ := found later laterIn
              have key := (mem_availableOutputs outputIn).1
              have sameKey : later.tx = output.tx := congrArg Prod.fst same
              rw [sameKey, key] at itemIn
              exact keys.1 (List.mem_map_of_mem itemIn)
            · intro output member
              rcases List.mem_append.1 member with here | later
              · obtain ⟨same, txout, txoutIn, positive⟩ := mem_availableOutputs here
                refine ⟨pcoin, ?_, txout, ?_, positive⟩
                · rw [same]
                  exact List.mem_cons_self
                · exact List.mk_mem_zipIdx_iff_getElem?.1 txoutIn
              · obtain ⟨wtx, itemIn, facts⟩ := found output later
                exact ⟨wtx, List.mem_cons_of_mem _ itemIn, facts⟩

/-- The wallet's coins, as far as `CreateTransaction` may spend them. -/
structure Available (setting : WalletSetting) (create : CreateContext) (node : WalletNode)
    (vCoins : List (COutput Uint256)) : Prop where
  coins : SpendableCoins (node.coinView setting) vCoins
  held : ∀ output ∈ vCoins, ∃ wtx txout, node.mapWallet[output.tx]? = some wtx ∧
    wtx.tx.vout[output.i]? = some txout ∧ txout.nValue = output.value (node.coinView setting)

theorem coinView_nValue {wtxid : Uint256} {i : Nat} {wtx : CWalletTx} {txout : CTxOut}
    (found : node.mapWallet[wtxid]? = some wtx) (txoutAt : wtx.tx.vout[i]? = some txout) :
    (node.coinView setting).nValue wtxid i = txout.nValue := by
  simp [coinView, found, txoutAt]

theorem availableCoins_spec {vCoins : List (COutput Uint256)}
    (run : node.availableCoins setting create = some vCoins)
    (bounded : COutput.total (node.coinView setting) vCoins ≤ MAX_MONEY) :
    Available setting create node vCoins := by
  have keys : (node.mapWallet.toList.map Prod.fst).Nodup := by
    rw [Std.ExtTreeMap.map_fst_toList_eq_keys]
    exact Std.ExtTreeMap.nodup_keys
  obtain ⟨distinct, found⟩ := availableFrom_spec keys run
  have held : ∀ output ∈ vCoins, ∃ wtx txout, node.mapWallet[output.tx]? = some wtx ∧
      wtx.tx.vout[output.i]? = some txout ∧
      txout.nValue = output.value (node.coinView setting) ∧ 0 < txout.nValue := by
    intro output member
    obtain ⟨wtx, itemIn, txout, txoutAt, positive⟩ := found output member
    have foundAt := Std.ExtTreeMap.mem_toList_iff_getElem?_eq_some.1 itemIn
    exact ⟨wtx, txout, foundAt, txoutAt, (coinView_nValue foundAt txoutAt).symm, positive⟩
  constructor
  · constructor
    · exact distinct
    · intro output member
      obtain ⟨_, _, _, _, value, positive⟩ := held output member
      omega
    · have limit : MAX_MONEY < 2 ^ 63 - CENT := by decide
      omega
  · intro output member
    obtain ⟨wtx, txout, foundAt, txoutAt, value, _⟩ := held output member
    exact ⟨wtx, txout, foundAt, txoutAt, value⟩

/-- What a selection hands to `CreateTransaction`. -/
structure CoinsFor (setting : WalletSetting) (node : WalletNode) (vCoins : List (COutput Uint256))
    (nTargetValue : Int) (setCoins : List (Uint256 × Nat)) (nValueIn : Int) : Prop where
  nodup : setCoins.Nodup
  subset : ∀ coin ∈ setCoins, ∃ output ∈ vCoins, output.fSpendable = true ∧ output.coin = coin
  total : nValueIn = (node.coinView setting).total setCoins
  reaches : nTargetValue ≤ nValueIn

theorem attempt_spec {vCoins : List (COutput Uint256)} {choices : SelectionChoices Uint256}
    {nTargetValue nConfMine nConfTheirs : Int} {result : Bool × List (Uint256 × Nat) × Int}
    (available : Available setting create node vCoins)
    (targetFits : InInt64 (nTargetValue + CENT))
    (run : node.attempt setting choices vCoins nTargetValue nConfMine nConfTheirs = .ok result)
    (selected : result.1 = true) :
    CoinsFor setting node vCoins nTargetValue result.2.1 result.2.2 := by
  obtain ⟨found, foundEq, answer⟩ := @selectCoinsMinConf_result Uint256 (node.coinView setting)
    nTargetValue nConfMine nConfTheirs _ choices vCoins available.coins targetFits
  unfold attempt at run
  rw [foundEq] at run
  simp only [Except.ok.injEq] at run
  subst run
  refine ⟨answer.nodup, ?_, answer.total, answer.reaches selected⟩
  intro coin member
  obtain ⟨output, outputIn, eq⟩ := answer.subset coin member
  obtain ⟨outputIn, eligible⟩ := List.mem_filter.1 outputIn
  simp only [COutput.eligible, Bool.and_eq_true] at eligible
  exact ⟨output, outputIn, eligible.1, eq⟩

theorem selectAll_spec {vCoins : List (COutput Uint256)} {nTargetValue : Int}
    {result : Bool × List (Uint256 × Nat) × Int}
    (available : Available setting create node vCoins)
    (run : node.selectAll setting vCoins nTargetValue = .ok result) (selected : result.1 = true) :
    CoinsFor setting node vCoins nTargetValue result.2.1 result.2.2 := by
  have coins : SpendableCoins (node.coinView setting) (vCoins.filter COutput.fSpendable) :=
    available.coins.of_subperm List.filter_sublist.subperm
  have cent : CENT = 1000000 := rfl
  have bounded := coins.bounded
  have returned := @returnCoins_spec Uint256 _
    ((vCoins.filter COutput.fSpendable).map fun output =>
      (output.value (node.coinView setting), output.coin)) [] 0
    (by simpa [Function.comp_def] using coins.distinct) (by simp)
    (by
      intro coin member
      obtain ⟨output, outputIn, rfl⟩ := List.mem_map.1 member
      exact coins.positive output outputIn)
    le_rfl (by
      have same : COutput.total (node.coinView setting) (vCoins.filter COutput.fSpendable) =
          (((vCoins.filter COutput.fSpendable).map fun output =>
            (output.value (node.coinView setting), output.coin)).map Prod.fst).sum := by
        simp [COutput.total, Function.comp_def]
      omega)
  unfold selectAll at run
  rw [returned] at run
  simp only [Except.ok.injEq] at run
  subst run
  simp only [List.map_map, Function.comp_def, zero_add, List.append_nil, ge_iff_le,
    decide_eq_true_eq] at selected ⊢
  constructor
  · simpa using coins.distinct
  · intro coin member
    obtain ⟨output, outputIn, rfl⟩ := List.mem_map.1 (List.mem_reverse.1 member)
    obtain ⟨outputIn, spendable⟩ := List.mem_filter.1 outputIn
    exact ⟨output, outputIn, spendable, rfl⟩
  · simp [CoinView.total, Function.comp_def, COutput.coin, COutput.value]
  · exact selected

/-- `SelectCoins` finds distinct available coins that reach the target. -/
theorem selectCoins_spec {vCoins : List (COutput Uint256)}
    {selection : Nat → SelectionChoices Uint256} {nTargetValue : Int}
    {result : Bool × List (Uint256 × Nat) × Int}
    (known : node.availableCoins setting create = some vCoins)
    (available : Available setting create node vCoins)
    (targetFits : InInt64 (nTargetValue + CENT))
    (run : node.selectCoins setting create selection nTargetValue = .ok result)
    (selected : result.1 = true) :
    CoinsFor setting node vCoins nTargetValue result.2.1 result.2.2 := by
  unfold selectCoins at run
  rw [known] at run
  dsimp only at run
  split at run
  · exact selectAll_spec available run selected
  · obtain ⟨first, firstEq, run⟩ := bind_eq_ok.1 run
    split at run
    · obtain rfl : first = result := by simpa [pure, Except.pure] using run
      exact attempt_spec available targetFits firstEq selected
    · obtain ⟨second, secondEq, run⟩ := bind_eq_ok.1 run
      split at run
      · obtain rfl : second = result := by simpa [pure, Except.pure] using run
        exact attempt_spec available targetFits secondEq selected
      · split at run
        · exact attempt_spec available targetFits run selected
        · obtain rfl : second = result := by simpa [pure, Except.pure] using run
          exact attempt_spec available targetFits secondEq selected

end WalletNode

end Lycancoin
