import Lycancoin.Data.Metered
import Lycancoin.Primitives.Serialize
import Lycancoin.Wallet.Balance
import Lycancoin.Wallet.CoinSelection

namespace Lycancoin

open Data

/-- Satoshis for each 1000 bytes. -/
structure CFeeRate where
  nSatoshisPerK : Int
deriving DecidableEq, Repr

/-- `CFeeRate::GetFee`.  The product with a `size_t` is unsigned. -/
def CFeeRate.getFee (rate : CFeeRate) (nSize : Nat) : Int :=
  let nFee := rate.nSatoshisPerK * nSize % 2 ^ 64 / 1000
  if nFee = 0 ∧ rate.nSatoshisPerK > 0 then rate.nSatoshisPerK else nFee

namespace CTxOut

def getDustThreshold (minRelayTxFee : CFeeRate) (txout : CTxOut) : Int :=
  3 * minRelayTxFee.getFee (txout.getSerializeSize + 148)

def isDust (minRelayTxFee : CFeeRate) (txout : CTxOut) : Bool :=
  decide (txout.nValue < txout.getDustThreshold minRelayTxFee)

end CTxOut

structure CRecipient where
  scriptPubKey : CScript
  nAmount : Int
  fSubtractFeeFromAmount : Bool
deriving DecidableEq, Repr

structure CCoinControl where
  destChange : CTxDestination
  setSelected : List COutPoint
deriving DecidableEq, Repr

def CCoinControl.hasSelected (coinControl : CCoinControl) : Bool :=
  decide (coinControl.setSelected.length > 0)

def CCoinControl.isSelected (coinControl : CCoinControl) (hash : Uint256) (n : Nat) : Bool :=
  coinControl.setSelected.contains { hash := hash, n := UInt32.ofNat n }

/-- The options on fees, and what the pool estimates for `nTxConfirmTarget`.  The amounts of the
options are read by `ParseMoney`, which takes ten digits before the point. -/
structure FeePolicy where
  payTxFee : CFeeRate
  fPayAtLeastCustomFee : Bool
  estimateFee : CFeeRate
  minTxFee : CFeeRate
  minRelayTxFee : CFeeRate
  maxTxFee : Int
  fSendFreeTransactions : Bool
  maxTxFee_lt : maxTxFee < 10 ^ 18
  minRelayTxFee_lt : minRelayTxFee.nSatoshisPerK < 10 ^ 18

def FeePolicy.getMinimumFee (policy : FeePolicy) (nTxBytes : Nat) : Int :=
  let nFeeNeeded := policy.payTxFee.getFee nTxBytes
  let nFeeNeeded :=
    if policy.fPayAtLeastCustomFee ∧ nFeeNeeded > 0 ∧ nFeeNeeded < policy.payTxFee.getFee 1000 then
      policy.payTxFee.getFee 1000
    else nFeeNeeded
  let nFeeNeeded := if nFeeNeeded = 0 then policy.estimateFee.getFee nTxBytes else nFeeNeeded
  let nFeeNeeded := if nFeeNeeded = 0 then policy.minTxFee.getFee nTxBytes else nFeeNeeded
  let nFeeNeeded :=
    if nFeeNeeded < policy.minRelayTxFee.getFee nTxBytes then policy.minRelayTxFee.getFee nTxBytes
    else nFeeNeeded
  if nFeeNeeded > policy.maxTxFee then policy.maxTxFee else nFeeNeeded

theorem FeePolicy.getMinimumFee_le (policy : FeePolicy) (nTxBytes : Nat) :
    policy.getMinimumFee nTxBytes ≤ policy.maxTxFee := by
  unfold getMinimumFee
  simp only
  split <;> omega

/-- How `CreateTransaction` ends without a transaction: it returns false with a reason, an
assertion fails, a call throws, or a signed operation overflows. -/
inductive CreateFault where
  | failed (strFailReason : String)
  | assertion
  | thrown
  | overflow
deriving DecidableEq, Repr

/-- The result of a signed operation with the exact result `value`. -/
def signed (value : Int) : Except CreateFault Int :=
  if InInt64 value then .ok value else .error .overflow

def refuseIf (condition : Bool) (strFailReason : String) : Except CreateFault Unit :=
  if condition then .error (.failed strFailReason) else .ok ()

/-- What one round of the fee loop may meet by chance: the coin selection, the order of the
pointers in `setCoins`, the position of the change, and the key from the key pool. -/
structure RoundChoices where
  selection : Nat → SelectionChoices Uint256
  setOrder : List (Uint256 × Nat) → List (Uint256 × Nat)
  setOrder_perm : ∀ setCoins, (setOrder setCoins).Perm setCoins
  getRandInt : Nat → Nat
  getRandInt_lt : ∀ nMax, 0 < nMax → getRandInt nMax < nMax
  reservedKey : Option CKeyID

/-- What `CreateTransaction` depends on besides the node.  `enoughPriority` stands for the
comparison of priorities, which are floating-point numbers. -/
structure CreateContext extends BalanceContext where
  policy : FeePolicy
  coinControl : Option CCoinControl
  isLockedCoin : Uint256 → Nat → Bool
  hash : List UInt8 → Uint256
  getScriptForDestination : CTxDestination → CScript
  signSignature : CTransaction → CMutableTransaction → Nat → Option CScript
  enoughPriority : List CTxIn → Nat → Bool

def MAX_STANDARD_TX_SIZE : Nat := 100000

def MAX_FREE_TRANSACTION_CREATE_SIZE : Nat := 1000

/-- The coin control leaves the output to be spent. -/
def CreateContext.allows (create : CreateContext) (hash : Uint256) (n : Nat) : Bool :=
  match create.coinControl with
  | none => true
  | some coinControl => !coinControl.hasSelected || coinControl.isSelected hash n

namespace WalletNode

variable (setting : WalletSetting) (create : CreateContext) (node : WalletNode)

/-- The loop of `AvailableCoins` over the outputs of a transaction. -/
def availableOutputs (wtxid : Uint256) (nDepth : Int) :
    List (CTxOut × Nat) → List (COutput Uint256)
  | [] => []
  | (txout, i) :: rest =>
      let mine := setting.isMine txout.scriptPubKey
      let others := availableOutputs wtxid nDepth rest
      if !node.isSpent setting { hash := wtxid, n := UInt32.ofNat i } && decide (mine ≠ .no) &&
          !create.isLockedCoin wtxid i && decide (txout.nValue > 0) && create.allows wtxid i then
        ⟨wtxid, i, nDepth, mine == .spendable⟩ :: others
      else others

/-- The loop of `AvailableCoins` over the wallet, with `fOnlyConfirmed`. -/
def availableFrom : List (Uint256 × CWalletTx) → Option (List (COutput Uint256))
  | [] => some []
  | (wtxid, pcoin) :: rest =>
      if !isFinalTx pcoin.tx node.chainActive.height create.nAdjustedTime then availableFrom rest
      else
        match node.isTrusted setting create.toBalanceContext pcoin with
        | none => none
        | some fTrusted =>
            let nDepth := node.depth setting pcoin
            if !fTrusted ||
                (pcoin.tx.isCoinBase && decide (node.getBlocksToMaturity setting pcoin > 0)) ||
                decide (nDepth < 0) then
              availableFrom rest
            else (availableFrom rest).map fun others =>
              node.availableOutputs setting create wtxid nDepth pcoin.tx.vout.zipIdx ++ others

/-- `CWallet::AvailableCoins` for confirmed coins with a value. -/
def availableCoins : Option (List (COutput Uint256)) :=
  node.availableFrom setting create node.mapWallet.toList

/-- What the wallet holds at an output.  Where `IsFromMe` throws, the call stops; here it goes on
with a transaction that is not from the wallet. -/
def coinView : CoinView Uint256 where
  nValue wtxid i :=
    ((node.mapWallet[wtxid]?.bind fun wtx => wtx.tx.vout[i]?).map CTxOut.nValue).getD 0
  isFromMe wtxid :=
    (node.mapWallet[wtxid]?.bind (node.getDebit setting .ISMINE_ALL)).any fun nDebit =>
      decide (nDebit > 0)

def selectAll (vCoins : List (COutput Uint256)) (nTargetValue : Int) :
    Except CreateFault (Bool × List (Uint256 × Nat) × Int) :=
  match returnCoins ((vCoins.filter COutput.fSpendable).map fun output =>
      (output.value (node.coinView setting), output.coin)) [] 0 with
  | none => .error .overflow
  | some (setCoinsRet, nValueRet) =>
      .ok (decide (nValueRet ≥ nTargetValue), setCoinsRet, nValueRet)

/-- One call of `SelectCoinsMinConf`. -/
def attempt (choices : SelectionChoices Uint256) (vCoins : List (COutput Uint256))
    (nTargetValue nConfMine nConfTheirs : Int) :
    Except CreateFault (Bool × List (Uint256 × Nat) × Int) :=
  match selectCoinsMinConf (node.coinView setting) choices nTargetValue nConfMine nConfTheirs
      vCoins with
  | none => .error .overflow
  | some result => .ok result

def selectCoins (selection : Nat → SelectionChoices Uint256) (nTargetValue : Int) :
    Except CreateFault (Bool × List (Uint256 × Nat) × Int) :=
  match node.availableCoins setting create with
  | none => .error .thrown
  | some vCoins =>
      if create.coinControl.any CCoinControl.hasSelected then
        node.selectAll setting vCoins nTargetValue
      else do
        let first ← node.attempt setting (selection 0) vCoins nTargetValue 1 6
        if first.1 then pure first
        else do
          let second ← node.attempt setting (selection 1) vCoins nTargetValue 1 1
          if second.1 then pure second
          else if create.bSpendZeroConfChange then
            node.attempt setting (selection 2) vCoins nTargetValue 0 1
          else pure second

end WalletNode

/-- `nValue` and `nSubtractFeeFromAmount` of the recipients. -/
def sumRecipients : List CRecipient → Int → Nat → Except CreateFault (Int × Nat)
  | [], nValue, nSubtractFeeFromAmount => do
      refuseIf (decide (nValue < 0)) "Transaction amounts must be positive"
      pure (nValue, nSubtractFeeFromAmount)
  | recipient :: rest, nValue, nSubtractFeeFromAmount => do
      refuseIf (decide (nValue < 0) || decide (recipient.nAmount < 0))
        "Transaction amounts must be positive"
      let nValue ← signed (nValue + recipient.nAmount)
      sumRecipients rest nValue
        (if recipient.fSubtractFeeFromAmount then nSubtractFeeFromAmount + 1
        else nSubtractFeeFromAmount)

def CRecipient.dustReason (recipient : CRecipient) (nFeeRet nValue : Int) : String :=
  if recipient.fSubtractFeeFromAmount ∧ nFeeRet > 0 then
    if nValue < 0 then "The transaction amount is too small to pay the fee"
    else "The transaction amount is too small to send after the fee has been deducted"
  else "Transaction amount too small"

namespace CreateContext

variable (create : CreateContext) (nSubtractFeeFromAmount : Nat)

/-- What a recipient gets.  The first that the fee is subtracted from pays the remainder. -/
def payeeValue (nFeeRet : Int) (fFirst : Bool) (recipient : CRecipient) :
    Except CreateFault Int :=
  if recipient.fSubtractFeeFromAmount then do
    let nValue ← signed (recipient.nAmount - nFeeRet.tdiv nSubtractFeeFromAmount)
    if fFirst then signed (nValue - nFeeRet.tmod nSubtractFeeFromAmount) else pure nValue
  else pure recipient.nAmount

def payees (nFeeRet : Int) : Bool → List CRecipient → Except CreateFault (List CTxOut)
  | _, [] => pure []
  | fFirst, recipient :: rest => do
      let nValue ← payeeValue nSubtractFeeFromAmount nFeeRet fFirst recipient
      let txout : CTxOut := { nValue := nValue, scriptPubKey := recipient.scriptPubKey }
      refuseIf (txout.isDust create.policy.minRelayTxFee) (recipient.dustReason nFeeRet nValue)
      let others ← payees nFeeRet (fFirst && !recipient.fSubtractFeeFromAmount) rest
      pure (txout :: others)

/-- Takes `nDust` from the output of the first recipient that the fee is subtracted from. -/
def subtractDust (nDust : Int) :
    List CRecipient → List CTxOut → Except CreateFault (List CTxOut)
  | recipient :: recipients, txout :: vout =>
      if recipient.fSubtractFeeFromAmount then do
        let nValue ← signed (txout.nValue - nDust)
        let lowered : CTxOut := { txout with nValue := nValue }
        refuseIf (lowered.isDust create.policy.minRelayTxFee)
          "The transaction amount is too small to send after the fee has been deducted"
        pure (lowered :: vout)
      else do
        let others ← subtractDust nDust recipients vout
        pure (txout :: others)
  | _, vout => pure vout

def scriptChange (random : RoundChoices) : Except CreateFault CScript :=
  match create.coinControl with
  | some coinControl =>
      if coinControl.destChange ≠ .none then
        .ok (create.getScriptForDestination coinControl.destChange)
      else toReservedKey
  | none => toReservedKey
where
  toReservedKey : Except CreateFault CScript :=
    match random.reservedKey with
    | none => .error .assertion
    | some keyID => .ok (create.getScriptForDestination (.keyID keyID))

/-- Raises dust change at the cost of a recipient, where the fee is subtracted from one. -/
def raiseChange (vecSend : List CRecipient) (newTxOut : CTxOut) (vout : List CTxOut) :
    Except CreateFault (CTxOut × List CTxOut) :=
  if nSubtractFeeFromAmount > 0 ∧ newTxOut.isDust create.policy.minRelayTxFee then do
    let nDust ← signed (newTxOut.getDustThreshold create.policy.minRelayTxFee - newTxOut.nValue)
    let nValue ← signed (newTxOut.nValue + nDust)
    let vout ← create.subtractDust nDust vecSend vout
    pure ({ newTxOut with nValue := nValue }, vout)
  else pure (newTxOut, vout)

/-- What is done with the change: the outputs, `nFeeRet` and `nChangePosRet`. -/
def addChange (random : RoundChoices) (vecSend : List CRecipient) (nFeeRet nChange : Int)
    (vout : List CTxOut) : Except CreateFault (List CTxOut × Int × Int) :=
  if nChange > 0 then do
    let scriptChange ← create.scriptChange random
    let (newTxOut, vout) ← create.raiseChange nSubtractFeeFromAmount vecSend
      { nValue := nChange, scriptPubKey := scriptChange } vout
    if newTxOut.isDust create.policy.minRelayTxFee then do
      let nFeeRet ← signed (nFeeRet + nChange)
      pure (vout, nFeeRet, -1)
    else
      let nChangePosRet := random.getRandInt (vout.length + 1)
      pure (vout.insertIdx nChangePosRet newTxOut, nFeeRet, nChangePosRet)
  else pure (vout, nFeeRet, -1)

/-- `SignSignature` of every input in turn. -/
def signInputs : List (CTransaction × Nat) → CMutableTransaction →
    Except CreateFault CMutableTransaction
  | [], txNew => .ok txNew
  | (txFrom, nIn) :: rest, txNew =>
      match create.signSignature txFrom txNew nIn with
      | none => .error (.failed "Signing transaction failed")
      | some scriptSig =>
          signInputs rest { txNew with
            vin := txNew.vin.modify nIn fun txin => { txin with scriptSig := scriptSig } }

end CreateContext

/-- What `CreateTransaction` returns with. -/
structure CreatedTransaction where
  txNew : CMutableTransaction
  nFeeRet : Int
  nChangePosRet : Int
deriving DecidableEq, Repr

/-- How a round of the fee loop ends. -/
inductive RoundResult where
  | done (created : CreatedTransaction)
  | again (nFeeRet : Int)

namespace WalletNode

variable (setting : WalletSetting) (create : CreateContext) (node : WalletNode)

/-- The size of the transaction, the priority and the fee: the end of a round. -/
def judgeFee (txNew : CMutableTransaction) (nFeeRet nChangePosRet : Int) :
    Except CreateFault RoundResult :=
  let nBytes := (CTransaction.ofMutable create.hash txNew).getSerializeSize
  if nBytes ≥ MAX_STANDARD_TX_SIZE then .error (.failed "Transaction too large")
  else if create.policy.fSendFreeTransactions ∧ nBytes ≤ MAX_FREE_TRANSACTION_CREATE_SIZE ∧
      create.enoughPriority txNew.vin nBytes then
    .ok (.done ⟨txNew, nFeeRet, nChangePosRet⟩)
  else
    let nFeeNeeded := create.policy.getMinimumFee nBytes
    if nFeeNeeded < create.policy.minRelayTxFee.getFee nBytes then
      .error (.failed "Transaction too large for fee policy")
    else if nFeeRet ≥ nFeeNeeded then .ok (.done ⟨txNew, nFeeRet, nChangePosRet⟩)
    else .ok (.again nFeeNeeded)

/-- Adds the fee to an amount, unless the recipients pay it. -/
def addFee (nSubtractFeeFromAmount : Nat) (nValue nFee : Int) : Except CreateFault Int :=
  if nSubtractFeeFromAmount = 0 then signed (nValue + nFee) else pure nValue

/-- The transaction behind a pointer of `setCoins`. -/
def walletTx (wtxid : Uint256) : Except CreateFault CTransaction :=
  match node.mapWallet[wtxid]? with
  | none => .error .assertion
  | some wtx => .ok wtx.tx

def createRound (vecSend : List CRecipient) (nLockTime : UInt32) (nValue : Int)
    (nSubtractFeeFromAmount : Nat) (random : RoundChoices) (nFeeRet : Int) :
    Except CreateFault RoundResult := do
  let nTotalValue ← addFee nSubtractFeeFromAmount nValue nFeeRet
  let payments ← create.payees nSubtractFeeFromAmount nFeeRet true vecSend
  let (fSelected, setCoins, nValueIn) ← node.selectCoins setting create random.selection nTotalValue
  refuseIf (!fSelected) "Insufficient funds"
  let nChange ← signed (nValueIn - nValue)
  let nChange ← addFee nSubtractFeeFromAmount nChange (-nFeeRet)
  let (vout, nFeeRet, nChangePosRet) ←
    create.addChange nSubtractFeeFromAmount random vecSend nFeeRet nChange payments
  let coins := random.setOrder setCoins
  let sources ← coins.mapM fun coin => node.walletTx coin.1
  let vin := (sources.zip coins).map fun (source, coin) =>
    { prevout := { hash := source.hash, n := UInt32.ofNat coin.2 }
      scriptSig := []
      nSequence := 0xfffffffe : CTxIn }
  let txNew ← create.signInputs sources.zipIdx
    { nVersion := 1, vin := vin, vout := vout, nLockTime := nLockTime }
  judgeFee create txNew nFeeRet nChangePosRet

/-- The fee loop, for at most `fuel` rounds. -/
def feeLoop (vecSend : List CRecipient) (nLockTime : UInt32) (nValue : Int)
    (nSubtractFeeFromAmount : Nat) (random : Nat → RoundChoices) :
    Nat → Nat → Int → Option (Except CreateFault CreatedTransaction)
  | 0, _, _ => none
  | fuel + 1, round, nFeeRet =>
      match node.createRound setting create vecSend nLockTime nValue nSubtractFeeFromAmount
          (random round) nFeeRet with
      | .error fault => some (.error fault)
      | .ok (.done created) => some (.ok created)
      | .ok (.again nFeeNeeded) =>
          feeLoop vecSend nLockTime nValue nSubtractFeeFromAmount random fuel (round + 1) nFeeNeeded

/-- `nLockTime` against fee sniping, where `back` is what `GetRandInt` takes it further back. -/
def pickLockTime (back : Option Nat) : Except CreateFault UInt32 :=
  let nLockTime := max 0 (node.chainActive.height - 10)
  let nLockTime := match back with
    | none => nLockTime
    | some nBlocks => max 0 (nLockTime - nBlocks)
  if nLockTime ≤ node.chainActive.height ∧ nLockTime < LOCKTIME_THRESHOLD then
    .ok (UInt32.ofNat nLockTime.toNat)
  else .error .assertion

/-- `CWallet::CreateTransaction`, with at most `fuel` rounds of the fee loop. -/
def createTransaction (vecSend : List CRecipient) (back : Option Nat)
    (random : Nat → RoundChoices) (fuel : Nat) :
    Option (Except CreateFault CreatedTransaction) :=
  match sumRecipients vecSend 0 0 with
  | .error fault => some (.error fault)
  | .ok (nValue, nSubtractFeeFromAmount) =>
      if vecSend.isEmpty then some (.error (.failed "Transaction amounts must be positive"))
      else
        match node.pickLockTime back with
        | .error fault => some (.error fault)
        | .ok nLockTime =>
            node.feeLoop setting create vecSend nLockTime nValue nSubtractFeeFromAmount random
              fuel 0 0

end WalletNode

end Lycancoin
