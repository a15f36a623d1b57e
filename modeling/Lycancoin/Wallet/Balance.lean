import Lycancoin.Wallet.CryptoKeyStore
import Lycancoin.Wallet.WalletRun

namespace Lycancoin

/-- `CTxDestination`.  A script ID is a hash as well. -/
inductive CTxDestination where
  | none
  | keyID (hash : CKeyID)
  | scriptID (hash : List UInt8)
deriving DecidableEq, Repr

structure COutputEntry where
  destination : CTxDestination
  amount : Int
  vout : Nat
deriving DecidableEq, Repr

def IsMineFilter.ISMINE_WATCH_ONLY : IsMineFilter := { watchOnly := true, spendable := false }

/-- What the balances depend on besides the node: `GetAdjustedTime`, `-spendzeroconfchange`, the
address book, and how scripts are read as destinations. -/
structure BalanceContext where
  nAdjustedTime : Int
  bSpendZeroConfChange : Bool
  extractDestination : CScript → Option CTxDestination
  mapAddressBook : CTxDestination → Option String

def CWalletTx.addToSpends (wtxid : Uint256) (wtx : CWalletTx) : List (COutPoint × Uint256) :=
  if wtx.tx.isCoinBase then [] else wtx.tx.vin.map fun txin => (txin.prevout, wtxid)

/-- `mapTxSpends`, which `AddToSpends` has filled for every transaction of the wallet. -/
def WalletMap.mapTxSpends (mapWallet : WalletMap) : List (COutPoint × Uint256) :=
  mapWallet.toList.flatMap fun item => item.2.addToSpends item.1

namespace WalletNode

variable (setting : WalletSetting) (context : BalanceContext) (node : WalletNode)

/-- The depth of a transaction, without the note that is left in the wallet. -/
def depth (wtx : CWalletTx) : Int := (node.getDepthInMainChain setting wtx).1

def getBlocksToMaturity (wtx : CWalletTx) : Int :=
  if !wtx.tx.isCoinBase then 0 else max 0 ((COINBASE_MATURITY + 15) - node.depth setting wtx)

def isSpent (outpoint : COutPoint) : Bool :=
  node.mapWallet.mapTxSpends.any fun spend =>
    spend.1 == outpoint &&
      node.mapWallet[spend.2]?.any fun wtx => decide (node.depth setting wtx ≥ 0)

def getCreditOf (filter : IsMineFilter) (txout : CTxOut) : Option Int :=
  if !moneyRange txout.nValue then none
  else some (if filter.accepts (setting.isMine txout.scriptPubKey) then txout.nValue else 0)

/-- The loop of `GetAvailableCredit`, with `none` when it throws. -/
def sumAvailable (hashTx : Uint256) : Int → List (CTxOut × Nat) → Option Int
  | nCredit, [] => some nCredit
  | nCredit, (txout, i) :: rest =>
      if !node.isSpent setting { hash := hashTx, n := UInt32.ofNat i } then
        match getCreditOf setting .ISMINE_SPENDABLE txout with
        | none => none
        | some credit =>
            if moneyRange (nCredit + credit) then sumAvailable hashTx (nCredit + credit) rest
            else none
      else sumAvailable hashTx nCredit rest

def getAvailableCredit (wtx : CWalletTx) : Option Int :=
  if wtx.tx.isCoinBase && decide (node.getBlocksToMaturity setting wtx > 0) then some 0
  else node.sumAvailable setting wtx.tx.hash 0 wtx.tx.vout.zipIdx

def getDebit (filter : IsMineFilter) (wtx : CWalletTx) : Option Int :=
  if wtx.tx.vin.isEmpty then some 0
  else do
    let spendable ← if filter.spendable then
        node.mapWallet.getDebit setting.isMine .ISMINE_SPENDABLE wtx.tx
      else some 0
    let watchOnly ← if filter.watchOnly then
        node.mapWallet.getDebit setting.isMine .ISMINE_WATCH_ONLY wtx.tx
      else some 0
    pure (spendable + watchOnly)

/-- The loop of `IsTrusted`, with `none` when it reads past the end of `parent->vout`. -/
def trustsInputs : List CTxIn → Option Bool
  | [] => some true
  | txin :: rest =>
      match node.mapWallet[txin.prevout.hash]? with
      | none => some false
      | some parent =>
          match parent.tx.vout[txin.prevout.n.toNat]? with
          | none => none
          | some parentOut =>
              if setting.isMine parentOut.scriptPubKey ≠ .spendable then some false
              else trustsInputs rest

def isTrusted (wtx : CWalletTx) : Option Bool :=
  if !isFinalTx wtx.tx node.chainActive.height context.nAdjustedTime then some false
  else
    let nDepth := node.depth setting wtx
    if nDepth ≥ 1 then some true
    else if nDepth < 0 then some false
    else if !context.bSpendZeroConfChange then some false
    else
      match node.getDebit setting .ISMINE_ALL wtx with
      | none => none
      | some nDebit => if !decide (nDebit > 0) then some false else
          node.trustsInputs setting wtx.tx.vin

/-- `CWallet::IsChange` of an output. -/
def isChange (txout : CTxOut) : Bool :=
  if setting.isMine txout.scriptPubKey ≠ .no then
    match context.extractDestination txout.scriptPubKey with
    | none => true
    | some address => (context.mapAddressBook address).isNone
  else false

/-- The loop of `GetAmounts`: `listReceived` and `listSent`. -/
def listOutputs (filter : IsMineFilter) (nDebit : Int) :
    List (CTxOut × Nat) → List COutputEntry × List COutputEntry
  | [] => ([], [])
  | (txout, i) :: rest =>
      let fIsMine := setting.isMine txout.scriptPubKey
      let (listReceived, listSent) := listOutputs filter nDebit rest
      if if nDebit > 0 then isChange setting context txout else !filter.accepts fIsMine then
        (listReceived, listSent)
      else
        let address := (context.extractDestination txout.scriptPubKey).getD .none
        let output : COutputEntry := ⟨address, txout.nValue, i⟩
        (if filter.accepts fIsMine then output :: listReceived else listReceived,
          if nDebit > 0 then output :: listSent else listSent)

/-- `GetAmounts`: `listReceived`, `listSent` and `nFee`. -/
def getAmounts (filter : IsMineFilter) (wtx : CWalletTx) :
    Option (List COutputEntry × List COutputEntry × Int) := do
  let nDebit ← node.getDebit setting filter wtx
  let nFee ← if nDebit > 0 then wtx.tx.getValueOut.toOption.map fun nValueOut => nDebit - nValueOut
    else some 0
  let (listReceived, listSent) := listOutputs setting context filter nDebit wtx.tx.vout.zipIdx
  pure (listReceived, listSent, nFee)

/-- The loop of `getbalance '*'` over the wallet. -/
def sumAmounts (nMinDepth : Int) (filter : IsMineFilter) :
    Int → List (Uint256 × CWalletTx) → Option Int
  | nBalance, [] => some nBalance
  | nBalance, (_, wtx) :: rest =>
      match node.isTrusted setting context wtx with
      | none => none
      | some fTrusted =>
          if !fTrusted || decide (node.getBlocksToMaturity setting wtx > 0) then
            sumAmounts nMinDepth filter nBalance rest
          else
            match node.getAmounts setting context filter wtx with
            | none => none
            | some (listReceived, listSent, allFee) =>
                let nReceived := if node.depth setting wtx ≥ nMinDepth then
                    (listReceived.map COutputEntry.amount).sum
                  else 0
                let nSent := (listSent.map COutputEntry.amount).sum
                sumAmounts nMinDepth filter (nBalance + nReceived - nSent - allFee) rest

/-- `getbalance '*'`. -/
def getBalanceOfAll (nMinDepth : Int) (filter : IsMineFilter) : Option Int :=
  node.sumAmounts setting context nMinDepth filter 0 node.mapWallet.toList

/-- The loop of `GetBalance`. -/
def sumCredits : Int → List (Uint256 × CWalletTx) → Option Int
  | nTotal, [] => some nTotal
  | nTotal, (_, pcoin) :: rest =>
      match node.isTrusted setting context pcoin with
      | none => none
      | some fTrusted =>
          if fTrusted then
            match node.getAvailableCredit setting pcoin with
            | none => none
            | some credit => sumCredits (nTotal + credit) rest
          else sumCredits nTotal rest

def getBalance : Option Int := node.sumCredits setting context 0 node.mapWallet.toList

end WalletNode

end Lycancoin
