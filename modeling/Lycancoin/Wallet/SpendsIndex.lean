import Lycancoin.Data.KeyedBatch
import Lycancoin.Data.StepRuns
import Lycancoin.Wallet.WalletTx

namespace Lycancoin

open Std

/-- A `CWalletTx` with its metadata. -/
structure WalletEntry extends CWalletTx where
  mapValue : List (String × String)
  vOrderForm : List (String × String)
  nTimeReceived : Int
  nTimeSmart : Int
  fFromMe : Bool
  strFromAccount : String
  nOrderPos : Int
deriving DecidableEq, Repr

namespace WalletEntry

/-- The entry that `CWalletTx()` makes. -/
def empty : WalletEntry where
  tx := { hash := Uint256.null, nVersion := 1, vin := [], vout := [], nLockTime := 0 }
  hashBlock := Uint256.null
  vMerkleBranch := []
  nIndex := -1
  fMerkleVerified := false
  mapValue := []
  vOrderForm := []
  nTimeReceived := 0
  nTimeSmart := 0
  fFromMe := false
  strFromAccount := ""
  nOrderPos := -1

/-- A transaction that spends the first outputs of some others. -/
def spending (hash : Uint256) (prevs : List Uint256) (strFromAccount : String) : WalletEntry :=
  { empty with
    tx := { empty.tx with
      hash
      vin := prevs.map fun prev =>
        { prevout := { hash := prev, n := 0 }, scriptSig := [], nSequence := 0 } }
    strFromAccount }

/-- What `SyncMetaData` copies. -/
def copyMetaData (copyFrom copyTo : WalletEntry) : WalletEntry :=
  { copyTo with
    mapValue := copyFrom.mapValue
    vOrderForm := copyFrom.vOrderForm
    nTimeSmart := copyFrom.nTimeSmart
    fFromMe := copyFrom.fFromMe
    strFromAccount := copyFrom.strFromAccount }

/-- The two entries carry the same of what `SyncMetaData` copies. -/
def SameMetaData (first second : WalletEntry) : Prop :=
  first.mapValue = second.mapValue ∧ first.vOrderForm = second.vOrderForm ∧
    first.nTimeSmart = second.nTimeSmart ∧ first.fFromMe = second.fFromMe ∧
    first.strFromAccount = second.strFromAccount

/-- The merge of `AddToWallet` into an entry that is there already: the entry, and `fUpdated`. -/
def merge (wtxIn wtx : WalletEntry) : WalletEntry × Bool :=
  let (wtx, fBlock) :=
    if !wtxIn.hashBlock.isNull && wtxIn.hashBlock != wtx.hashBlock then
      ({ wtx with hashBlock := wtxIn.hashBlock }, true)
    else (wtx, false)
  let (wtx, fBranch) :=
    if wtxIn.nIndex != -1 &&
        (wtxIn.vMerkleBranch != wtx.vMerkleBranch || wtxIn.nIndex != wtx.nIndex) then
      ({ wtx with vMerkleBranch := wtxIn.vMerkleBranch, nIndex := wtxIn.nIndex }, true)
    else (wtx, fBlock)
  if wtxIn.fFromMe && wtxIn.fFromMe != wtx.fFromMe then
    ({ wtx with fFromMe := wtxIn.fFromMe }, true)
  else (wtx, fBranch)

end WalletEntry

abbrev EntryMap := ExtTreeMap Uint256 WalletEntry

/-- The range of an `int`, into which a 64-bit value is cut. -/
def toInt32 (value : Int) : Int := value.bmod (2 ^ 32)

namespace EntryMap

/-- `operator[]`, which inserts a default entry where there is none. -/
def entryAt (hash : Uint256) (mapWallet : EntryMap) : WalletEntry × EntryMap :=
  match mapWallet[hash]? with
  | some entry => (entry, mapWallet)
  | none => (.empty, mapWallet.insert hash .empty)

/-- The first loop of `SyncMetaData`: the entry with the smallest `nOrderPos`. -/
def findOldest : List Uint256 → Int → Option Uint256 → EntryMap → Option Uint256 × EntryMap
  | [], _, copyFrom, mapWallet => (copyFrom, mapWallet)
  | hash :: range, nMinOrderPos, copyFrom, mapWallet =>
      let (entry, mapWallet) := entryAt hash mapWallet
      let n := toInt32 entry.nOrderPos
      if n < nMinOrderPos then findOldest range n (some hash) mapWallet
      else findOldest range nMinOrderPos copyFrom mapWallet

/-- The second loop of `SyncMetaData`.  There is no result where `copyFrom` is a null pointer. -/
def copyToRest (copyFrom : Option Uint256) : List Uint256 → EntryMap → Option EntryMap
  | [], mapWallet => some mapWallet
  | hash :: range, mapWallet =>
      let (copyTo, mapWallet) := entryAt hash mapWallet
      match copyFrom with
      | none => none
      | some oldest =>
          if oldest = hash then copyToRest copyFrom range mapWallet
          else
            let (entry, mapWallet) := entryAt oldest mapWallet
            copyToRest copyFrom range (mapWallet.insert hash (entry.copyMetaData copyTo))

def syncMetaData (range : List Uint256) (mapWallet : EntryMap) : Option EntryMap :=
  let (copyFrom, mapWallet) := findOldest range (2 ^ 31 - 1) none mapWallet
  copyToRest copyFrom range mapWallet

end EntryMap

/-- The transactions of a wallet, the spends that it has noted (in a multimap), its next position
and the transactions in its file. -/
structure SpendsWallet where
  mapWallet : EntryMap
  mapTxSpends : List (COutPoint × Uint256)
  nOrderPosNext : Int
  records : EntryMap

/-- The calls on a wallet.  `GetAdjustedTime` and the time of the new entry beside the others come
with the call, and whether its record can be written. -/
inductive SpendsCall where
  | addToWallet (wtxIn : WalletEntry) (nTimeReceived nTimeSmart : Int) (fWritten : Bool)
  | loadToWallet (wtxIn : WalletEntry)
  | eraseFromWallet (hash : Uint256)

namespace SpendsWallet

def new : SpendsWallet :=
  { mapWallet := ∅, mapTxSpends := [], nOrderPosNext := 0, records := ∅ }

/-- `equal_range`: the transactions that are noted for an outpoint. -/
def equalRange (outpoint : COutPoint) (wallet : SpendsWallet) : List Uint256 :=
  (wallet.mapTxSpends.filter fun spend => spend.1 == outpoint).map Prod.snd

def addToSpendsOf (outpoint : COutPoint) (wtxid : Uint256) (wallet : SpendsWallet) :
    Option SpendsWallet :=
  let wallet := { wallet with mapTxSpends := wallet.mapTxSpends ++ [(outpoint, wtxid)] }
  (wallet.mapWallet.syncMetaData (wallet.equalRange outpoint)).map fun mapWallet =>
    { wallet with mapWallet := mapWallet }

/-- The loop of `AddToSpends` over the inputs. -/
def addInputs (wtxid : Uint256) : List CTxIn → SpendsWallet → Option SpendsWallet
  | [], wallet => some wallet
  | txin :: vin, wallet =>
      (wallet.addToSpendsOf txin.prevout wtxid).bind (addInputs wtxid vin)

def addToSpends (wtxid : Uint256) (wallet : SpendsWallet) : Option SpendsWallet :=
  match wallet.mapWallet[wtxid]? with
  | none => none
  | some thisTx =>
      if thisTx.tx.isCoinBase then some wallet else addInputs wtxid thisTx.tx.vin wallet

/-- `WriteToDisk`, or the failure of it. -/
def writeToDisk (hash : Uint256) (fWritten : Bool) (wallet : SpendsWallet) : SpendsWallet :=
  match wallet.mapWallet[hash]? with
  | none => wallet
  | some wtx =>
      if fWritten then { wallet with records := wallet.records.insert hash wtx } else wallet

/-- `CWallet::AddToWallet` without `fFromLoadWallet`. -/
def addToWallet (wtxIn : WalletEntry) (nTimeReceived nTimeSmart : Int) (fWritten : Bool)
    (wallet : SpendsWallet) : Option SpendsWallet :=
  let hash := wtxIn.tx.hash
  match wallet.mapWallet[hash]? with
  | none =>
      let wtx := { wtxIn with
        nTimeReceived := nTimeReceived
        nOrderPos := wallet.nOrderPosNext
        nTimeSmart := nTimeSmart }
      (addToSpends hash { wallet with
        mapWallet := wallet.mapWallet.insert hash wtx
        nOrderPosNext := wallet.nOrderPosNext + 1 }).map (writeToDisk hash fWritten)
  | some wtx =>
      let (merged, fUpdated) := wtxIn.merge wtx
      let wallet := { wallet with mapWallet := wallet.mapWallet.insert hash merged }
      some (if fUpdated then wallet.writeToDisk hash fWritten else wallet)

/-- `CWallet::AddToWallet` with `fFromLoadWallet`. -/
def loadToWallet (wtxIn : WalletEntry) (wallet : SpendsWallet) : Option SpendsWallet :=
  addToSpends wtxIn.tx.hash
    { wallet with mapWallet := wallet.mapWallet.insert wtxIn.tx.hash wtxIn }

/-- `CWallet::EraseFromWallet` of a wallet with a file. -/
def eraseFromWallet (hash : Uint256) (wallet : SpendsWallet) : SpendsWallet :=
  if wallet.mapWallet.contains hash then
    { wallet with
      mapWallet := wallet.mapWallet.erase hash
      records := wallet.records.erase hash }
  else wallet

def step (wallet : SpendsWallet) : SpendsCall → Option SpendsWallet
  | .addToWallet wtxIn nTimeReceived nTimeSmart fWritten =>
      wallet.addToWallet wtxIn nTimeReceived nTimeSmart fWritten
  | .loadToWallet wtxIn => wallet.loadToWallet wtxIn
  | .eraseFromWallet hash => some (wallet.eraseFromWallet hash)

def getConflicts (txid : Uint256) (wallet : SpendsWallet) : List Uint256 :=
  match wallet.mapWallet[txid]? with
  | none => []
  | some wtx =>
      wtx.tx.vin.flatMap fun txin =>
        if (wallet.equalRange txin.prevout).length ≤ 1 then []
        else wallet.equalRange txin.prevout

/-- `CWallet::IsSpent`, for given depths of the transactions. -/
def isSpent (depth : WalletEntry → Int) (outpoint : COutPoint) (wallet : SpendsWallet) : Bool :=
  (wallet.equalRange outpoint).any fun wtxid =>
    wallet.mapWallet[wtxid]?.any fun wtx => decide (depth wtx ≥ 0)

end SpendsWallet

open Std Data Data.KeyedBatch

namespace EntryMap

variable {mapWallet next : EntryMap} {range : List Uint256} {hash oldest copied : Uint256}
  {nMinOrderPos : Int} {copyFrom : Option Uint256} {entry : WalletEntry}

theorem entryAt_present (found : mapWallet[hash]? = some entry) :
    entryAt hash mapWallet = (entry, mapWallet) := by
  simp only [entryAt, found]

def txAt (mapWallet : EntryMap) (hash : Uint256) : Option CTransaction :=
  mapWallet[hash]?.map fun entry => entry.tx

/-- The position as `SyncMetaData` reads it. -/
def orderPos (mapWallet : EntryMap) (hash : Uint256) : Int :=
  toInt32 ((mapWallet[hash]?.map WalletEntry.nOrderPos).getD 0)

theorem findOldest_present (present : ∀ hash ∈ range, ∃ entry, mapWallet[hash]? = some entry)
    (nMinOrderPos : Int) (copyFrom : Option Uint256) :
    ∃ found, findOldest range nMinOrderPos copyFrom mapWallet = (found, mapWallet) ∧
      (found = copyFrom ∧ (∀ hash ∈ range, nMinOrderPos ≤ mapWallet.orderPos hash) ∨
        ∃ oldest ∈ range, found = some oldest ∧ mapWallet.orderPos oldest < nMinOrderPos ∧
          ∀ hash ∈ range, mapWallet.orderPos oldest ≤ mapWallet.orderPos hash) := by
  induction range generalizing nMinOrderPos copyFrom with
  | nil => exact ⟨copyFrom, rfl, .inl ⟨rfl, by simp⟩⟩
  | cons hash range ih =>
      obtain ⟨⟨entry, here⟩, others⟩ := List.forall_mem_cons.1 present
      have position : mapWallet.orderPos hash = toInt32 entry.nOrderPos := by
        simp [orderPos, here]
      simp only [findOldest, entryAt_present here]
      by_cases less : toInt32 entry.nOrderPos < nMinOrderPos
      · rw [if_pos less]
        obtain ⟨found, scanned, ⟨same, least⟩ | ⟨oldest, member, same, lower, least⟩⟩ :=
          ih others (toInt32 entry.nOrderPos) (some hash)
        · refine ⟨found, scanned, .inr ⟨hash, List.mem_cons_self, same, by omega, ?_⟩⟩
          intro other member
          rcases List.mem_cons.1 member with rfl | member
          · exact le_rfl
          · rw [position]
            exact least other member
        · refine ⟨found, scanned, .inr ⟨oldest, List.mem_cons_of_mem hash member, same,
            by omega, ?_⟩⟩
          intro other member
          rcases List.mem_cons.1 member with rfl | member
          · omega
          · exact least other member
      · rw [if_neg less]
        obtain ⟨found, scanned, ⟨same, least⟩ | ⟨oldest, member, same, lower, least⟩⟩ :=
          ih others nMinOrderPos copyFrom
        · refine ⟨found, scanned, .inl ⟨same, ?_⟩⟩
          intro other member
          rcases List.mem_cons.1 member with rfl | member
          · omega
          · exact least other member
        · refine ⟨found, scanned, .inr ⟨oldest, List.mem_cons_of_mem hash member, same,
            lower, ?_⟩⟩
          intro other member
          rcases List.mem_cons.1 member with rfl | member
          · omega
          · exact least other member

theorem copyToRest_present (found : mapWallet[oldest]? = some entry)
    (present : ∀ hash ∈ range, ∃ entry, mapWallet[hash]? = some entry) :
    ∃ next, copyToRest (some oldest) range mapWallet = some next ∧
      ∀ hash, next[hash]? =
        if hash ∈ range ∧ hash ≠ oldest then mapWallet[hash]?.map entry.copyMetaData
        else mapWallet[hash]? := by
  induction range generalizing mapWallet with
  | nil => exact ⟨mapWallet, rfl, by simp⟩
  | cons first range ih =>
      obtain ⟨⟨copyTo, here⟩, others⟩ := List.forall_mem_cons.1 present
      simp only [copyToRest, entryAt_present here]
      by_cases same : oldest = first
      · subst same
        rw [if_pos rfl]
        obtain ⟨next, copied, places⟩ := ih found others
        refine ⟨next, copied, ?_⟩
        intro hash
        rw [places]
        apply if_congr _ rfl rfl
        simp only [List.mem_cons]
        grind
      · rw [if_neg same, entryAt_present found]
        have kept : (mapWallet.insert first (entry.copyMetaData copyTo))[oldest]? =
            some entry := by rw [getElem?_insert_eq, if_neg same, found]
        obtain ⟨next, copied, places⟩ := ih kept (by
          intro hash member
          rw [getElem?_insert_eq]
          split
          · exact ⟨_, rfl⟩
          · exact others hash member)
        refine ⟨next, copied, ?_⟩
        intro hash
        rw [places, getElem?_insert_eq]
        by_cases this : hash = first
        · subst this
          simp [here, Ne.symm same, WalletEntry.copyMetaData]
        · simp [this]

/-- What `SyncMetaData` does where every hash of the range is a transaction of the wallet. -/
theorem syncMetaData_present (present : ∀ hash ∈ range, ∃ entry, mapWallet[hash]? = some entry)
    (synced : mapWallet.syncMetaData range = some next) :
    range = [] ∧ next = mapWallet ∨
      ∃ oldest ∈ range, ∃ entry, mapWallet[oldest]? = some entry ∧
        (∀ hash ∈ range, mapWallet.orderPos oldest ≤ mapWallet.orderPos hash) ∧
        ∀ hash, next[hash]? =
          if hash ∈ range ∧ hash ≠ oldest then mapWallet[hash]?.map entry.copyMetaData
          else mapWallet[hash]? := by
  obtain ⟨found, scanned, ⟨rfl, -⟩ | ⟨oldest, member, rfl, -, least⟩⟩ :=
    findOldest_present present (2 ^ 31 - 1) none
  · simp only [syncMetaData, scanned] at synced
    cases range with
    | nil => exact .inl ⟨rfl, (Option.some.inj synced).symm⟩
    | cons first range => simp [copyToRest] at synced
  · simp only [syncMetaData, scanned] at synced
    obtain ⟨entry, here⟩ := present oldest member
    obtain ⟨result, copied, places⟩ := copyToRest_present here present
    obtain rfl := Option.some.inj (copied.symm.trans synced)
    exact .inr ⟨oldest, member, entry, here, least, places⟩

/-- There is a result where one of the range has a position below the largest `int`. -/
theorem syncMetaData_exists (present : ∀ hash ∈ range, ∃ entry, mapWallet[hash]? = some entry)
    (below : ∃ hash ∈ range, mapWallet.orderPos hash < 2 ^ 31 - 1) :
    ∃ next, mapWallet.syncMetaData range = some next := by
  obtain ⟨low, member, below⟩ := below
  obtain ⟨found, scanned, ⟨rfl, least⟩ | ⟨oldest, member, rfl, -, -⟩⟩ :=
    findOldest_present present (2 ^ 31 - 1) none
  · exact absurd (least low member) (by omega)
  · obtain ⟨entry, here⟩ := present oldest member
    obtain ⟨result, copied, -⟩ := copyToRest_present here present
    exact ⟨result, by simp only [syncMetaData, scanned, copied]⟩

theorem syncMetaData_tx (present : ∀ hash ∈ range, ∃ entry, mapWallet[hash]? = some entry)
    (synced : mapWallet.syncMetaData range = some next) (hash : Uint256) :
    next.txAt hash = mapWallet.txAt hash := by
  obtain ⟨-, rfl⟩ | ⟨oldest, -, entry, -, -, places⟩ := syncMetaData_present present synced
  · rfl
  · simp only [txAt, places]
    split
    · cases mapWallet[hash]? <;> rfl
    · rfl

end EntryMap

def WalletEntry.Spends (entry : WalletEntry) (outpoint : COutPoint) : Prop :=
  entry.tx.isCoinBase = false ∧ ∃ txin ∈ entry.tx.vin, txin.prevout = outpoint

instance (entry : WalletEntry) (outpoint : COutPoint) : Decidable (entry.Spends outpoint) :=
  inferInstanceAs (Decidable (_ ∧ _))

namespace SpendsWallet

variable {wallet next : SpendsWallet} {added : List CTransaction} {wtxid hash : Uint256}
  {outpoint : COutPoint} {vin : List CTxIn} {entry : WalletEntry}

theorem mem_equalRange :
    hash ∈ wallet.equalRange outpoint ↔ (outpoint, hash) ∈ wallet.mapTxSpends := by
  simp only [equalRange, List.mem_map, List.mem_filter, beq_iff_eq, Prod.exists]
  constructor
  · rintro ⟨place, id, ⟨member, rfl⟩, rfl⟩
    exact member
  · intro member
    exact ⟨outpoint, hash, ⟨member, rfl⟩, rfl⟩

theorem addToSpendsOf_eq_some (added : wallet.addToSpendsOf outpoint wtxid = some next) :
    ∃ mapWallet,
      wallet.mapWallet.syncMetaData (wallet.equalRange outpoint ++ [wtxid]) = some mapWallet ∧
      next = { wallet with
        mapWallet := mapWallet
        mapTxSpends := wallet.mapTxSpends ++ [(outpoint, wtxid)] } := by
  simp only [addToSpendsOf, Option.map_eq_some_iff] at added
  obtain ⟨mapWallet, synced, rfl⟩ := added
  refine ⟨mapWallet, ?_, rfl⟩
  simpa [equalRange] using synced

theorem addInputs_index
    (noted : ∀ (outpoint : COutPoint) (hash : Uint256), (outpoint, hash) ∈ wallet.mapTxSpends →
      ∃ entry, wallet.mapWallet[hash]? = some entry)
    (here : ∃ entry, wallet.mapWallet[wtxid]? = some entry)
    (ran : addInputs wtxid vin wallet = some next) :
    next.mapTxSpends = wallet.mapTxSpends ++ vin.map (fun txin => (txin.prevout, wtxid)) ∧
      ∀ hash, next.mapWallet.txAt hash = wallet.mapWallet.txAt hash := by
  induction vin generalizing wallet with
  | nil =>
      cases ran
      simp
  | cons txin vin ih =>
      obtain ⟨middle, first, rest⟩ := Option.bind_eq_some_iff.1 ran
      obtain ⟨mapWallet, synced, rfl⟩ := addToSpendsOf_eq_some first
      have same := EntryMap.syncMetaData_tx (by
        intro hash member
        rcases List.mem_append.1 member with member | member
        · exact noted _ hash (mem_equalRange.1 member)
        · rw [List.mem_singleton.1 member]
          exact here) synced
      have still : ∀ hash : Uint256, (∃ entry, wallet.mapWallet[hash]? = some entry) →
          ∃ entry, mapWallet[hash]? = some entry := by
        rintro hash ⟨entry, found⟩
        have := same hash
        cases lookup : mapWallet[hash]? with
        | none => simp [EntryMap.txAt, lookup, found] at this
        | some entry => exact ⟨entry, rfl⟩
      obtain ⟨spends, others⟩ := ih (by
        intro outpoint hash member
        rcases List.mem_append.1 member with member | member
        · exact still hash (noted outpoint hash member)
        · cases List.mem_singleton.1 member
          exact still wtxid here) (still wtxid here) rest
      constructor
      · simp [spends]
      · intro hash
        rw [others, same]

/-- The spends noted are those of the wallet's transactions, each under its own hash and added
before. -/
structure Indexed (added : List CTransaction) (wallet : SpendsWallet) : Prop where
  spends : ∀ outpoint hash, (outpoint, hash) ∈ wallet.mapTxSpends ↔
    ∃ entry, wallet.mapWallet[hash]? = some entry ∧ entry.Spends outpoint
  own : ∀ (hash : Uint256) (entry : WalletEntry), wallet.mapWallet[hash]? = some entry →
    entry.tx.hash = hash ∧ entry.tx ∈ added

theorem Indexed.new : Indexed [] SpendsWallet.new := by
  constructor <;> simp [SpendsWallet.new]

theorem Indexed.congr (indexed : wallet.Indexed added)
    (spends : next.mapTxSpends = wallet.mapTxSpends)
    (same : ∀ hash, next.mapWallet.txAt hash = wallet.mapWallet.txAt hash) :
    next.Indexed added := by
  constructor
  · intro outpoint hash
    rw [spends, indexed.spends]
    have := same hash
    cases old : wallet.mapWallet[hash]? <;> cases later : next.mapWallet[hash]? <;>
      simp_all [EntryMap.txAt, WalletEntry.Spends]
  · intro hash entry found
    have := same hash
    cases old : wallet.mapWallet[hash]? with
    | none => simp [EntryMap.txAt, found, old] at this
    | some before =>
        obtain ⟨named, member⟩ := indexed.own hash before old
        simp only [EntryMap.txAt, found, old, Option.map_some, Option.some.injEq] at this
        rw [this]
        exact ⟨named, member⟩

theorem Indexed.mono (indexed : wallet.Indexed added) {more : List CTransaction}
    (subset : added ⊆ more) : wallet.Indexed more where
  spends := indexed.spends
  own hash entry found := ⟨(indexed.own hash entry found).1, subset (indexed.own hash entry found).2⟩

theorem Indexed.addToSpends (indexed : wallet.Indexed added) {nOrderPosNext : Int}
    (ran : { wallet with
      mapWallet := wallet.mapWallet.insert hash entry
      nOrderPosNext := nOrderPosNext }.addToSpends hash = some next)
    (named : entry.tx.hash = hash)
    (same : ∀ old, wallet.mapWallet[hash]? = some old → old.tx = entry.tx) :
    next.Indexed (entry.tx :: added) := by
  have here : (wallet.mapWallet.insert hash entry)[hash]? = some entry := by simp
  have own : ∀ (id : Uint256) (found : WalletEntry), (wallet.mapWallet.insert hash entry)[id]? = some found →
      found.tx.hash = id ∧ found.tx ∈ entry.tx :: added := by
    intro id found lookup
    rw [getElem?_insert_eq] at lookup
    split at lookup
    · cases lookup
      subst id
      exact ⟨named, List.mem_cons_self⟩
    · obtain ⟨called, member⟩ := indexed.own id found lookup
      exact ⟨called, List.mem_cons_of_mem _ member⟩
  have others : ∀ (outpoint : COutPoint) (id : Uint256), (outpoint, id) ∈ wallet.mapTxSpends →
      ∃ found : WalletEntry, (wallet.mapWallet.insert hash entry)[id]? = some found ∧ found.Spends outpoint := by
    intro outpoint id member
    obtain ⟨found, lookup, spends⟩ := (indexed.spends outpoint id).1 member
    rw [getElem?_insert_eq]
    split
    · subst id
      refine ⟨entry, rfl, ?_⟩
      simpa only [WalletEntry.Spends, same found lookup] using spends
    · exact ⟨found, lookup, spends⟩
  simp only [SpendsWallet.addToSpends, here] at ran
  split at ran
  case isTrue coinBase =>
    cases ran
    refine ⟨fun outpoint id => ⟨others outpoint id, ?_⟩, own⟩
    rintro ⟨found, lookup, spends⟩
    rw [getElem?_insert_eq] at lookup
    split at lookup
    · cases lookup
      exact absurd coinBase (by simp [spends.1])
    · exact (indexed.spends outpoint id).2 ⟨found, lookup, spends⟩
  case isFalse notCoinBase =>
    obtain ⟨noted, kept⟩ := @addInputs_index { wallet with
        mapWallet := wallet.mapWallet.insert hash entry
        nOrderPosNext := nOrderPosNext } _ _ _
      (fun outpoint id member => (others outpoint id member).imp fun _ => And.left)
      ⟨entry, here⟩ ran
    have widened : Indexed (entry.tx :: added) { wallet with
        mapWallet := wallet.mapWallet.insert hash entry
        mapTxSpends := wallet.mapTxSpends ++
          entry.tx.vin.map fun txin => (txin.prevout, hash) } := by
      refine ⟨fun outpoint id => ?_, own⟩
      simp only [List.mem_append, List.mem_map, Prod.mk.injEq]
      constructor
      · rintro (member | ⟨txin, member, rfl, rfl⟩)
        · exact others outpoint id member
        · exact ⟨entry, here, by simpa using notCoinBase, txin, member, rfl⟩
      · rintro ⟨found, lookup, spends⟩
        rw [getElem?_insert_eq] at lookup
        split at lookup
        · cases lookup
          obtain ⟨-, txin, member, spent⟩ := spends
          subst id
          exact .inr ⟨txin, member, spent, rfl⟩
        · exact .inl ((indexed.spends outpoint id).2 ⟨found, lookup, spends⟩)
    exact widened.congr noted kept

theorem writeToDisk_mapWallet (wallet : SpendsWallet) (hash : Uint256) (fWritten : Bool) :
    (wallet.writeToDisk hash fWritten).mapWallet = wallet.mapWallet ∧
      (wallet.writeToDisk hash fWritten).mapTxSpends = wallet.mapTxSpends ∧
      (wallet.writeToDisk hash fWritten).nOrderPosNext = wallet.nOrderPosNext := by
  unfold writeToDisk
  split
  · simp
  · split <;> simp

end SpendsWallet

end Lycancoin
