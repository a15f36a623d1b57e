import Lycancoin.Wallet.SpendsSync

namespace Lycancoin

open Std Data Data.KeyedBatch

namespace SpendsWallet

variable {wallet next source : SpendsWallet} {added : List CTransaction} {hash : Uint256}
  {outpoint : COutPoint} {vin : List CTxIn} {entry wtxIn : WalletEntry}

def Within (source wallet : SpendsWallet) : Prop :=
  ∀ (hash : Uint256) (entry : WalletEntry), wallet.mapWallet[hash]? = some entry →
    source.mapWallet[hash]? = some entry

theorem Within.addInputs (within : Within source wallet) (grown : source.Grown)
    (agreed : source.Agreed)
    (noted : ∀ (outpoint : COutPoint) (id : Uint256), (outpoint, id) ∈ wallet.mapTxSpends →
      ∃ entry : WalletEntry, wallet.mapWallet[id]? = some entry ∧ entry.Spends outpoint)
    (here : wallet.mapWallet[hash]? = some entry)
    (spends : ∀ txin ∈ vin, entry.Spends txin.prevout) :
    ∃ next, addInputs hash vin wallet = some next ∧
      ∀ id : Uint256, next.mapWallet[id]? = wallet.mapWallet[id]? := by
  induction vin generalizing wallet with
  | nil => exact ⟨wallet, rfl, fun _ => rfl⟩
  | cons txin vin ih =>
      obtain ⟨spent, others⟩ := List.forall_mem_cons.1 spends
      have ranged : ∀ id ∈ wallet.equalRange txin.prevout ++ [hash],
          ∃ found : WalletEntry, wallet.mapWallet[id]? = some found ∧
            found.Spends txin.prevout := by
        intro id member
        rcases List.mem_append.1 member with member | member
        · exact noted txin.prevout id (mem_equalRange.1 member)
        · rw [List.mem_singleton.1 member]
          exact ⟨entry, here, spent⟩
      obtain ⟨mapWallet, synced, unchanged⟩ := @EntryMap.syncMetaData_agreed
        wallet.mapWallet (wallet.equalRange txin.prevout ++ [hash])
        (fun id member => (ranged id member).imp fun _ => And.left)
        (by
          obtain ⟨least, below⟩ := grown.numbered.2 hash entry (within hash entry here)
          have := grown.few
          refine ⟨hash, List.mem_append_right _ List.mem_cons_self, ?_⟩
          rw [EntryMap.orderPos_eq here least (by omega)]
          omega)
        (by
          intro first second found found' member lookup member' lookup'
          obtain ⟨_, same, spends⟩ := ranged first member
          obtain ⟨_, same', spends'⟩ := ranged second member'
          cases lookup.symm.trans same
          cases lookup'.symm.trans same'
          exact agreed txin.prevout first second found found' (within first found lookup) spends
            (within second found' lookup') spends')
      have first : wallet.addToSpendsOf txin.prevout hash = some { wallet with
          mapWallet := mapWallet
          mapTxSpends := wallet.mapTxSpends ++ [(txin.prevout, hash)] } := by
        have range : equalRange txin.prevout
            { wallet with mapTxSpends := wallet.mapTxSpends ++ [(txin.prevout, hash)] } =
              wallet.equalRange txin.prevout ++ [hash] := by simp [equalRange]
        simp only [addToSpendsOf, range, synced, Option.map_some]
      obtain ⟨next, rest, kept⟩ := @ih { wallet with
          mapWallet := mapWallet
          mapTxSpends := wallet.mapTxSpends ++ [(txin.prevout, hash)] }
        (by
          intro id found lookup
          exact within id found ((unchanged id).symm.trans lookup))
        (by
          intro place id member
          rcases List.mem_append.1 member with member | member
          · obtain ⟨found, lookup, spends⟩ := noted place id member
            exact ⟨found, (unchanged id).trans lookup, spends⟩
          · cases List.mem_singleton.1 member
            exact ⟨entry, (unchanged hash).trans here, spent⟩)
        ((unchanged hash).trans here) others
      refine ⟨next, ?_, fun id => (kept id).trans (unchanged id)⟩
      simp only [SpendsWallet.addInputs, first, Option.bind_some, rest]

theorem Within.loadToWallet (within : Within source wallet) (grown : source.Grown)
    (agreed : source.Agreed) (indexed : wallet.Indexed added)
    (found : source.mapWallet[wtxIn.tx.hash]? = some wtxIn) :
    ∃ next, wallet.loadToWallet wtxIn = some next ∧ Within source next ∧
      next.Indexed (wtxIn.tx :: added) := by
  let start : SpendsWallet := { wallet with
    mapWallet := wallet.mapWallet.insert wtxIn.tx.hash wtxIn }
  have here : start.mapWallet[wtxIn.tx.hash]? = some wtxIn := ExtTreeMap.getElem?_insert_self
  have started : Within source start := by
    intro id entry lookup
    simp only [start, getElem?_insert_eq] at lookup
    split at lookup
    · cases lookup
      subst id
      exact found
    · exact within id entry lookup
  have noted : ∀ (outpoint : COutPoint) (id : Uint256), (outpoint, id) ∈ start.mapTxSpends →
      ∃ entry : WalletEntry, start.mapWallet[id]? = some entry ∧ entry.Spends outpoint := by
    intro outpoint id member
    obtain ⟨entry, lookup, spends⟩ := (indexed.spends outpoint id).1 member
    refine ⟨entry, ?_, spends⟩
    simp only [start, getElem?_insert_eq]
    split
    · subst id
      rw [← found, within wtxIn.tx.hash entry lookup]
    · exact lookup
  have ran : ∃ next, addToSpends wtxIn.tx.hash start = some next ∧ Within source next := by
    simp only [addToSpends, here]
    split
    case isTrue => exact ⟨start, rfl, started⟩
    case isFalse notCoinBase =>
      obtain ⟨next, ran, kept⟩ := started.addInputs grown agreed noted here
        fun txin member => ⟨by simpa using notCoinBase, txin, member, rfl⟩
      refine ⟨next, ran, ?_⟩
      intro id entry lookup
      exact started id entry ((kept id).symm.trans lookup)
  obtain ⟨next, ran, kept⟩ := ran
  refine ⟨next, ran, kept, indexed.addToSpends ran rfl ?_⟩
  intro old lookup
  cases (within _ old lookup).symm.trans found
  rfl

theorem Within.finish_loads (grown : source.Grown) (agreed : source.Agreed)
    {loads : List WalletEntry}
    (members : ∀ wtxIn ∈ loads, source.mapWallet[wtxIn.tx.hash]? = some wtxIn)
    (within : Within source wallet) (indexed : wallet.Indexed added) :
    ∃ loaded, StepRuns.finish step (loads.map .loadToWallet) wallet = some loaded ∧
      Within source loaded := by
  induction loads generalizing wallet added with
  | nil => exact ⟨wallet, rfl, within⟩
  | cons wtxIn loads ih =>
      obtain ⟨found, others⟩ := List.forall_mem_cons.1 members
      obtain ⟨next, ran, kept, indexed'⟩ := within.loadToWallet grown agreed indexed found
      obtain ⟨loaded, rest, last⟩ := ih others kept indexed'
      refine ⟨loaded, ?_, last⟩
      simp only [List.map_cons, StepRuns.finish, step, ran, Option.bind_some, rest]

theorem Within.synced (within : Within source wallet) (agreed : source.Agreed) :
    wallet.Synced := by
  intro outpoint hash oldest entry first found spends lookup spends' _
  exact agreed outpoint oldest hash first entry (within oldest first lookup) spends'
    (within hash entry found) spends

/-- Loading the records of the wallet, in any order, gives transactions in step again. -/
def ReloadsSynced (wallet : SpendsWallet) : Prop :=
  ∀ loads : List WalletEntry, loads.Perm (wallet.records.toList.map Prod.snd) →
    ∃ loaded, StepRuns.finish step (loads.map .loadToWallet) new = some loaded ∧ loaded.Synced

theorem Grown.reloads (grown : wallet.Grown) (agreed : wallet.Agreed) : wallet.ReloadsSynced := by
  intro loads order
  obtain ⟨added, indexed⟩ := grown.indexed
  obtain ⟨loaded, ran, within⟩ := @Within.finish_loads SpendsWallet.new wallet
    [] grown agreed loads (by
      intro wtxIn member
      obtain ⟨⟨hash, record⟩, listed, rfl⟩ := List.mem_map.1 (order.mem_iff.1 member)
      have found := grown.records hash record
        (ExtTreeMap.mem_toList_iff_getElem?_eq_some.1 listed)
      rw [(indexed.own hash record found).1, found])
    (by simp [Within, SpendsWallet.new]) .new
  exact ⟨loaded, ran, within.synced agreed⟩

/-- The call adds a transaction that is not there yet, under a position that an `int` holds. -/
def AddsNew (wallet : SpendsWallet) (call : SpendsCall) : Prop :=
  ∃ wtxIn nTimeReceived nTimeSmart fWritten,
    call = .addToWallet wtxIn nTimeReceived nTimeSmart fWritten ∧
      wallet.mapWallet[wtxIn.tx.hash]? = none ∧ wallet.nOrderPosNext < 2 ^ 31 - 1

/-- The transactions that already spend inputs of the added one carry the same metadata. -/
def AddsAmongAgreed (wallet : SpendsWallet) (call : SpendsCall) : Prop :=
  ∀ wtxIn nTimeReceived nTimeSmart fWritten,
    call = .addToWallet wtxIn nTimeReceived nTimeSmart fWritten →
      wtxIn.tx.isCoinBase = false → wallet.SpendersAgree wtxIn.tx.vin

theorem Grown.synced_iff (grown : wallet.Grown) :
    wallet.Synced ∧ wallet.ReloadsSynced ↔ wallet.Agreed := by
  have synced := @synced_iff_agreed wallet fun hash entry found =>
    (grown.numbered.2 hash entry found).1
  constructor
  · intro both
    exact synced.1 both.1
  · intro agreed
    exact ⟨synced.2 agreed, grown.reloads agreed⟩

/-- The transactions of the wallet stay in step, and its records give such a wallet again, just as
long as no new transaction spends outputs whose spenders carry different metadata. -/
theorem run_synced_iff {calls : List SpendsCall}
    (added : StepRuns.Each step AddsNew calls new) :
    StepRuns.Always step (fun wallet => wallet.Synced ∧ wallet.ReloadsSynced) calls new ↔
      StepRuns.Each step AddsAmongAgreed calls new := by
  apply @StepRuns.always_iff_each _ _ _ _ Grown _ AddsNew _ _ _ added .new
  · rw [Grown.new.synced_iff]
    simp [Agreed, new]
  · rintro wallet _ next ⟨wtxIn, nTimeReceived, nTimeSmart, fWritten, rfl, fresh, most⟩ grown
      synced taken
    rw [grown.synced_iff] at synced
    obtain ⟨grown', agreed⟩ := grown.addToWallet synced most fresh taken
    refine ⟨grown', ?_⟩
    rw [grown'.synced_iff, agreed]
    constructor
    · rintro condition _ _ _ _ ⟨⟩
      exact condition
    · intro condition
      exact condition wtxIn nTimeReceived nTimeSmart fWritten rfl

theorem run_synced_iff_plain :
    StepRuns.Always step (fun wallet => wallet.Synced ∧ wallet.ReloadsSynced)
      [.addToWallet (.spending 2 [7] "a") 60 60 true,
        .addToWallet (.spending 3 [7, 8] "b") 70 70 true] new := by
  have entries : (step new (.addToWallet (.spending 2 [7] "a") 60 60 true)).map
      (fun wallet => (wallet.mapWallet.toList, wallet.nOrderPosNext)) =
        some ([(2, { WalletEntry.spending 2 [7] "a" with
          nTimeReceived := 60, nTimeSmart := 60, nOrderPos := 0 })], 1) := by
    decide
  refine (run_synced_iff ?_).2 ?_
  · intro first taken
    refine ⟨⟨_, _, _, _, rfl, by decide, by decide⟩, ?_⟩
    simp only [taken, Option.map_some, Option.some.injEq, Prod.mk.injEq] at entries
    obtain ⟨listed, nOrderPosNext⟩ := entries
    intro second _
    refine ⟨⟨_, _, _, _, rfl, ?_, by omega⟩, trivial⟩
    cases found : first.mapWallet[(WalletEntry.spending 3 [7, 8] "b").tx.hash]? with
    | none => rfl
    | some entry =>
        have member := ExtTreeMap.mem_toList_iff_getElem?_eq_some.2 found
        rw [listed, List.mem_singleton, Prod.mk.injEq] at member
        exact absurd member.1 (by decide)
  · intro first taken
    refine ⟨?_, ?_⟩
    · intro _ _ _ _ _ _ _ _ _ _ _ _ entry _ found
      simp [new] at found
    simp only [taken, Option.map_some, Option.some.injEq, Prod.mk.injEq] at entries
    obtain ⟨listed, -⟩ := entries
    intro second _
    refine ⟨?_, trivial⟩
    intro _ _ _ _ _ _ _ _ _ _ hash id entry other found _ found' _
    have member := ExtTreeMap.mem_toList_iff_getElem?_eq_some.2 found
    have member' := ExtTreeMap.mem_toList_iff_getElem?_eq_some.2 found'
    rw [listed, List.mem_singleton, Prod.mk.injEq] at member member'
    rw [member.2, member'.2]
    exact .refl _

/-- The third transaction spends an output of each of the others' and keeps the account of the
second, although the first is the oldest that spends the output of 7. -/
theorem synced_twice_differs :
    ¬ StepRuns.Always step (fun wallet => wallet.Synced ∧ wallet.ReloadsSynced)
      [.addToWallet (.spending 2 [7] "a") 60 60 true,
        .addToWallet (.spending 3 [8] "b") 60 60 true,
        .addToWallet (.spending 4 [7, 8] "c") 70 70 true] new := by
  intro always
  have entries : (StepRuns.finish step
      [.addToWallet (.spending 2 [7] "a") 60 60 true,
        .addToWallet (.spending 3 [8] "b") 60 60 true,
        .addToWallet (.spending 4 [7, 8] "c") 70 70 true] new).map
      (fun wallet => wallet.mapWallet.toList) =
        some [
          (2, { WalletEntry.spending 2 [7] "a" with
            nTimeReceived := 60, nTimeSmart := 60, nOrderPos := 0 }),
          (3, { WalletEntry.spending 3 [8] "b" with
            nTimeReceived := 60, nTimeSmart := 60, nOrderPos := 1 }),
          (4, { WalletEntry.spending 4 [7, 8] "b" with
            nTimeReceived := 70, nTimeSmart := 60, nOrderPos := 2 })] := by
    decide
  obtain ⟨last, ends, listed⟩ := Option.map_eq_some_iff.1 entries
  obtain ⟨synced, -⟩ := always.finish (Grown.new.synced_iff.2 (by simp [Agreed, new])) ends
  have least : ∀ (hash : Uint256) (entry : WalletEntry), last.mapWallet[hash]? = some entry →
      0 ≤ entry.nOrderPos := by
    intro hash entry found
    have member := ExtTreeMap.mem_toList_iff_getElem?_eq_some.2 found
    simp only [listed, List.mem_cons, Prod.mk.injEq, List.not_mem_nil, or_false] at member
    rcases member with ⟨-, rfl⟩ | ⟨-, rfl⟩ | ⟨-, rfl⟩ <;> decide
  have first := ExtTreeMap.mem_toList_iff_getElem?_eq_some.1 (listed ▸ List.mem_cons_self)
  have third := ExtTreeMap.mem_toList_iff_getElem?_eq_some.1
    (listed ▸ List.mem_cons_of_mem _ (List.mem_cons_of_mem _ List.mem_cons_self))
  have same := (synced_iff_agreed least).1 synced { hash := 7, n := 0 } _ _ _ _ first
    (by decide) third (by decide)
  exact absurd same.2.2.2.2 (by decide)

end SpendsWallet

end Lycancoin
