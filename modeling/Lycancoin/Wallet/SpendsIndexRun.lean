import Lycancoin.Wallet.SpendsIndex

namespace Lycancoin

open Std Data Data.KeyedBatch

namespace SpendsWallet

variable {wallet next : SpendsWallet} {added : List CTransaction} {hash : Uint256}

theorem Indexed.addToWallet (indexed : wallet.Indexed added) {wtxIn : WalletEntry}
    {nTimeReceived nTimeSmart : Int} {fWritten : Bool}
    (ran : wallet.addToWallet wtxIn nTimeReceived nTimeSmart fWritten = some next) :
    next.Indexed (wtxIn.tx :: added) := by
  simp only [SpendsWallet.addToWallet] at ran
  cases found : wallet.mapWallet[wtxIn.tx.hash]? with
  | none =>
      simp only [found, Option.map_eq_some_iff] at ran
      obtain ⟨middle, put, rfl⟩ := ran
      have kept := indexed.addToSpends put rfl fun old lookup => by simp [found] at lookup
      obtain ⟨mapWallet, mapTxSpends, -⟩ :=
        writeToDisk_mapWallet middle wtxIn.tx.hash fWritten
      exact kept.congr mapTxSpends fun _ => by rw [mapWallet]
  | some wtx =>
      simp only [found] at ran
      have mergedTx : (wtxIn.merge wtx).1.tx = wtx.tx := by
        simp only [WalletEntry.merge]
        grind
      have updated : SpendsWallet.Indexed added
          { wallet with
            mapWallet := wallet.mapWallet.insert wtxIn.tx.hash (wtxIn.merge wtx).1 } := by
        refine indexed.congr rfl ?_
        intro hash
        simp only [EntryMap.txAt, getElem?_insert_eq]
        split
        · subst hash
          simp [found, mergedTx]
        · rfl
      obtain rfl := Option.some.inj ran
      split
      · obtain ⟨mapWallet, mapTxSpends, -⟩ := writeToDisk_mapWallet { wallet with
          mapWallet := wallet.mapWallet.insert wtxIn.tx.hash (wtxIn.merge wtx).1 }
          wtxIn.tx.hash fWritten
        exact (updated.congr mapTxSpends fun _ => by rw [mapWallet]).mono
          (List.subset_cons_self _ _)
      · exact updated.mono (List.subset_cons_self _ _)

theorem Indexed.loadToWallet (indexed : wallet.Indexed added) {wtxIn : WalletEntry}
    (identified : ∀ tx ∈ added, tx.hash = wtxIn.tx.hash → tx = wtxIn.tx)
    (ran : wallet.loadToWallet wtxIn = some next) : next.Indexed (wtxIn.tx :: added) := by
  apply indexed.addToSpends ran rfl
  intro old found
  obtain ⟨named, member⟩ := indexed.own wtxIn.tx.hash old found
  exact identified old.tx member named

/-- An erased transaction stays in the index unless it had no spends there. -/
theorem Indexed.eraseFromWallet_iff (indexed : wallet.Indexed added) :
    (wallet.eraseFromWallet hash).Indexed added ↔
      ∀ entry, wallet.mapWallet[hash]? = some entry →
        entry.tx.isCoinBase = true ∨ entry.tx.vin = [] := by
  cases found : wallet.mapWallet[hash]? with
  | none =>
      have absent : wallet.mapWallet.contains hash = false := by
        rw [← ExtTreeMap.isSome_getElem?_eq_contains, found]
        rfl
      simp [eraseFromWallet, absent, indexed]
  | some entry =>
      have present : wallet.mapWallet.contains hash = true := by
        rw [← ExtTreeMap.isSome_getElem?_eq_contains, found]
        rfl
      simp only [eraseFromWallet, if_pos present, Option.some.injEq, forall_eq']
      constructor
      · intro erased
        by_contra spending
        simp only [not_or, Bool.not_eq_true] at spending
        obtain ⟨notCoinBase, inputs⟩ := spending
        obtain ⟨txin, member⟩ := List.exists_mem_of_ne_nil _ inputs
        have noted : (txin.prevout, hash) ∈ wallet.mapTxSpends :=
          (indexed.spends txin.prevout hash).2 ⟨entry, found, notCoinBase, txin, member, rfl⟩
        obtain ⟨other, lookup, -⟩ := (erased.spends txin.prevout hash).1 noted
        simp at lookup
      · intro none
        constructor
        · intro outpoint id
          rw [indexed.spends]
          apply exists_congr
          intro other
          rw [getElem?_erase_eq]
          split
          · subst id
            rw [found]
            simp only [Option.some.injEq, WalletEntry.Spends, reduceCtorEq, false_and, iff_false,
              not_and, not_exists]
            rintro rfl notCoinBase txin member
            rcases none with coinBase | empty
            · simp [coinBase] at notCoinBase
            · simp [empty] at member
          · rfl
        · intro id other lookup
          rw [getElem?_erase_eq] at lookup
          split at lookup
          · contradiction
          · exact indexed.own id other lookup

theorem Indexed.isSpent_iff (indexed : wallet.Indexed added) {depth : WalletEntry → Int}
    {outpoint : COutPoint} :
    wallet.isSpent depth outpoint = true ↔
      ∃ (hash : Uint256) (entry : WalletEntry), wallet.mapWallet[hash]? = some entry ∧
        entry.Spends outpoint ∧ 0 ≤ depth entry := by
  simp only [isSpent, List.any_eq_true, mem_equalRange, indexed.spends, Option.any_eq_true,
    decide_eq_true_eq]
  constructor
  · rintro ⟨hash, ⟨entry, found, spends⟩, other, lookup, deep⟩
    rw [found] at lookup
    cases lookup
    exact ⟨hash, entry, found, spends, deep⟩
  · rintro ⟨hash, entry, found, spends, deep⟩
    exact ⟨hash, ⟨entry, found, spends⟩, entry, found, deep⟩

theorem Indexed.mem_getConflicts (indexed : wallet.Indexed added) {txid : Uint256}
    (conflict : hash ∈ wallet.getConflicts txid) :
    ∃ (wtx entry : WalletEntry), wallet.mapWallet[txid]? = some wtx ∧
      wallet.mapWallet[hash]? = some entry ∧
        ∃ txin ∈ wtx.tx.vin, entry.Spends txin.prevout := by
  simp only [getConflicts] at conflict
  cases found : wallet.mapWallet[txid]? with
  | none => simp [found] at conflict
  | some wtx =>
      simp only [found, List.mem_flatMap] at conflict
      obtain ⟨txin, member, conflict⟩ := conflict
      split at conflict
      · simp at conflict
      · obtain ⟨entry, lookup, spends⟩ :=
          (indexed.spends _ hash).1 (mem_equalRange.1 conflict)
        exact ⟨wtx, entry, rfl, lookup, txin, member, spends⟩

theorem Indexed.getConflicts_mem (indexed : wallet.Indexed added) {txid : Uint256}
    {wtx entry : WalletEntry} {outpoint : COutPoint} (other : txid ≠ hash)
    (found : wallet.mapWallet[txid]? = some wtx) (spends : wtx.Spends outpoint)
    (lookup : wallet.mapWallet[hash]? = some entry) (conflicts : entry.Spends outpoint) :
    hash ∈ wallet.getConflicts txid := by
  simp only [getConflicts, found, List.mem_flatMap]
  have first : txid ∈ wallet.equalRange outpoint :=
    mem_equalRange.2 ((indexed.spends outpoint txid).2 ⟨wtx, found, spends⟩)
  have second : hash ∈ wallet.equalRange outpoint :=
    mem_equalRange.2 ((indexed.spends outpoint hash).2 ⟨entry, lookup, conflicts⟩)
  have several : ¬ (wallet.equalRange outpoint).length ≤ 1 := by
    intro few
    match range : wallet.equalRange outpoint with
    | [] => simp [range] at first
    | [only] =>
        simp only [range, List.mem_singleton] at first second
        exact other (first.trans second.symm)
    | _ :: _ :: _ => simp [range] at few
  obtain ⟨-, txin, member, rfl⟩ := spends
  exact ⟨txin, member, by rwa [if_neg several]⟩

end SpendsWallet

def SpendsCall.transactions : SpendsCall → List CTransaction
  | .addToWallet wtxIn _ _ _ => [wtxIn.tx]
  | .loadToWallet wtxIn => [wtxIn.tx]
  | .eraseFromWallet _ => []

/-- A wallet and the transactions that were added to it so far. -/
structure SpendsHistory where
  wallet : SpendsWallet
  added : List CTransaction

namespace SpendsHistory

variable {history next : SpendsHistory} {call : SpendsCall} {known : Set CTransaction}

def new : SpendsHistory := { wallet := .new, added := [] }

def step (history : SpendsHistory) (call : SpendsCall) : Option SpendsHistory :=
  (history.wallet.step call).map fun wallet =>
    { wallet, added := call.transactions ++ history.added }

/-- The index and the transactions agree, and `IsSpent` and `GetConflicts` answer for them. -/
structure Exact (history : SpendsHistory) : Prop where
  indexed : history.wallet.Indexed history.added
  isSpent : ∀ depth outpoint, history.wallet.isSpent depth outpoint = true ↔
    ∃ (hash : Uint256) (entry : WalletEntry), history.wallet.mapWallet[hash]? = some entry ∧
      entry.Spends outpoint ∧ 0 ≤ depth entry
  conflicting : ∀ txid, ∀ hash ∈ history.wallet.getConflicts txid,
    ∃ (wtx entry : WalletEntry), history.wallet.mapWallet[txid]? = some wtx ∧
      history.wallet.mapWallet[hash]? = some entry ∧
        ∃ txin ∈ wtx.tx.vin, entry.Spends txin.prevout
  conflicts : ∀ (txid hash : Uint256) (wtx entry : WalletEntry) (outpoint : COutPoint),
    txid ≠ hash → history.wallet.mapWallet[txid]? = some wtx → wtx.Spends outpoint →
      history.wallet.mapWallet[hash]? = some entry → entry.Spends outpoint →
        hash ∈ history.wallet.getConflicts txid

theorem exact_iff : history.Exact ↔ history.wallet.Indexed history.added := by
  constructor
  · exact Exact.indexed
  · intro indexed
    exact {
      indexed
      isSpent := fun _ _ => indexed.isSpent_iff
      conflicting := fun _ _ => indexed.mem_getConflicts
      conflicts := fun _ _ _ _ _ => indexed.getConflicts_mem }

/-- The call does not erase a transaction that spends something. -/
def ErasesNoSpend (history : SpendsHistory) (call : SpendsCall) : Prop :=
  ∀ hash, call = .eraseFromWallet hash → ∀ entry : WalletEntry,
    history.wallet.mapWallet[hash]? = some entry →
      entry.tx.isCoinBase = true ∨ entry.tx.vin = []

theorem step_exact (identified : Set.InjOn CTransaction.hash known)
    (called : ∀ tx ∈ call.transactions, tx ∈ known) (known' : ∀ tx ∈ history.added, tx ∈ known)
    (exact : history.Exact) (taken : history.step call = some next) :
    (∀ tx ∈ next.added, tx ∈ known) ∧ (next.Exact ↔ history.ErasesNoSpend call) := by
  obtain ⟨wallet, ran, rfl⟩ := Option.map_eq_some_iff.1 taken
  refine ⟨fun tx member => (List.mem_append.1 member).elim (called tx) (known' tx), ?_⟩
  rw [exact_iff]
  cases call with
  | addToWallet wtxIn nTimeReceived nTimeSmart fWritten =>
      exact iff_of_true (exact.indexed.addToWallet ran) (by simp [ErasesNoSpend])
  | loadToWallet wtxIn =>
      apply iff_of_true _ (by simp [ErasesNoSpend])
      apply exact.indexed.loadToWallet _ ran
      intro tx member same
      exact identified (known' tx member) (called wtxIn.tx List.mem_cons_self) same
  | eraseFromWallet hash =>
      obtain rfl := Option.some.inj ran
      simp only [ErasesNoSpend, SpendsCall.eraseFromWallet.injEq, forall_eq']
      exact exact.indexed.eraseFromWallet_iff

/-- The spend index stays exact just as long as no call erases a transaction that spends
something. -/
theorem run_exact_iff {calls : List SpendsCall}
    (identified : Set.InjOn CTransaction.hash
      {tx | ∃ call ∈ calls, tx ∈ call.transactions}) :
    StepRuns.Always step Exact calls new ↔ StepRuns.Each step ErasesNoSpend calls new := by
  apply @StepRuns.always_iff_each _ _ _ Exact
    (fun history => ∀ tx ∈ history.added, ∃ call ∈ calls, tx ∈ call.transactions) ErasesNoSpend
    (fun _ call => ∀ tx ∈ call.transactions, ∃ call ∈ calls, tx ∈ call.transactions)
  · intro history call next called known' exact taken
    exact step_exact identified called known' exact taken
  · exact StepRuns.Each.of_forall fun call member _ tx own => ⟨call, member, own⟩
  · simp [new]
  · exact exact_iff.2 .new

theorem run_exact_iff_plain :
    StepRuns.Always step Exact
      [.addToWallet (.spending 2 [7] "") 60 60 true, .loadToWallet (.spending 2 [7] "a"),
        .eraseFromWallet 3] new := by
  refine (run_exact_iff ?_).2 ?_
  · rintro first ⟨_, called, member⟩ second ⟨_, called', member'⟩ -
    simp only [List.mem_cons, List.not_mem_nil, or_false] at called called'
    rcases called with rfl | rfl | rfl <;> rcases called' with rfl | rfl | rfl <;>
      simp_all [SpendsCall.transactions, WalletEntry.spending]
  · intro first added
    refine ⟨fun hash erased => by simp at erased, ?_⟩
    intro second loaded
    refine ⟨fun hash erased => by simp at erased, ?_⟩
    intro third erased
    refine ⟨?_, trivial⟩
    rintro hash same entry found
    cases same
    have absent : (StepRuns.finish step
        [.addToWallet (.spending 2 [7] "") 60 60 true, .loadToWallet (.spending 2 [7] "a")]
        new).bind (fun history => history.wallet.mapWallet[(3 : Uint256)]?) = none := by
      decide
    simp only [StepRuns.finish, added, loaded, Option.bind_some, found] at absent
    contradiction

/-- The spend of a transaction outlives it, and a later one of the same outpoint brings an empty
entry. -/
theorem erased_spend_returns :
    ¬ StepRuns.Always step Exact
      [.addToWallet (.spending 2 [7] "") 60 60 true, .eraseFromWallet 2,
        .addToWallet (.spending 3 [7] "") 70 70 true] new := by
  intro always
  have empty : (StepRuns.finish step
      [.addToWallet (.spending 2 [7] "") 60 60 true, .eraseFromWallet 2,
        .addToWallet (.spending 3 [7] "") 70 70 true] new).bind
      (fun history => history.wallet.mapWallet[(2 : Uint256)]?) = some .empty := by
    decide
  obtain ⟨last, ends, found⟩ := Option.bind_eq_some_iff.1 empty
  have named := ((always.finish (exact_iff.2 .new) ends).indexed.own 2 .empty found).1
  exact absurd named (by decide)

end SpendsHistory

end Lycancoin
