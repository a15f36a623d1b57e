import Lycancoin.Mempool.Accept
import Lycancoin.Mempool.PoolCalls
import Lycancoin.Validation.Conservation
import Lycancoin.Validation.Providers
import Lycancoin.Validation.SpentOnce

namespace Lycancoin

namespace CTxMemPool

def Holds (pool : CTxMemPool) (tx : CTransaction) : Prop :=
  ∃ entry, pool.mapTx[tx.hash]? = some entry ∧ entry.tx = tx

variable {pool after : CTxMemPool} {tx : CTransaction} {doomed : Uint256 → Prop}
  {gone : List CTransaction} {pcoins : UtxoView} {txs : CTransaction → Prop}

theorem Removal.holds (removal : Removal pool doomed after gone) (held : after.Holds tx) :
    pool.Holds tx := by
  obtain ⟨entry, found, same⟩ := held
  exact ⟨entry, (removal.lookup.mp found).1, same⟩

theorem Removal.holds_of_gone (removal : Removal pool doomed after gone) (member : tx ∈ gone) :
    pool.Holds tx :=
  ((removal.gone_iff tx).mp member).2

/-- The transactions are different, and spend different outpoints. -/
def ApartFrom (tx other : CTransaction) : Prop :=
  tx.hash ≠ other.hash ∧ ∀ txin ∈ tx.vin, ∀ own ∈ other.vin, txin.prevout ≠ own.prevout

/-- What `removeForBlock` leaves in place of one transaction is apart from it. -/
theorem apartFrom_of_holds {middle next : CTxMemPool} {lost found : List CTransaction}
    {block : CTransaction} (removal : Removal pool (pool.Removes block false) middle lost)
    (conflicted : Removal middle (middle.ConflictsAt block block.vin) next found)
    (held : next.Holds tx) : ApartFrom tx block := by
  obtain ⟨entry, present, rfl⟩ := held
  obtain ⟨stands, stays⟩ := conflicted.lookup.mp present
  have different : entry.tx.hash ≠ block.hash := by
    intro same
    have erased := removal.erased block.hash (.inl rfl)
    rw [same, erased] at stands
    contradiction
  refine ⟨different, fun txin member own ownMember same => stays ?_⟩
  exact ⟨entry.tx.hash, entry, stands, different, ⟨txin, member, own, ownMember, same⟩, .refl⟩

/-- `removeForBlock` adds nothing to the pool, what it reports was there, and what it leaves is
apart from the block. -/
theorem Exact.removeForBlock_members (exact : Exact pool) (vtx conflicts : List CTransaction) :
    ∃ after all, pool.removeForBlock vtx conflicts = .ok (after, all) ∧ Exact after ∧
      (∀ tx, after.Holds tx → pool.Holds tx) ∧ (∀ tx ∈ all, tx ∈ conflicts ∨ pool.Holds tx) ∧
      ∀ tx, after.Holds tx → ∀ other ∈ vtx, ApartFrom tx other := by
  induction vtx generalizing pool conflicts with
  | nil => exact ⟨pool, conflicts, rfl, exact, fun _ => id, fun _ => .inl, by simp⟩
  | cons tx rest ih =>
      obtain ⟨middle, gone, removed, exactMiddle, removal⟩ := exact.remove tx [] false
      obtain ⟨next, found, cleared, exactNext, conflicted⟩ :=
        exactMiddle.removeConflicts tx conflicts
      obtain ⟨after, all, result, exactAfter, kept, reported, apart⟩ :=
        ih (exactNext.clearPrioritisation tx.hash) (conflicts ++ found)
      refine ⟨after, all, ?_, exactAfter, fun other held => ?_, fun other member => ?_,
        fun other held => List.forall_mem_cons.mpr ⟨?_, apart other held⟩⟩
      · rw [CTxMemPool.removeForBlock, List.foldlM_cons]
        simp only [removed, bind, Except.bind, cleared, pure, Except.pure]
        exact result
      · exact removal.holds (conflicted.holds (kept other held))
      · rcases reported other member with earlier | held
        · rcases List.mem_append.mp earlier with old | new
          · exact .inl old
          · exact .inr (removal.holds (conflicted.holds_of_gone new))
        · exact .inr (removal.holds (conflicted.holds held))
      · exact apartFrom_of_holds removal conflicted (kept other held)

theorem Exact.viewOver_provided (exact : Exact pool) (provided : pcoins.ProvidedBy txs) :
    (pool.viewOver pcoins).ProvidedBy fun tx => txs tx ∨ pool.Holds tx := by
  intro place txout available
  cases found : pool.mapTx[place.hash]? with
  | none =>
      have same : (pool.viewOver pcoins).output place = pcoins.output place :=
        UtxoView.output_congr (viewOver_of_absent found)
      obtain ⟨tx, member, provides⟩ := provided place txout (same ▸ available)
      exact ⟨tx, .inl member, provides⟩
  | some entry =>
      have hash := exact.hash_eq _ _ found
      simp only [UtxoView.output, viewOver, found, UtxoView.output_live] at available
      exact ⟨entry.tx, .inr ⟨entry, hash ▸ found, rfl⟩, hash, CCoins.output_of_fromTx available⟩

end CTxMemPool

section Acceptance

variable {rules : PoolRules} {pcoinsTip : UtxoView} {pool after : CTxMemPool} {tx other : CTransaction}
  {txs : CTransaction → Prop}

theorem Accepted.funded (accepted : Accepted rules pcoinsTip pool tx after) (exact : pool.Exact)
    (provided : pcoinsTip.ProvidedBy txs) : tx.Funded fun other => txs other ∨ pool.Holds other := by
  intro _
  obtain ⟨amounts, _⟩ := check_seq_eq_ok.mp accepted.inputs
  obtain ⟨nValueIn, values⟩ := checkInputAmounts_values amounts
  exact ⟨_, _, nValueIn, exact.viewOver_provided provided, values⟩

theorem Accepted.not_coinBase (accepted : Accepted rules pcoinsTip pool tx after) :
    tx.isCoinBase = false := by
  obtain ⟨_, loose⟩ := check_seq_eq_ok.mp accepted.loose
  obtain ⟨coinbase, _⟩ := check_seq_eq_ok.mp loose
  exact rejectIf_eq_ok.mp coinbase

theorem Accepted.holds_iff (accepted : Accepted rules pcoinsTip pool tx after) :
    after.Holds other → pool.Holds other ∨ other = tx := by
  obtain ⟨entry, isTx, lookup⟩ := accepted.getElem?_mapTx
  rintro ⟨found, present, same⟩
  rw [lookup] at present
  split at present
  · cases present
    exact .inr (same.symm.trans isTx)
  · exact .inl ⟨found, present, same⟩

end Acceptance

open Data

namespace CTxMemPool

/-- The pool has no coinbase and nothing of the history, and spends nothing that the history has
spent. -/
structure Apart (pool : CTxMemPool) (history : List CTransaction) : Prop where
  notCoinBase : ∀ tx, pool.Holds tx → tx.isCoinBase = false
  absent : ∀ tx, pool.Holds tx → tx ∉ history
  unspent : ∀ tx, pool.Holds tx → ∀ place ∈ tx.spends, ∀ other ∈ history, place ∉ other.spends

variable {pool after : CTxMemPool} {history newer : List CTransaction} {tx other : CTransaction}
  {known : Set CTransaction} {place : COutPoint}

theorem Apart.mono (apart : pool.Apart history) (kept : ∀ tx, after.Holds tx → pool.Holds tx) :
    after.Apart history where
  notCoinBase := fun tx held => apart.notCoinBase tx (kept tx held)
  absent := fun tx held => apart.absent tx (kept tx held)
  unspent := fun tx held => apart.unspent tx (kept tx held)

theorem Apart.older (apart : pool.Apart (newer ++ history)) : pool.Apart history where
  notCoinBase := apart.notCoinBase
  absent := fun tx held member => apart.absent tx held (List.mem_append_right _ member)
  unspent := fun tx held place taken other member =>
    apart.unspent tx held place taken other (List.mem_append_right _ member)

/-- A block joins the history once nothing of it is left in the pool. -/
theorem Apart.append (apart : pool.Apart history)
    (free : ∀ tx, pool.Holds tx → ∀ other ∈ newer, ApartFrom tx other) :
    pool.Apart (newer.reverse ++ history) where
  notCoinBase := apart.notCoinBase
  absent := by
    intro tx held member
    rcases List.mem_append.mp member with inBlock | old
    · exact (free tx held tx (List.mem_reverse.mp inBlock)).1 rfl
    · exact apart.absent tx held old
  unspent := by
    intro tx held place taken other member spends
    rcases List.mem_append.mp member with inBlock | old
    · rw [CTransaction.spends_of_not_coinBase (apart.notCoinBase tx held)] at taken
      obtain ⟨txin, inside, rfl⟩ := List.mem_map.mp taken
      cases isCoinBase : other.isCoinBase with
      | true => simp [CTransaction.spends_of_coinBase isCoinBase] at spends
      | false =>
          rw [CTransaction.spends_of_not_coinBase isCoinBase] at spends
          obtain ⟨own, ownInside, same⟩ := List.mem_map.mp spends
          exact (free tx held other (List.mem_reverse.mp inBlock)).2 txin inside own ownInside
            same.symm
    · exact apart.unspent tx held place taken other old spends

/-- Two transactions of the pool do not spend the same outpoint. -/
theorem Exact.eq_of_spends (exact : Exact pool) (held : pool.Holds tx) (otherHeld : pool.Holds other)
    (notCoinBase : tx.isCoinBase = false) (otherNotCoinBase : other.isCoinBase = false)
    (taken : place ∈ tx.spends) (otherTaken : place ∈ other.spends) : tx = other := by
  obtain ⟨entry, found, rfl⟩ := held
  obtain ⟨otherEntry, otherFound, rfl⟩ := otherHeld
  rw [CTransaction.spends_of_not_coinBase notCoinBase] at taken
  rw [CTransaction.spends_of_not_coinBase otherNotCoinBase] at otherTaken
  obtain ⟨txin, member, rfl⟩ := List.mem_map.mp taken
  obtain ⟨own, otherMember, same⟩ := List.mem_map.mp otherTaken
  have hash := exact.spender_unique found otherFound member otherMember same.symm
  rw [hash, otherFound] at found
  cases found
  rfl

end CTxMemPool

section Acceptance

variable {rules : PoolRules} {pcoinsTip : UtxoView} {pool after : CTxMemPool} {tx : CTransaction}
  {history : List CTransaction} {known : Set CTransaction}

theorem Accepted.unspent_history (accepted : Accepted rules pcoinsTip pool tx after)
    (exact : pool.Exact) (left : pcoinsTip.LeftBy history) (once : spending.TakesOnce history)
    (apart : pool.Apart history) (identified : Set.InjOn CTransaction.hash known)
    (historyKnown : ∀ other ∈ history, other ∈ known)
    (poolKnown : ∀ other, pool.Holds other → other ∈ known) :
    ∀ place ∈ tx.spends, ∀ other ∈ history, place ∉ other.spends := by
  intro place taken other member spends
  rw [CTransaction.spends_of_not_coinBase accepted.not_coinBase] at taken
  have available := (haveInputs_iff accepted.not_coinBase).mp accepted.haveInputs place taken
  obtain ⟨txout, shown⟩ := Option.isSome_iff_exists.mp available
  cases found : pool.mapTx[place.hash]? with
  | none =>
      have same : (pool.viewOver pcoinsTip).output place = pcoinsTip.output place :=
        UtxoView.output_congr (CTxMemPool.viewOver_of_absent found)
      rw [same] at shown
      exact left.unspent place txout shown other member spends
  | some entry =>
      have hash := exact.hash_eq _ _ found
      have held : pool.Holds entry.tx := ⟨entry, hash ▸ found, rfl⟩
      obtain ⟨maker, inside, made⟩ := once.maker member spends
      have same : maker = entry.tx := identified (historyKnown maker inside)
        (poolKnown entry.tx held) (Eq.trans made hash.symm)
      exact apart.absent entry.tx held (same ▸ inside)

theorem Accepted.apart (accepted : Accepted rules pcoinsTip pool tx after) (exact : pool.Exact)
    (left : pcoinsTip.LeftBy history) (once : spending.TakesOnce history)
    (apart : pool.Apart history) (identified : Set.InjOn CTransaction.hash known)
    (historyKnown : ∀ other ∈ history, other ∈ known)
    (poolKnown : ∀ other, pool.Holds other → other ∈ known) : after.Apart history := by
  have unspent := accepted.unspent_history exact left once apart identified historyKnown poolKnown
  have inputs : tx.spends ≠ [] := by
    rw [CTransaction.spends_of_not_coinBase accepted.not_coinBase, ne_eq, List.map_eq_nil_iff]
    exact (checkTransaction_spec (check_seq_eq_ok.mp accepted.loose).1).vin_ne_nil
  obtain ⟨place, taken⟩ := List.exists_mem_of_ne_nil _ inputs
  constructor
  · intro other held
    rcases accepted.holds_iff held with before | rfl
    · exact apart.notCoinBase other before
    · exact accepted.not_coinBase
  · intro other held member
    rcases accepted.holds_iff held with before | rfl
    · exact apart.absent other before member
    · exact unspent place taken other member taken
  · intro other held
    rcases accepted.holds_iff held with before | rfl
    · exact apart.unspent other before
    · exact unspent

end Acceptance

end Lycancoin
