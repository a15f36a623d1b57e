import Lycancoin.Mempool.PoolRemoval

namespace Lycancoin.CTxMemPool

open Lycancoin.Data

variable {pool middle after : CTxMemPool} {hash child parent : Uint256} {entry : CTxMemPoolEntry}
  {doomed : Uint256 → Prop} {gone : List CTransaction} {tx : CTransaction}

/-- Whatever follows a doomed entry is doomed. -/
def Closed (pool : CTxMemPool) (doomed : Uint256 → Prop) : Prop :=
  ∀ parent child, pool.Edge parent child → doomed parent → doomed child

theorem closed_removes (pool : CTxMemPool) (origTx : CTransaction) :
    pool.Closed (pool.Removes origTx true) := by
  intro parent child step lost
  obtain ⟨source, target, isParent, isChild, spends⟩ := step
  refine Or.inr ⟨rfl, ?_⟩
  rcases lost with same | ⟨_, own, entry, isOwn, spendsOwn, path⟩
  · subst same
    rw [copyOf_of_some isParent]
    exact ⟨child, target, isChild, spends, .refl⟩
  · exact ⟨own, entry, isOwn, spendsOwn,
      path.tail ⟨source, target, isParent, isChild, spends⟩⟩

namespace Removal

theorem path_mono (removal : Removal pool doomed after gone)
    (path : Relation.ReflTransGen after.Edge parent child) :
    Relation.ReflTransGen pool.Edge parent child := by
  induction path with
  | refl => exact .refl
  | tail _ step ih => exact ih.tail (removal.edge_iff.mp step).1

theorem path_of_stays (removal : Removal pool doomed after gone) (closed : pool.Closed doomed)
    (stays : ¬doomed child) (path : Relation.ReflTransGen pool.Edge parent child) :
    Relation.ReflTransGen after.Edge parent child ∧ ¬doomed parent := by
  induction path using Relation.ReflTransGen.head_induction_on with
  | refl => exact ⟨.refl, stays⟩
  | head step _ ih =>
      have parentStays := fun lost => ih.2 (closed _ _ step lost)
      exact ⟨ih.1.head (removal.edge_iff.mpr ⟨step, parentStays, ih.2⟩), parentStays⟩

theorem descendsFrom_iff (removal : Removal pool doomed after gone) (closed : pool.Closed doomed)
    (stays : ¬doomed hash) : after.DescendsFrom tx hash ↔ pool.DescendsFrom tx hash := by
  constructor
  · intro ⟨child, entry, present, spends, path⟩
    exact ⟨child, entry, (removal.lookup.mp present).1, spends, removal.path_mono path⟩
  · intro ⟨child, entry, present, spends, path⟩
    obtain ⟨remains, childStays⟩ := removal.path_of_stays closed stays path
    exact ⟨child, entry, removal.lookup.mpr ⟨present, childStays⟩, spends, remains⟩

theorem conflictsAt_iff (removal : Removal pool doomed after gone) (closed : pool.Closed doomed)
    (stays : ¬doomed hash) {inputs : List CTxIn} :
    after.ConflictsAt tx inputs hash ↔ pool.ConflictsAt tx inputs hash := by
  constructor
  · intro ⟨conflict, entry, present, different, shares, path⟩
    exact ⟨conflict, entry, (removal.lookup.mp present).1, different, shares,
      removal.path_mono path⟩
  · intro ⟨conflict, entry, present, different, shares, path⟩
    obtain ⟨remains, conflictStays⟩ := removal.path_of_stays closed stays path
    exact ⟨conflict, entry, removal.lookup.mpr ⟨present, conflictStays⟩, different, shares, remains⟩

end Removal

theorem removes_iff_path (found : pool.mapTx[hash]? = some entry) (own : entry.tx.hash = hash) :
    pool.Removes entry.tx true child ↔ Relation.ReflTransGen pool.Edge hash child := by
  have walk : Reached (pool.Follows true) [entry.tx.hash] child ↔ pool.Removes entry.tx true child :=
    reached_self true (by rw [own]; exact found)
  rw [← walk, own]
  simp [Reached, reflTransGen_follows]

/-- The loop of `removeConflicts` takes out the conflicts at its inputs. -/
theorem Exact.removeSpendersOf (exact : Exact pool) (tx : CTransaction) (inputs : List CTxIn)
    (removed : List CTransaction) :
    ∃ after gone, CTxMemPool.removeSpendersOf tx pool inputs removed =
        .ok (after, removed ++ gone) ∧
      Exact after ∧ Removal pool (pool.ConflictsAt tx inputs) after gone := by
  induction inputs generalizing pool removed with
  | nil =>
      refine ⟨pool, [], by rw [CTxMemPool.removeSpendersOf, List.append_nil], exact, ?_⟩
      exact (Removal.refl pool).congr fun hash _ _ => by simp [ConflictsAt]
  | cons txin rest ih =>
      -- Unless the spender at `txin` is removed, there is no conflict at `txin`.
      have narrow : (∀ (hash : Uint256) (entry : CTxMemPoolEntry), pool.mapTx[hash]? = some entry →
            hash ≠ tx.hash → ∀ own ∈ entry.tx.vin, own.prevout ≠ txin.prevout) →
          ∀ hash, pool.ConflictsAt tx rest hash ↔ pool.ConflictsAt tx (txin :: rest) hash := by
        intro free hash
        constructor
        · intro ⟨conflict, entry, present, different, ⟨own, member, other, isOther, same⟩, path⟩
          exact ⟨conflict, entry, present, different,
            ⟨own, member, other, List.mem_cons_of_mem txin isOther, same⟩, path⟩
        · intro ⟨conflict, entry, present, different, ⟨own, member, other, isOther, same⟩, path⟩
          rcases List.mem_cons.mp isOther with here | later
          · exact absurd (here ▸ same) (free conflict entry present different own member)
          · exact ⟨conflict, entry, present, different, ⟨own, member, other, later, same⟩, path⟩
      cases found : pool.mapNextTx[txin.prevout]? with
      | none =>
          rw [CTxMemPool.removeSpendersOf, found]
          obtain ⟨after, gone, result, exactAfter, removal⟩ := ih exact removed
          refine ⟨after, gone, result, exactAfter, removal.congr fun hash _ _ => narrow ?_ hash⟩
          intro other entry present _ own member same
          obtain ⟨n, spent⟩ := exact.spender present member
          rw [same, found] at spent
          contradiction
      | some inpoint =>
          obtain ⟨entry, present, target, isHash, spent, member, isOutpoint⟩ := exact.deref found
          rw [CTxMemPool.removeSpendersOf, found]
          simp only [target, bind, Except.bind]
          by_cases own : entry.tx.hash = tx.hash
          · rw [if_neg (not_not.mpr own)]
            obtain ⟨after, gone, result, exactAfter, removal⟩ := ih exact removed
            refine ⟨after, gone, result, exactAfter, removal.congr fun hash _ _ => narrow ?_ hash⟩
            intro other second presentOther different txin' memberOther same
            have sameEntry := exact.spender_unique present presentOther member memberOther
              (isOutpoint.trans same.symm)
            exact different (sameEntry ▸ isHash ▸ own)
          · rw [if_pos own]
            obtain ⟨middle, earlier, removedFirst, exactMiddle, start⟩ :=
              exact.remove entry.tx removed true
            obtain ⟨after, later, result, exactAfter, next⟩ := ih exactMiddle (removed ++ earlier)
            simp only [removedFirst]
            rw [List.append_assoc] at result
            refine ⟨after, earlier ++ later, result, exactAfter,
              (start.trans next).congr fun hash other _ => ?_⟩
            constructor
            · intro either
              rcases either with lost | ⟨conflict, second, isConflict, different, shares, path⟩
              · rw [removes_iff_path present isHash] at lost
                exact ⟨inpoint.ptx, entry, present, isHash ▸ own,
                  ⟨spent, member, txin, List.mem_cons_self, isOutpoint⟩, lost⟩
              · obtain ⟨txin', member', other, isOther, same⟩ := shares
                exact ⟨conflict, second, (start.lookup.mp isConflict).1, different,
                  ⟨txin', member', other, List.mem_cons_of_mem txin isOther, same⟩,
                  start.path_mono path⟩
            · intro ⟨conflict, second, isConflict, different, shares, path⟩
              obtain ⟨txin', member', other, isOther, same⟩ := shares
              rcases List.mem_cons.mp isOther with here | isLater
              · subst here
                have sameEntry := exact.spender_unique isConflict present member' member
                  (same.trans isOutpoint.symm)
                exact Or.inl ((removes_iff_path present isHash).mpr (sameEntry ▸ path))
              · by_cases lost : pool.Removes entry.tx true hash
                · exact Or.inl lost
                · refine Or.inr ((start.conflictsAt_iff (closed_removes pool entry.tx) lost).mpr ?_)
                  exact ⟨conflict, second, isConflict, different,
                    ⟨txin', member', other, isLater, same⟩, path⟩

theorem Exact.removeConflicts (exact : Exact pool) (tx : CTransaction)
    (removed : List CTransaction) :
    ∃ after gone, pool.removeConflicts tx removed = .ok (after, removed ++ gone) ∧
      Exact after ∧ Removal pool (pool.ConflictsAt tx tx.vin) after gone :=
  exact.removeSpendersOf tx tx.vin removed

theorem Exact.clearPrioritisation (exact : Exact pool) (hash : Uint256) :
    Exact (pool.clearPrioritisation hash) where
  hash_eq := exact.hash_eq
  next_iff := exact.next_iff
  size_eq := exact.size_eq

theorem Exact.clear (_ : Exact pool) : Exact pool.clear where
  hash_eq hash entry found := by simp [CTxMemPool.clear] at found
  next_iff outpoint inpoint := by simp [CTxMemPool.clear]
  size_eq := by simp [CTxMemPool.clear]

theorem Exact.removeAll (exact : Exact pool) (txs : List CTransaction)
    (copies : ∀ tx ∈ txs, pool.copyOf tx = tx) :
    ∃ after gone, txs.foldlM
        (fun (pool : CTxMemPool) tx => do
          let (pool, _) ← pool.remove tx [] true
          pure pool) pool = Except.ok after ∧
      Exact after ∧ Removal pool (fun hash => ∃ tx ∈ txs, pool.Removes tx true hash) after gone := by
  induction txs generalizing pool with
  | nil => exact ⟨pool, [], rfl, exact, (Removal.refl pool).congr (by simp)⟩
  | cons tx rest ih =>
      obtain ⟨middle, earlier, result, exactMiddle, start⟩ := exact.remove tx [] true
      have remaining : ∀ other ∈ rest, middle.copyOf other = other := by
        intro other member
        have copy := copies other (List.mem_cons_of_mem tx member)
        cases found : middle.mapTx[other.hash]? with
        | none => exact copyOf_of_none found
        | some entry =>
            rw [copyOf_of_some (start.lookup.mp found).1] at copy
            rw [copyOf_of_some found, copy]
      obtain ⟨after, later, results, exactAfter, next⟩ := ih exactMiddle remaining
      refine ⟨after, earlier ++ later, ?_, exactAfter,
        (start.trans next).congr fun hash entry _ => ?_⟩
      · rw [List.foldlM_cons]
        simp only [result, bind, Except.bind, pure, Except.pure] at results ⊢
        exact results
      · simp only [List.mem_cons, exists_eq_or_imp]
        by_cases lost : pool.Removes tx true hash
        · simp [lost]
        · simp only [lost, false_or]
          refine exists_congr fun other => and_congr_right fun member => ?_
          rw [Removes, Removes, remaining other member,
            copies other (List.mem_cons_of_mem tx member),
            start.descendsFrom_iff (closed_removes pool tx) lost]

end Lycancoin.CTxMemPool

namespace Lycancoin.CTxMemPool

open Lycancoin.Data

variable {pool after : CTxMemPool} {hash : Uint256} {entry : CTxMemPoolEntry}
  {pcoins : UtxoView} {nMemPoolHeight : UInt32}

theorem anyM_cases {α ε : Type} (test : α → Except ε Bool) (items : List α) :
    (items.anyM test = .ok true ∧ ∃ item ∈ items, test item = .ok true) ∨
    (items.anyM test = .ok false ∧ ∀ item ∈ items, test item = .ok false) ∨
    ∃ fault, items.anyM test = .error fault ∧ ∃ item ∈ items, test item = .error fault := by
  induction items with
  | nil => exact Or.inr (Or.inl ⟨rfl, by simp⟩)
  | cons item rest ih =>
      simp only [List.anyM, List.mem_cons, exists_eq_or_imp, forall_eq_or_imp]
      cases first : test item with
      | error fault => exact Or.inr (Or.inr ⟨fault, rfl, Or.inl rfl⟩)
      | ok found =>
          cases found with
          | true => exact Or.inl ⟨rfl, Or.inl rfl⟩
          | false =>
              simp only [bind, Except.bind]
              rcases ih with ⟨result, member⟩ | ⟨result, every⟩ | ⟨fault, result, member⟩
              · exact Or.inl ⟨result, Or.inr member⟩
              · exact Or.inr (Or.inl ⟨result, trivial, every⟩)
              · exact Or.inr (Or.inr ⟨fault, result, Or.inr member⟩)

/-- An input whose transaction is neither in the pool nor in the view, or is a
coinbase that has become immature. -/
def LosesCoinbase (pool : CTxMemPool) (pcoins : UtxoView) (nMemPoolHeight : UInt32)
    (tx : CTransaction) : Prop :=
  ∃ txin ∈ tx.vin, pool.spendsLostCoinbase pcoins nMemPoolHeight txin = .ok true

/-- The assertion of `removeCoinbaseSpends` looks at inputs from outside the
pool whose transaction the view does not know. -/
theorem spendsLostCoinbase_eq_error {txin : CTxIn} {fault : PoolFault}
    (failed : pool.spendsLostCoinbase pcoins nMemPoolHeight txin = .error fault) :
    fault = .assertion ∧ pool.fSanityCheck = true ∧ pool.mapTx[txin.prevout.hash]? = none ∧
      pcoins.coins txin.prevout.hash = none := by
  unfold spendsLostCoinbase at failed
  split at failed
  · contradiction
  · rename_i outside
    rw [Std.ExtTreeMap.contains_eq_isSome_getElem?, Bool.not_eq_true, Option.isSome_eq_false_iff,
      Option.isNone_iff_eq_none] at outside
    split at failed
    · rename_i unknown
      split at failed
      · rename_i sanity
        cases failed
        exact ⟨rfl, sanity, outside, unknown⟩
      · contradiction
    · contradiction

theorem lostCoinbaseSpends_cases (pool : CTxMemPool) (pcoins : UtxoView)
    (nMemPoolHeight : UInt32) (items : List (Uint256 × CTxMemPoolEntry)) :
    (∃ txs, pool.lostCoinbaseSpends pcoins nMemPoolHeight items = .ok txs ∧
      ∀ tx, tx ∈ txs ↔
        ∃ item ∈ items, item.2.tx = tx ∧ pool.LosesCoinbase pcoins nMemPoolHeight tx) ∨
    pool.lostCoinbaseSpends pcoins nMemPoolHeight items = .error .assertion ∧
      pool.fSanityCheck = true ∧ ∃ item ∈ items, ∃ txin ∈ item.2.tx.vin,
        pool.mapTx[txin.prevout.hash]? = none ∧ pcoins.coins txin.prevout.hash = none := by
  induction items with
  | nil => exact Or.inl ⟨[], rfl, by simp⟩
  | cons item rest ih =>
      rw [lostCoinbaseSpends]
      rcases anyM_cases (pool.spendsLostCoinbase pcoins nMemPoolHeight) item.2.tx.vin with
        ⟨scan, lost⟩ | ⟨scan, safe⟩ | ⟨fault, scan, txin, member, failed⟩
      · rcases ih with ⟨txs, result, members⟩ | ⟨result, sanity, other, isOther, missing⟩
        · refine Or.inl ⟨item.2.tx :: txs, by simp [scan, result, bind, Except.bind, pure,
            Except.pure], fun tx => ?_⟩
          rw [List.mem_cons, members]
          constructor
          · intro either
            rcases either with same | ⟨other, isOther, isTx, loses⟩
            · subst same
              exact ⟨item, List.mem_cons_self, rfl, lost⟩
            · exact ⟨other, List.mem_cons_of_mem item isOther, isTx, loses⟩
          · intro ⟨other, isOther, isTx, loses⟩
            rcases List.mem_cons.mp isOther with here | later
            · exact Or.inl (here ▸ isTx.symm)
            · exact Or.inr ⟨other, later, isTx, loses⟩
        · exact Or.inr ⟨by simp [scan, result, bind, Except.bind], sanity, other,
            List.mem_cons_of_mem item isOther, missing⟩
      · rcases ih with ⟨txs, result, members⟩ | ⟨result, sanity, other, isOther, missing⟩
        · refine Or.inl ⟨txs, by simp [scan, result, bind, Except.bind, pure, Except.pure],
            fun tx => ?_⟩
          rw [members]
          constructor
          · intro ⟨other, isOther, isTx, loses⟩
            exact ⟨other, List.mem_cons_of_mem item isOther, isTx, loses⟩
          · intro ⟨other, isOther, isTx, loses⟩
            rcases List.mem_cons.mp isOther with here | later
            · subst here
              obtain ⟨txin, member, lost⟩ := loses
              rw [safe txin (isTx ▸ member)] at lost
              contradiction
            · exact ⟨other, later, isTx, loses⟩
        · exact Or.inr ⟨by simp [scan, result, bind, Except.bind], sanity, other,
            List.mem_cons_of_mem item isOther, missing⟩
      · obtain ⟨isAssertion, sanity, missing⟩ := spendsLostCoinbase_eq_error failed
        subst isAssertion
        exact Or.inr ⟨by simp [scan, bind, Except.bind], sanity, item, List.mem_cons_self, txin,
          member, missing⟩

/-- `removeCoinbaseSpends` takes out the spends it lost with all that descends
from them, unless its assertion fails. -/
theorem Exact.removeCoinbaseSpends (exact : Exact pool) (pcoins : UtxoView)
    (nMemPoolHeight : UInt32) :
    (∃ after gone, pool.removeCoinbaseSpends pcoins nMemPoolHeight = .ok after ∧ Exact after ∧
      Removal pool
        (fun hash => ∃ lost entry, pool.mapTx[lost]? = some entry ∧
          pool.LosesCoinbase pcoins nMemPoolHeight entry.tx ∧
          Relation.ReflTransGen pool.Edge lost hash) after gone) ∨
    pool.removeCoinbaseSpends pcoins nMemPoolHeight = .error .assertion ∧
      pool.fSanityCheck = true ∧ ∃ (hash : Uint256) (entry : CTxMemPoolEntry),
        pool.mapTx[hash]? = some entry ∧ ∃ txin ∈ entry.tx.vin,
          pool.mapTx[txin.prevout.hash]? = none ∧ pcoins.coins txin.prevout.hash = none := by
  have found : ∀ item ∈ pool.mapTx.toList, pool.mapTx[item.1]? = some item.2 := fun item =>
    Std.ExtTreeMap.mem_toList_iff_getElem?_eq_some.mp
  rcases lostCoinbaseSpends_cases pool pcoins nMemPoolHeight pool.mapTx.toList with
    ⟨txs, lost, members⟩ | ⟨failed, sanity, item, member, missing⟩
  · left
    have copies : ∀ tx ∈ txs, pool.copyOf tx = tx := by
      intro tx member
      obtain ⟨item, isItem, isTx, _⟩ := (members tx).mp member
      subst isTx
      exact copyOf_of_some (by rw [exact.hash_eq _ _ (found item isItem), found item isItem])
    obtain ⟨after, gone, result, exactAfter, removal⟩ := exact.removeAll txs copies
    refine ⟨after, gone, ?_, exactAfter, removal.congr fun hash entry _ => ?_⟩
    · rw [CTxMemPool.removeCoinbaseSpends, lost]
      exact result
    · constructor
      · intro ⟨tx, isLost, removes⟩
        obtain ⟨item, isItem, isTx, loses⟩ := (members tx).mp isLost
        subst isTx
        exact ⟨item.1, item.2, found item isItem, loses,
          (removes_iff_path (found item isItem) (exact.hash_eq _ _ (found item isItem))).mp removes⟩
      · intro ⟨lost, entry, present, loses, path⟩
        refine ⟨entry.tx, (members entry.tx).mpr ⟨(lost, entry), ?_, rfl, loses⟩, ?_⟩
        · exact Std.ExtTreeMap.mem_toList_iff_getElem?_eq_some.mpr present
        · exact (removes_iff_path present (exact.hash_eq _ _ present)).mpr path
  · right
    refine ⟨?_, sanity, item.1, item.2, found item member, missing⟩
    rw [CTxMemPool.removeCoinbaseSpends, failed]
    rfl

theorem Exact.removeForBlock (exact : Exact pool) (vtx conflicts : List CTransaction) :
    ∃ after all, pool.removeForBlock vtx conflicts = .ok (after, all) ∧ Exact after := by
  induction vtx generalizing pool conflicts with
  | nil => exact ⟨pool, conflicts, rfl, exact⟩
  | cons tx rest ih =>
      obtain ⟨middle, _, removed, exactMiddle, _⟩ := exact.remove tx [] false
      obtain ⟨next, found, cleared, exactNext, _⟩ := exactMiddle.removeConflicts tx conflicts
      obtain ⟨after, all, result, exactAfter⟩ :=
        ih (exactNext.clearPrioritisation tx.hash) (conflicts ++ found)
      refine ⟨after, all, ?_, exactAfter⟩
      rw [CTxMemPool.removeForBlock, List.foldlM_cons]
      simp only [removed, bind, Except.bind, cleared, pure, Except.pure]
      exact result

inductive Call where
  | addUnchecked (entry : CTxMemPoolEntry)
  | remove (tx : CTransaction) (fRecursive : Bool)
  | removeConflicts (tx : CTransaction)
  | removeForBlock (vtx : List CTransaction)
  | removeCoinbaseSpends (pcoins : UtxoView) (nMemPoolHeight : UInt32)
  | clear

def call (pool : CTxMemPool) : Call → Except PoolFault CTxMemPool
  | .addUnchecked entry => .ok (pool.addUnchecked entry.tx.hash entry)
  | .remove tx fRecursive => Prod.fst <$> pool.remove tx [] fRecursive
  | .removeConflicts tx => Prod.fst <$> pool.removeConflicts tx []
  | .removeForBlock vtx => Prod.fst <$> pool.removeForBlock vtx []
  | .removeCoinbaseSpends pcoins nMemPoolHeight => pool.removeCoinbaseSpends pcoins nMemPoolHeight
  | .clear => .ok pool.clear

def Admissible (pool : CTxMemPool) : Call → Prop
  | .addUnchecked entry => pool.Addable entry
  | _ => True

/-- The pools that calls build up from an empty one. -/
inductive Reachable : CTxMemPool → Prop
  | start (fSanityCheck : Bool) : Reachable { new with fSanityCheck }
  | step {pool after : CTxMemPool} {request : Call} (reachable : Reachable pool)
      (admissible : pool.Admissible request) (returns : pool.call request = .ok after) :
      Reachable after

/-- An admissible call returns with the pool in order, unless the assertion of
`removeCoinbaseSpends` fails. -/
theorem Exact.call (exact : Exact pool) (request : Call) (admissible : pool.Admissible request) :
    (∃ after, pool.call request = .ok after ∧ Exact after) ∨
    pool.call request = .error .assertion ∧ pool.fSanityCheck = true ∧
      ∃ pcoins nMemPoolHeight, request = .removeCoinbaseSpends pcoins nMemPoolHeight := by
  cases request with
  | addUnchecked entry => exact Or.inl ⟨_, rfl, exact.addUnchecked admissible⟩
  | remove tx fRecursive =>
      obtain ⟨after, gone, result, exactAfter, _⟩ := exact.remove tx [] fRecursive
      exact Or.inl ⟨after, by rw [CTxMemPool.call, result]; rfl, exactAfter⟩
  | removeConflicts tx =>
      obtain ⟨after, gone, result, exactAfter, _⟩ := exact.removeConflicts tx []
      exact Or.inl ⟨after, by rw [CTxMemPool.call, result]; rfl, exactAfter⟩
  | removeForBlock vtx =>
      obtain ⟨after, conflicts, result, exactAfter⟩ := exact.removeForBlock vtx []
      exact Or.inl ⟨after, by rw [CTxMemPool.call, result]; rfl, exactAfter⟩
  | removeCoinbaseSpends pcoins nMemPoolHeight =>
      rcases exact.removeCoinbaseSpends pcoins nMemPoolHeight with
        ⟨after, _, result, exactAfter, _⟩ | ⟨failed, sanity, _⟩
      · exact Or.inl ⟨after, result, exactAfter⟩
      · exact Or.inr ⟨failed, sanity, pcoins, nMemPoolHeight, rfl⟩
  | clear => exact Or.inl ⟨_, rfl, exact.clear⟩

theorem Reachable.exact (reachable : Reachable pool) : Exact pool := by
  induction reachable with
  | start fSanityCheck =>
      exact { hash_eq := exact_new.hash_eq, next_iff := exact_new.next_iff,
              size_eq := exact_new.size_eq }
  | @step pool after request _ admissible returns ih =>
      rcases ih.call request admissible with ⟨result, isResult, exactResult⟩ | ⟨failed, _⟩
      · rw [returns] at isResult
        cases isResult
        exact exactResult
      · rw [returns] at failed
        contradiction

/-- In every pool that admissible calls build up, the two maps and the total
agree, a recursive removal takes out the transaction with its descendants and
lists each once, `removeConflicts` leaves no conflict, and calls return. -/
theorem reachable_exact_removals (reachable : Reachable pool) :
    Exact pool ∧
    (∀ origTx removed, ∃ after gone,
      pool.remove origTx removed true = .ok (after, removed ++ gone) ∧
        Removal pool
          (fun hash => hash = origTx.hash ∨ pool.DescendsFrom (pool.copyOf origTx) hash)
          after gone) ∧
    (∀ tx removed, ∃ after gone, pool.removeConflicts tx removed = .ok (after, removed ++ gone) ∧
      ∀ (hash : Uint256) (entry : CTxMemPoolEntry), after.mapTx[hash]? = some entry →
        hash ≠ tx.hash →
          (∀ txin ∈ entry.tx.vin, ∀ own ∈ tx.vin, txin.prevout ≠ own.prevout) ∧
          ¬pool.ConflictsAt tx tx.vin hash) ∧
    ∀ request, pool.Admissible request →
      (∃ after, pool.call request = .ok after) ∨
      pool.call request = .error .assertion ∧ pool.fSanityCheck = true ∧
        ∃ pcoins nMemPoolHeight, request = .removeCoinbaseSpends pcoins nMemPoolHeight := by
  have exact := reachable.exact
  refine ⟨exact, ?_, ?_, ?_⟩
  · intro origTx removed
    obtain ⟨after, gone, result, _, removal⟩ := exact.remove origTx removed true
    exact ⟨after, gone, result, removal.congr fun hash _ _ => by simp [Removes]⟩
  · intro tx removed
    obtain ⟨after, gone, result, _, removal⟩ := exact.removeConflicts tx removed
    refine ⟨after, gone, result, fun hash entry found different => ?_⟩
    obtain ⟨present, stays⟩ := removal.lookup.mp found
    refine ⟨fun txin member own isOwn same => stays ?_, stays⟩
    exact ⟨hash, entry, present, different, ⟨txin, member, own, isOwn, same⟩, .refl⟩
  · intro request admissible
    rcases exact.call request admissible with ⟨after, result, _⟩ | failed
    · exact Or.inl ⟨after, result⟩
    · exact Or.inr failed

/-- Transaction `hash` with one input for each previous transaction and two
outputs. -/
def plainEntry (hash : Uint256) (prevs : List COutPoint) : CTxMemPoolEntry :=
  { tx :=
      { hash
        nVersion := 1
        vin := prevs.map fun prevout => { prevout, scriptSig := [], nSequence := 0 }
        vout := [{ nValue := 1, scriptPubKey := [] }, { nValue := 2, scriptPubKey := [] }]
        nLockTime := 0 }
    nFee := 0
    nTxSize := 100
    nModSize := 100
    nTime := 0
    dPriority := 0
    nHeight := 1 }

/-- Transaction 2 spends both outputs of transaction 1, which spends one of a
transaction 9 outside the pool. -/
def poolOfTwo : CTxMemPool :=
  (new.addUnchecked 1 (plainEntry 1 [⟨9, 0⟩])).addUnchecked 2 (plainEntry 2 [⟨1, 0⟩, ⟨1, 1⟩])

theorem reachable_poolOfTwo : Reachable poolOfTwo := by
  have first : Admissible new (.addUnchecked (plainEntry 1 [⟨9, 0⟩])) :=
    { absent := rfl, distinct := by decide, unspent := by decide }
  have second : Admissible (new.addUnchecked 1 (plainEntry 1 [⟨9, 0⟩]))
      (.addUnchecked (plainEntry 2 [⟨1, 0⟩, ⟨1, 1⟩])) :=
    { absent := rfl, distinct := by decide, unspent := by decide }
  exact .step (.step (.start false) first rfl) second rfl

theorem poolOfTwo_exact_removals :
    Exact poolOfTwo ∧
    ∃ after gone, poolOfTwo.remove (plainEntry 9 []).tx [] true = .ok (after, [] ++ gone) ∧
      Removal poolOfTwo
        (fun hash => hash = 9 ∨ poolOfTwo.DescendsFrom (poolOfTwo.copyOf (plainEntry 9 []).tx) hash)
        after gone :=
  ⟨(reachable_exact_removals reachable_poolOfTwo).1,
    (reachable_exact_removals reachable_poolOfTwo).2.1 (plainEntry 9 []).tx []⟩

end Lycancoin.CTxMemPool
