import Lycancoin.Mempool.PoolIndex

namespace Lycancoin.CTxMemPool

open Lycancoin.Data

variable {pool middle after : CTxMemPool} {hash child : Uint256} {entry : CTxMemPoolEntry}
  {doomed first second : Uint256 → Prop} {gone earlier later : List CTransaction}
  {tx origTx : CTransaction}

namespace Removal

theorem refl (pool : CTxMemPool) : Removal pool (fun _ => False) pool [] where
  nodup := List.nodup_nil
  gone_iff := by simp
  erased := by simp
  kept _ _ := rfl
  fSanityCheck := rfl

theorem lookup (removal : Removal pool doomed after gone) :
    after.mapTx[hash]? = some entry ↔ pool.mapTx[hash]? = some entry ∧ ¬doomed hash := by
  by_cases lost : doomed hash
  · simp [removal.erased hash lost, lost]
  · simp [removal.kept hash lost, lost]

theorem congr (removal : Removal pool first after gone)
    (same : ∀ (hash : Uint256) (entry : CTxMemPoolEntry), pool.mapTx[hash]? = some entry →
      (first hash ↔ second hash)) :
    Removal pool second after gone where
  nodup := removal.nodup
  gone_iff tx := by
    rw [removal.gone_iff]
    constructor
    · intro ⟨lost, entry, present, isTx⟩
      exact ⟨(same _ _ present).mp lost, entry, present, isTx⟩
    · intro ⟨lost, entry, present, isTx⟩
      exact ⟨(same _ _ present).mpr lost, entry, present, isTx⟩
  erased hash lost := by
    cases present : pool.mapTx[hash]? with
    | some entry => exact removal.erased hash ((same hash entry present).mpr lost)
    | none =>
        by_cases was : first hash
        · exact removal.erased hash was
        · rw [removal.kept hash was, present]
  kept hash remains := by
    cases present : pool.mapTx[hash]? with
    | some entry =>
        rw [removal.kept hash (fun lost => remains ((same hash entry present).mp lost)), present]
    | none =>
        by_cases was : first hash
        · exact removal.erased hash was
        · rw [removal.kept hash was, present]
  fSanityCheck := removal.fSanityCheck

theorem trans (start : Removal pool first middle earlier)
    (next : Removal middle second after later) :
    Removal pool (fun hash => first hash ∨ second hash) after (earlier ++ later) where
  nodup := by
    rw [List.map_append, List.nodup_append]
    refine ⟨start.nodup, next.nodup, ?_⟩
    intro hash before other afterwards same
    subst same
    obtain ⟨tx, isEarlier, isHash⟩ := List.mem_map.mp before
    obtain ⟨own, isLater, sameHash⟩ := List.mem_map.mp afterwards
    obtain ⟨_, entry, present, _⟩ := (next.gone_iff own).mp isLater
    have lost := ((start.gone_iff tx).mp isEarlier).1
    exact (start.lookup.mp present).2 (by rwa [sameHash, ← isHash])
  gone_iff tx := by
    rw [List.mem_append, start.gone_iff, next.gone_iff]
    constructor
    · intro either
      rcases either with ⟨lost, entry, present, isTx⟩ | ⟨lost, entry, present, isTx⟩
      · exact ⟨Or.inl lost, entry, present, isTx⟩
      · exact ⟨Or.inr lost, entry, (start.lookup.mp present).1, isTx⟩
    · intro ⟨either, entry, present, isTx⟩
      by_cases lost : first tx.hash
      · exact Or.inl ⟨lost, entry, present, isTx⟩
      · exact Or.inr ⟨either.resolve_left lost, entry, start.lookup.mpr ⟨present, lost⟩, isTx⟩
  erased hash either := by
    by_cases lost : second hash
    · exact next.erased hash lost
    · rw [next.kept hash lost, start.erased hash (either.resolve_right lost)]
  kept hash neither := by
    rw [next.kept hash fun lost => neither (Or.inr lost),
      start.kept hash fun lost => neither (Or.inl lost)]
  fSanityCheck := next.fSanityCheck.trans start.fSanityCheck

theorem eraseEntry (exact : Exact pool) (found : pool.mapTx[hash]? = some entry) :
    Removal pool (· = hash) (pool.eraseEntry hash entry) [entry.tx] where
  nodup := List.nodup_singleton _
  gone_iff tx := by
    rw [List.mem_singleton]
    constructor
    · intro same
      subst same
      have own := exact.hash_eq hash entry found
      exact ⟨own, entry, by rw [own, found], rfl⟩
    · intro ⟨same, second, present, isTx⟩
      rw [same, found] at present
      cases present
      exact isTx.symm
  erased other same := by
    subst same
    exact Std.ExtTreeMap.getElem?_erase_self
  kept other different := by
    simp only [CTxMemPool.eraseEntry, Std.ExtTreeMap.getElem?_erase, Std.compare_eq_iff_eq,
      Ne.symm different, if_false]
  fSanityCheck := rfl

/-- The edges between the entries that remain. -/
theorem edge_iff (removal : Removal pool doomed after gone) {parent : Uint256} :
    after.Edge parent child ↔ pool.Edge parent child ∧ ¬doomed parent ∧ ¬doomed child := by
  constructor
  · intro ⟨source, target, isParent, isChild, spends⟩
    have parentOf := removal.lookup.mp isParent
    have childOf := removal.lookup.mp isChild
    exact ⟨⟨source, target, parentOf.1, childOf.1, spends⟩, parentOf.2, childOf.2⟩
  · intro ⟨⟨source, target, isParent, isChild, spends⟩, parentStays, childStays⟩
    exact ⟨source, target, removal.lookup.mpr ⟨isParent, parentStays⟩,
      removal.lookup.mpr ⟨isChild, childStays⟩, spends⟩

end Removal

def Follows (pool : CTxMemPool) (fRecursive : Bool) (parent child : Uint256) : Prop :=
  fRecursive = true ∧ pool.Edge parent child

theorem edge_iff_of_found (found : pool.mapTx[hash]? = some entry) :
    pool.Edge hash child ↔
      ∃ target, pool.mapTx[child]? = some target ∧ target.tx.SpendsOutputOf entry.tx := by
  constructor
  · intro ⟨source, target, isParent, isChild, spends⟩
    rw [found] at isParent
    cases isParent
    exact ⟨target, isChild, spends⟩
  · intro ⟨target, isChild, spends⟩
    exact ⟨entry, target, found, isChild, spends⟩

/-- What the queue looks like after a pass that removes an entry. -/
theorem Exact.queueNext (exact : Exact pool) (fRecursive : Bool)
    (found : pool.mapTx[hash]? = some entry) (queue : List Uint256) :
    ∃ next : List Uint256,
      (if fRecursive then pool.queueSpenders hash entry.tx queue else pure queue) =
        Except.ok (queue ++ next) ∧
      next.length ≤ entry.tx.vout.length ∧
      ∀ child, child ∈ next ↔ pool.Follows fRecursive hash child := by
  cases fRecursive with
  | false => exact ⟨[], by simp [pure, Except.pure], by simp, by simp [Follows]⟩
  | true =>
      obtain ⟨next, result, short, members⟩ := exact.queueSpenders entry.tx queue
      rw [exact.hash_eq hash entry found] at result
      refine ⟨next, by simpa using result, short, fun child => ?_⟩
      rw [members, Follows, edge_iff_of_found found]
      simp

def outputs (pool : CTxMemPool) : Int :=
  KeyedTotal.total (fun entry : CTxMemPoolEntry => (entry.tx.vout.length : Int)) pool.mapTx

theorem outputs_nonneg (pool : CTxMemPool) : 0 ≤ pool.outputs :=
  KeyedTotal.total_nonneg (fun _ => Int.natCast_nonneg _) _

theorem outputs_eraseEntry (found : pool.mapTx[hash]? = some entry) :
    (pool.eraseEntry hash entry).outputs = pool.outputs - entry.tx.vout.length := by
  rw [outputs, CTxMemPool.eraseEntry, KeyedTotal.total_erase, found, Option.elim_some, outputs]

theorem removeLoop_of_some {fRecursive : Bool} {passes : Nat} {queue : List Uint256}
    {removed : List CTransaction} (found : pool.mapTx[hash]? = some entry) :
    CTxMemPool.removeLoop fRecursive (passes + 1) pool (hash :: queue) removed =
      (if fRecursive then pool.queueSpenders hash entry.tx queue else pure queue) >>= fun queue =>
        CTxMemPool.removeLoop fRecursive passes (pool.eraseEntry hash entry) queue
          (removed ++ [entry.tx]) := by
  rw [CTxMemPool.removeLoop, found]
  cases fRecursive <;> rfl

/-- The loop of `remove` ends, and carries its sweep to the end. -/
theorem Exact.removeLoop (fRecursive : Bool) {seeds : List Uint256} (removed : List CTransaction)
    (passes : Nat) (queue : List Uint256) (exact : Exact middle)
    (removal : Removal pool (· ∈ earlier.map CTransaction.hash) middle earlier)
    (sweep : Sweep (pool.Follows fRecursive) (fun hash => (pool.mapTx[hash]?).isSome) seeds
      (earlier.map CTransaction.hash) queue)
    (enough : queue.length + middle.outputs ≤ passes) :
    ∃ after gone, removeLoop fRecursive passes middle queue (removed ++ earlier) =
        .ok (after, removed ++ gone) ∧
      Exact after ∧ Removal pool (· ∈ gone.map CTransaction.hash) after gone ∧
      Sweep (pool.Follows fRecursive) (fun hash => (pool.mapTx[hash]?).isSome) seeds
        (gone.map CTransaction.hash) [] := by
  induction passes generalizing middle queue earlier with
  | zero =>
      cases queue with
      | nil => exact ⟨middle, earlier, by rw [CTxMemPool.removeLoop], exact, removal, sweep⟩
      | cons hash queue =>
          have positive := outputs_nonneg middle
          simp only [List.length_cons] at enough
          omega
  | succ passes ih =>
      cases queue with
      | nil => exact ⟨middle, earlier, by rw [CTxMemPool.removeLoop], exact, removal, sweep⟩
      | cons hash queue =>
          simp only [List.length_cons] at enough
          cases found : middle.mapTx[hash]? with
          | none =>
              rw [CTxMemPool.removeLoop, found]
              refine ih queue exact removal (sweep.skip ?_ ?_) (by omega)
              · intro present
                by_contra remains
                rw [← removal.kept hash remains, found] at present
                contradiction
              · intro before next ⟨_, _, target, _, isNext, _⟩
                simp [isNext]
          | some entry =>
              obtain ⟨next, result, short, members⟩ := exact.queueNext fRecursive found queue
              have own := exact.hash_eq hash entry found
              have before := removal.lookup.mp found
              have total := outputs_eraseEntry found
              have gone : (earlier ++ [entry.tx]).map CTransaction.hash =
                  earlier.map CTransaction.hash ++ [hash] := by simp [own]
              rw [removeLoop_of_some found, result, List.append_assoc]
              refine ih (queue ++ next) (exact.eraseEntry found) ?_ ?_ ?_
              · refine (removal.trans (Removal.eraseEntry exact found)).congr
                  fun other _ _ => ?_
                rw [gone, List.mem_append, List.mem_singleton]
              · rw [gone]
                refine sweep.take (by simp [before.1]) before.2 ?_ ?_
                · intro other queued
                  obtain ⟨recursive, step⟩ := (members other).mp queued
                  exact ⟨recursive, (removal.edge_iff.mp step).1⟩
                · intro other ⟨recursive, step⟩
                  by_cases lost : other ∈ earlier.map CTransaction.hash
                  · exact Or.inl lost
                  · exact Or.inr ((members other).mpr
                      ⟨recursive, removal.edge_iff.mpr ⟨step, before.2, lost⟩⟩)
              · rw [List.length_append]
                omega

def Removes (pool : CTxMemPool) (origTx : CTransaction) (fRecursive : Bool) (hash : Uint256) :
    Prop :=
  hash = origTx.hash ∨ fRecursive = true ∧ pool.DescendsFrom (pool.copyOf origTx) hash

theorem copyOf_of_some (found : pool.mapTx[origTx.hash]? = some entry) :
    pool.copyOf origTx = entry.tx := by
  rw [copyOf, found, Option.elim_some]

theorem copyOf_of_none (absent : pool.mapTx[origTx.hash]? = none) :
    pool.copyOf origTx = origTx := by
  rw [copyOf, absent, Option.elim_none]

theorem reflTransGen_follows {parent : Uint256} :
    Relation.ReflTransGen (pool.Follows true) parent child ↔
      Relation.ReflTransGen pool.Edge parent child := by
  have same : pool.Follows true = pool.Edge := by
    funext before next
    simp [Follows]
  rw [same]

theorem eq_of_follows_false {parent : Uint256}
    (path : Relation.ReflTransGen (pool.Follows false) parent child) : child = parent := by
  induction path with
  | refl => rfl
  | tail _ step _ =>
      obtain ⟨recursive, _⟩ := step
      contradiction

/-- What a walk from the transaction itself reaches. -/
theorem reached_self (fRecursive : Bool)
    (found : pool.mapTx[origTx.hash]? = some entry) :
    Reached (pool.Follows fRecursive) [origTx.hash] hash ↔
      pool.Removes origTx fRecursive hash := by
  rw [Removes, copyOf_of_some found]
  simp only [Reached, List.mem_singleton, exists_eq_left]
  cases fRecursive with
  | false =>
      simp only [Bool.false_eq_true, false_and, or_false]
      constructor
      · exact eq_of_follows_false
      · intro same
        rw [same]
  | true =>
      rw [reflTransGen_follows, Relation.ReflTransGen.cases_head_iff]
      simp only [true_and]
      constructor
      · intro either
        rcases either with same | ⟨child, step, path⟩
        · exact Or.inl same.symm
        · obtain ⟨target, isChild, spends⟩ := (edge_iff_of_found found).mp step
          exact Or.inr ⟨child, target, isChild, spends, path⟩
      · intro either
        rcases either with same | ⟨child, target, isChild, spends, path⟩
        · exact Or.inl same.symm
        · exact Or.inr ⟨child, (edge_iff_of_found found).mpr ⟨target, isChild, spends⟩,
            path⟩

/-- `remove` takes out the transaction, together with all its descendants when
it is recursive, and lists each of them once. -/
theorem Exact.remove (exact : Exact pool) (origTx : CTransaction) (removed : List CTransaction)
    (fRecursive : Bool) :
    ∃ after gone, pool.remove origTx removed fRecursive = .ok (after, removed ++ gone) ∧
      Exact after ∧ Removal pool (pool.Removes origTx fRecursive) after gone := by
  have sources : ∀ before next, pool.Follows fRecursive before next →
      (pool.mapTx[before]?).isSome := by
    intro before next ⟨_, source, _, isBefore, _⟩
    simp [isBefore]
  -- Both ways to start the queue end in the same sweep.
  have run : ∀ seeds, (∀ hash entry, pool.mapTx[hash]? = some entry →
        (Reached (pool.Follows fRecursive) seeds hash ↔ pool.Removes origTx fRecursive hash)) →
      ∃ after gone, CTxMemPool.removeLoop fRecursive (pool.passes seeds) pool seeds removed =
          .ok (after, removed ++ gone) ∧
        Exact after ∧ Removal pool (pool.Removes origTx fRecursive) after gone := by
    intro seeds reached
    have enough : seeds.length + pool.outputs ≤ pool.passes seeds := by
      have positive := outputs_nonneg pool
      rw [passes, ← outputs]
      omega
    obtain ⟨after, gone, result, exactAfter, removal, sweep⟩ :=
      exact.removeLoop fRecursive removed (pool.passes seeds) seeds
        ((Removal.refl pool).congr (by simp)) (Sweep.start seeds) enough
    rw [List.append_nil] at result
    refine ⟨after, gone, result, exactAfter, removal.congr fun hash entry found => ?_⟩
    rw [sweep.finish sources, found, reached hash entry found]
    simp
  rw [CTxMemPool.remove]
  cases found : pool.mapTx[origTx.hash]? with
  | some entry =>
      have present : pool.mapTx.contains origTx.hash = true := by
        rw [Std.ExtTreeMap.contains_eq_isSome_getElem?, found, Option.isSome_some]
      simp only [present, Bool.not_true, Bool.and_false, Bool.false_eq_true, if_false]
      exact run [origTx.hash] fun hash _ _ => reached_self fRecursive found
  | none =>
      have absent : pool.mapTx.contains origTx.hash = false := by
        rw [Std.ExtTreeMap.contains_eq_isSome_getElem?, found, Option.isSome_none]
      simp only [absent, Bool.not_false, Bool.and_true]
      cases fRecursive with
      | false =>
          refine run [origTx.hash] fun hash entry present => ?_
          have different : hash ≠ origTx.hash := by
            intro same
            rw [same, found] at present
            contradiction
          simp only [Removes, different, Bool.false_eq_true, false_and, or_self, iff_false]
          intro ⟨seed, isSeed, path⟩
          rw [List.mem_singleton] at isSeed
          exact different ((eq_of_follows_false path).trans isSeed)
      | true =>
          obtain ⟨next, result, _, members⟩ := exact.queueSpenders origTx [origTx.hash]
          simp only [if_true, result, bind, Except.bind]
          refine run _ fun hash entry present => ?_
          rw [Removes, copyOf_of_none found]
          simp only [true_and]
          constructor
          · intro ⟨seed, isSeed, path⟩
            rw [reflTransGen_follows] at path
            simp only [List.singleton_append, List.mem_cons] at isSeed
            rcases isSeed with same | queued
            · subst same
              cases path.cases_head with
              | inl same => exact Or.inl same.symm
              | inr step =>
                  obtain ⟨_, ⟨source, _, isSource, _⟩, _⟩ := step
                  rw [found] at isSource
                  contradiction
            · obtain ⟨target, isChild, spends⟩ := (members seed).mp queued
              exact Or.inr ⟨seed, target, isChild, spends, path⟩
          · intro either
            rcases either with same | ⟨child, target, isChild, spends, path⟩
            · rw [same, found] at present
              contradiction
            · refine ⟨child, ?_, reflTransGen_follows.mpr path⟩
              exact List.mem_append_right _ ((members child).mpr ⟨target, isChild, spends⟩)

end Lycancoin.CTxMemPool
