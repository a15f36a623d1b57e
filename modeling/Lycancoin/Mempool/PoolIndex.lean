import Lycancoin.Mempool.TxMemPool
import Lycancoin.Data.KeyedBatch

namespace Lycancoin.CTxMemPool

open Lycancoin.Data

variable {pool : CTxMemPool} {hash : Uint256} {entry : CTxMemPoolEntry} {outpoint : COutPoint}

theorem exact_new : Exact new where
  hash_eq hash entry found := by simp [new] at found
  next_iff outpoint inpoint := by simp [new]
  size_eq := by simp [new]

/-- What `AcceptToMemoryPool` makes sure of before it adds an entry. -/
structure Addable (pool : CTxMemPool) (entry : CTxMemPoolEntry) : Prop where
  absent : pool.mapTx[entry.tx.hash]? = none
  distinct : (entry.tx.vin.map CTxIn.prevout).Nodup
  unspent : ∀ txin ∈ entry.tx.vin, pool.mapNextTx[txin.prevout]? = none

theorem getElem?_insert_self_or (map : Std.ExtTreeMap Uint256 CTxMemPoolEntry)
    (hash other : Uint256) (entry : CTxMemPoolEntry) :
    (map.insert hash entry)[other]? = if hash = other then some entry else map[other]? := by
  simp only [Std.ExtTreeMap.getElem?_insert, Std.compare_eq_iff_eq]

theorem vin_of_mem_zipIdx {vin : List CTxIn} {item : CTxIn × Nat} (member : item ∈ vin.zipIdx) :
    vin[item.2]? = some item.1 := List.mem_zipIdx_iff_getElem?.mp member

theorem map_prevout_zipIdx (vin : List CTxIn) :
    (vin.zipIdx.map fun item => item.1.prevout) = vin.map CTxIn.prevout := by
  calc (vin.zipIdx.map fun item => item.1.prevout)
      = (vin.zipIdx.map Prod.fst).map CTxIn.prevout := by rw [List.map_map]; rfl
    _ = vin.map CTxIn.prevout := by rw [List.zipIdx_map_fst]

theorem Exact.addUnchecked (exact : Exact pool) (addable : Addable pool entry) :
    Exact (pool.addUnchecked entry.tx.hash entry) where
  hash_eq hash found lookup := by
    simp only [CTxMemPool.addUnchecked, getElem?_insert_self_or] at lookup
    split at lookup
    · rename_i same
      cases lookup
      exact same
    · exact exact.hash_eq hash found lookup
  next_iff outpoint inpoint := by
    have distinct : (entry.tx.vin.zipIdx.map fun item => item.1.prevout).Nodup := by
      rw [map_prevout_zipIdx]
      exact addable.distinct
    have inserted := KeyedBatch.getElem?_foldl_insert
      (fun item : CTxIn × Nat => item.1.prevout)
      (fun item => ({ ptx := entry.tx.hash, n := item.2 } : CInPoint))
      pool.mapNextTx distinct outpoint inpoint
    rw [map_prevout_zipIdx] at inserted
    simp only [CTxMemPool.addUnchecked, getElem?_insert_self_or]
    rw [inserted]
    constructor
    · intro either
      rcases either with ⟨item, member, sameOutpoint, sameInpoint⟩ | ⟨_, old⟩
      · subst sameInpoint
        refine ⟨entry, if_pos rfl, ?_⟩
        rw [vin_of_mem_zipIdx member, Option.map_some, sameOutpoint]
      · obtain ⟨spender, found, spends⟩ := (exact.next_iff outpoint inpoint).mp old
        refine ⟨spender, ?_, spends⟩
        rw [if_neg, found]
        intro same
        rw [← same, addable.absent] at found
        contradiction
    · intro ⟨spender, found, spends⟩
      obtain ⟨txin, there, isOutpoint⟩ := Option.map_eq_some_iff.mp spends
      split at found
      · rename_i same
        cases found
        left
        refine ⟨(txin, inpoint.n), List.mem_zipIdx_iff_getElem?.mpr there, isOutpoint, ?_⟩
        rw [same]
      · have old := (exact.next_iff outpoint inpoint).mpr ⟨spender, found, spends⟩
        right
        refine ⟨fun member => ?_, old⟩
        obtain ⟨own, isOwn, sameOutpoint⟩ := List.mem_map.mp member
        have unspent := addable.unspent own isOwn
        rw [sameOutpoint, old] at unspent
        contradiction
  size_eq := by
    have before := exact.size_eq
    simp only [CTxMemPool.addUnchecked, UInt64.toNat_add, UInt64.toNat_ofNat']
    rw [KeyedTotal.total_insert, addable.absent, Option.elim_none]
    omega

/-- The owner of the input that spends an outpoint. -/
theorem Exact.spender (exact : Exact pool) (found : pool.mapTx[hash]? = some entry) {txin : CTxIn}
    (member : txin ∈ entry.tx.vin) :
    ∃ n, pool.mapNextTx[txin.prevout]? = some { ptx := hash, n } := by
  obtain ⟨n, there⟩ := List.getElem?_of_mem member
  refine ⟨n, (exact.next_iff txin.prevout { ptx := hash, n }).mpr ⟨entry, found, ?_⟩⟩
  rw [there, Option.map_some]

theorem Exact.spender_unique (exact : Exact pool) {other : Uint256} {second : CTxMemPoolEntry}
    (found : pool.mapTx[hash]? = some entry) (foundOther : pool.mapTx[other]? = some second)
    {txin own : CTxIn} (member : txin ∈ entry.tx.vin) (memberOther : own ∈ second.tx.vin)
    (same : txin.prevout = own.prevout) : hash = other := by
  obtain ⟨n, first⟩ := exact.spender found member
  obtain ⟨m, next⟩ := exact.spender foundOther memberOther
  rw [same, next] at first
  cases first
  rfl

theorem Exact.eraseEntry (exact : Exact pool) (found : pool.mapTx[hash]? = some entry) :
    Exact (pool.eraseEntry hash entry) where
  hash_eq other second lookup := by
    simp only [CTxMemPool.eraseEntry, Std.ExtTreeMap.getElem?_erase] at lookup
    split at lookup
    · contradiction
    · exact exact.hash_eq other second lookup
  next_iff outpoint inpoint := by
    simp only [CTxMemPool.eraseEntry]
    rw [KeyedBatch.getElem?_foldl_erase CTxIn.prevout]
    simp only [Std.ExtTreeMap.getElem?_erase, Std.compare_eq_iff_eq]
    constructor
    · intro lookup
      split at lookup
      · contradiction
      · rename_i remains
        obtain ⟨spender, foundSpender, spends⟩ := (exact.next_iff outpoint inpoint).mp lookup
        refine ⟨spender, ?_, spends⟩
        rw [if_neg, foundSpender]
        intro same
        rw [← same, found] at foundSpender
        cases foundSpender
        obtain ⟨txin, there, isOutpoint⟩ := Option.map_eq_some_iff.mp spends
        exact remains (List.mem_map.mpr ⟨txin, List.mem_of_getElem? there, isOutpoint⟩)
    · intro ⟨spender, lookup, spends⟩
      split at lookup
      · contradiction
      · rename_i different
        rw [if_neg]
        · exact (exact.next_iff outpoint inpoint).mpr ⟨spender, lookup, spends⟩
        · intro member
          obtain ⟨own, isOwn, isOutpoint⟩ := List.mem_map.mp member
          obtain ⟨txin, there, same⟩ := Option.map_eq_some_iff.mp spends
          exact different (exact.spender_unique found lookup isOwn (List.mem_of_getElem? there)
            (isOutpoint.trans same.symm))
  size_eq := by
    have before := exact.size_eq
    simp only [CTxMemPool.eraseEntry, UInt64.toNat_sub, UInt64.toNat_ofNat']
    rw [KeyedTotal.total_erase, found, Option.elim_some]
    omega

/-- A pointer that `mapNextTx` holds leads to the entry it names. -/
theorem Exact.deref (exact : Exact pool) {inpoint : CInPoint}
    (found : pool.mapNextTx[outpoint]? = some inpoint) :
    ∃ entry, pool.mapTx[inpoint.ptx]? = some entry ∧ pool.deref inpoint = .ok entry.tx ∧
      entry.tx.hash = inpoint.ptx ∧ ∃ txin ∈ entry.tx.vin, txin.prevout = outpoint := by
  obtain ⟨entry, present, spends⟩ := (exact.next_iff outpoint inpoint).mp found
  obtain ⟨txin, there, isOutpoint⟩ := Option.map_eq_some_iff.mp spends
  refine ⟨entry, present, ?_, exact.hash_eq _ _ present, txin, List.mem_of_getElem? there,
    isOutpoint⟩
  rw [CTxMemPool.deref, present]

theorem Exact.queueAt (exact : Exact pool) (hash : Uint256) (indices : List Nat)
    (queue : List Uint256) :
    ∃ next : List Uint256,
      indices.foldlM
        (fun queue i =>
          match pool.mapNextTx[({ hash, n := UInt32.ofNat i } : COutPoint)]? with
          | none => .ok queue
          | some inpoint => do
              let spender ← pool.deref inpoint
              pure (queue ++ [spender.hash]))
        queue = Except.ok (queue ++ next) ∧
      next.length ≤ indices.length ∧
      ∀ child, child ∈ next ↔ ∃ entry, pool.mapTx[child]? = some entry ∧
        ∃ txin ∈ entry.tx.vin, ∃ i ∈ indices, txin.prevout = { hash, n := UInt32.ofNat i } := by
  induction indices generalizing queue with
  | nil => exact ⟨[], by simp [pure, Except.pure], by simp, by simp⟩
  | cons i rest ih =>
      rw [List.foldlM_cons]
      cases found : pool.mapNextTx[({ hash, n := UInt32.ofNat i } : COutPoint)]? with
      | none =>
          obtain ⟨next, result, short, members⟩ := ih queue
          refine ⟨next, result, by simp only [List.length_cons]; omega, fun child => ?_⟩
          rw [members]
          constructor
          · intro ⟨entry, present, txin, member, j, later, same⟩
            exact ⟨entry, present, txin, member, j, List.mem_cons_of_mem i later, same⟩
          · intro ⟨entry, present, txin, member, j, among, same⟩
            rcases List.mem_cons.mp among with here | later
            · subst here
              obtain ⟨n, spent⟩ := exact.spender present member
              rw [same, found] at spent
              contradiction
            · exact ⟨entry, present, txin, member, j, later, same⟩
      | some inpoint =>
          obtain ⟨entry, present, target, isHash, txin, member, isOutpoint⟩ := exact.deref found
          obtain ⟨next, result, short, members⟩ := ih (queue ++ [inpoint.ptx])
          refine ⟨inpoint.ptx :: next, ?_, by simp only [List.length_cons]; omega, fun child => ?_⟩
          · simp only [target, isHash, bind, Except.bind, pure, Except.pure] at result ⊢
            rw [result, List.append_assoc, List.singleton_append]
          · rw [List.mem_cons, members]
            constructor
            · intro either
              rcases either with same | ⟨other, found', own, memberOwn, j, later, same⟩
              · subst same
                exact ⟨entry, present, txin, member, i, List.mem_cons_self, isOutpoint⟩
              · exact ⟨other, found', own, memberOwn, j, List.mem_cons_of_mem i later, same⟩
            · intro ⟨other, found', own, memberOwn, j, among, same⟩
              rcases List.mem_cons.mp among with here | later
              · subst here
                exact Or.inl (exact.spender_unique found' present memberOwn member
                  (same.trans isOutpoint.symm))
              · exact Or.inr ⟨other, found', own, memberOwn, j, later, same⟩

/-- The loop of `remove` over `vout` queues the spenders of `tx`. -/
theorem Exact.queueSpenders (exact : Exact pool) (tx : CTransaction) (queue : List Uint256) :
    ∃ next : List Uint256, pool.queueSpenders tx.hash tx queue = .ok (queue ++ next) ∧
      next.length ≤ tx.vout.length ∧
      ∀ child, child ∈ next ↔ ∃ entry, pool.mapTx[child]? = some entry ∧
        entry.tx.SpendsOutputOf tx := by
  obtain ⟨next, result, short, members⟩ := exact.queueAt tx.hash (List.range tx.vout.length) queue
  refine ⟨next, result, by simpa using short, fun child => ?_⟩
  rw [members]
  constructor
  · intro ⟨entry, present, txin, member, i, inRange, same⟩
    refine ⟨entry, present, txin, member, by rw [same], ?_⟩
    rw [same, UInt32.toNat_ofNat']
    exact (Nat.mod_le _ _).trans_lt (List.mem_range.mp inRange)
  · intro ⟨entry, present, txin, member, sameHash, inRange⟩
    refine ⟨entry, present, txin, member, txin.prevout.n.toNat, List.mem_range.mpr inRange, ?_⟩
    rw [UInt32.ofNat_toNat, ← sameHash]

end Lycancoin.CTxMemPool
