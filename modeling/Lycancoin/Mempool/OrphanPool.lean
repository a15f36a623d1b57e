import Lycancoin.Primitives.Block
import Lycancoin.Data.InverseIndex

namespace Lycancoin

open Std Lycancoin.Data

abbrev NodeId := Int

structure COrphanTx where
  tx : CTransaction
  fromPeer : NodeId

/-- `map<uint256, COrphanTx>`. -/
abbrev OrphanMap := ExtTreeMap Uint256 COrphanTx

/-- The two globals that hold transactions with unknown inputs. -/
structure OrphanPool where
  mapOrphanTransactions : OrphanMap
  mapOrphanTransactionsByPrev : InverseIndex Uint256 Uint256

namespace OrphanPool

def empty : OrphanPool := { mapOrphanTransactions := ∅, mapOrphanTransactionsByPrev := ∅ }

/-- The `prevout.hash` of every input, in input order. -/
def prevHashes (tx : CTransaction) : List Uint256 := tx.vin.map fun txin => txin.prevout.hash

def addOrphanTx (pool : OrphanPool) (tx : CTransaction) (peer : NodeId) : Bool × OrphanPool :=
  if pool.mapOrphanTransactions.contains tx.hash then (false, pool)
  else if tx.getSerializeSize > 5000 then (false, pool)
  else (true, {
    mapOrphanTransactions := pool.mapOrphanTransactions.insert tx.hash { tx, fromPeer := peer }
    mapOrphanTransactionsByPrev :=
      (prevHashes tx).foldl (InverseIndex.addKey tx.hash) pool.mapOrphanTransactionsByPrev })

/-- `EraseOrphanTx`.  The loop over the inputs dereferences the result of
`find` without comparing it with `end()`; there is no result when some lookup
finds nothing. -/
def eraseOrphanTx (pool : OrphanPool) (hash : Uint256) : Option OrphanPool :=
  match pool.mapOrphanTransactions[hash]? with
  | none => some pool
  | some orphan => do
      let byPrev ← InverseIndex.removeKeys? hash (prevHashes orphan.tx)
        pool.mapOrphanTransactionsByPrev
      pure {
        mapOrphanTransactions := pool.mapOrphanTransactions.erase hash
        mapOrphanTransactionsByPrev := byPrev }

/-- `EraseOrphansFor`.  The iterator is advanced before the erasure, so the
loop visits the entries that are there when it starts. -/
def eraseOrphansFor (pool : OrphanPool) (peer : NodeId) : Option OrphanPool :=
  pool.mapOrphanTransactions.toList.foldlM
    (fun pool entry =>
      if entry.2.fromPeer = peer then pool.eraseOrphanTx entry.2.tx.hash else some pool)
    pool

/-- The key that `LimitOrphanTxSize` evicts for a random hash: `lower_bound`,
and `begin()` when that is past the end. -/
def evictionChoice (orphans : OrphanMap) (randomhash : Uint256) : Option Uint256 :=
  match orphans.keys.find? (fun hash => decide (randomhash ≤ hash)) with
  | some hash => some hash
  | none => orphans.keys.head?

/-- The loop of `LimitOrphanTxSize`.  `random` lists what `GetRandHash` returns
on the passes to come and `passes` bounds their number. -/
def limitLoop (nMaxOrphans : Nat) : Nat → (Nat → Uint256) → OrphanPool → Option OrphanPool
  | 0, _, pool => some pool
  | passes + 1, random, pool =>
      if pool.mapOrphanTransactions.size > nMaxOrphans then
        match evictionChoice pool.mapOrphanTransactions (random 0) with
        | none => none
        | some hash => do
            let pool ← pool.eraseOrphanTx hash
            limitLoop nMaxOrphans passes (fun pass => random (pass + 1)) pool
      else some pool

/-- `LimitOrphanTxSize`.  Every pass evicts one orphan, so there are never more
passes than orphans. -/
def limitOrphanTxSize (pool : OrphanPool) (nMaxOrphans : Nat) (random : Nat → Uint256) :
    Option OrphanPool :=
  limitLoop nMaxOrphans pool.mapOrphanTransactions.size random pool

inductive Call where
  | add (tx : CTransaction) (peer : NodeId)
  | erase (hash : Uint256)
  | eraseFor (peer : NodeId)
  | limit (nMaxOrphans : Nat) (random : Nat → Uint256)

def call (pool : OrphanPool) : Call → Option OrphanPool
  | .add tx peer => some (pool.addOrphanTx tx peer).2
  | .erase hash => pool.eraseOrphanTx hash
  | .eraseFor peer => pool.eraseOrphansFor peer
  | .limit nMaxOrphans random => pool.limitOrphanTxSize nMaxOrphans random

def run (pool : OrphanPool) (calls : List Call) : Option OrphanPool := calls.foldlM call pool

/-- Orphan `hash` has an input that spends an output of `prev`. -/
def Spends (orphans : OrphanMap) (hash prev : Uint256) : Prop :=
  ∃ orphan, orphans[hash]? = some orphan ∧ prev ∈ prevHashes orphan.tx

/-- The orphans are filed under their own hashes and
`mapOrphanTransactionsByPrev` is the inverse index of their inputs. -/
structure Consistent (pool : OrphanPool) : Prop where
  hash_eq : ∀ (hash : Uint256) (orphan : COrphanTx), pool.mapOrphanTransactions[hash]? = some orphan →
    orphan.tx.hash = hash
  exact : pool.mapOrphanTransactionsByPrev.Exact (Spends pool.mapOrphanTransactions)

/-- No previous transaction is spent by two inputs of this orphan, unless some
other orphan spends it as well. -/
def Erasable (orphans : OrphanMap) (hash : Uint256) : Prop :=
  ∀ orphan, orphans[hash]? = some orphan → ∀ prev, 2 ≤ (prevHashes orphan.tx).count prev →
    ∃ other, other ≠ hash ∧ Spends orphans other prev

def ErasableInTurn (orphans : OrphanMap) : List Uint256 → Prop
  | [] => True
  | hash :: rest => Erasable orphans hash ∧ ErasableInTurn (orphans.erase hash) rest

section Erasure

variable {pool after : OrphanPool} {orphans : OrphanMap} {hash prev : Uint256}

theorem consistent_empty : Consistent empty where
  hash_eq hash orphan found := by simp [empty] at found
  exact := InverseIndex.exact_empty.congr fun hash prev => by simp [Spends, empty]

theorem spends_erase {other : Uint256} :
    Spends (orphans.erase hash) other prev ↔ other ≠ hash ∧ Spends orphans other prev := by
  unfold Spends
  simp only [ExtTreeMap.getElem?_erase]
  by_cases same : hash = other
  · subst same
    simp
  · have different : compare hash other ≠ .eq := by simpa using same
    simp [different, Ne.symm same]

theorem eraseOrphanTx_mapOrphanTransactions (erased : pool.eraseOrphanTx hash = some after) :
    after.mapOrphanTransactions = pool.mapOrphanTransactions.erase hash := by
  cases found : pool.mapOrphanTransactions[hash]? with
  | none =>
      simp only [eraseOrphanTx, found, Option.some.injEq] at erased
      subst after
      apply ExtTreeMap.ext_getElem?
      intro other
      rw [ExtTreeMap.getElem?_erase]
      split
      · rename_i same
        rw [← Std.compare_eq_iff_eq.mp same, found]
      · rfl
  | some orphan =>
      simp only [eraseOrphanTx, found] at erased
      obtain ⟨byPrev, _, result⟩ := Option.bind_eq_some_iff.mp erased
      cases result
      rfl

/-- What an erasure that finds its entries leaves behind. -/
theorem Consistent.eraseOrphanTx (consistent : Consistent pool)
    (erased : pool.eraseOrphanTx hash = some after) : Consistent after := by
  have orphans := eraseOrphanTx_mapOrphanTransactions erased
  constructor
  · intro other orphan found
    rw [orphans, ExtTreeMap.getElem?_erase] at found
    split at found
    · contradiction
    · exact consistent.hash_eq other orphan found
  · rw [orphans]
    cases found : pool.mapOrphanTransactions[hash]? with
    | none =>
        simp only [OrphanPool.eraseOrphanTx, found, Option.some.injEq] at erased
        subst after
        refine consistent.exact.congr fun other prev => ?_
        rw [spends_erase]
        constructor
        · intro spends
          refine ⟨fun same => ?_, spends⟩
          obtain ⟨orphan, present, _⟩ := spends
          rw [same, found] at present
          contradiction
        · exact And.right
    | some orphan =>
        simp only [OrphanPool.eraseOrphanTx, found] at erased
        obtain ⟨byPrev, removed, result⟩ := Option.bind_eq_some_iff.mp erased
        cases result
        refine (consistent.exact.removeKeys? removed).congr fun other prev => ?_
        rw [spends_erase]
        constructor
        · rintro ⟨spends, remains⟩
          refine ⟨fun same => remains ⟨same, ?_⟩, spends⟩
          obtain ⟨orphan', present, member⟩ := spends
          rw [same, found, Option.some.injEq] at present
          rwa [present]
        · rintro ⟨different, spends⟩
          exact ⟨spends, fun both => different both.1⟩

/-- `EraseOrphanTx` finds every entry it looks up exactly on an erasable orphan. -/
theorem Consistent.eraseOrphanTx_isSome_iff (consistent : Consistent pool) :
    (pool.eraseOrphanTx hash).isSome ↔ Erasable pool.mapOrphanTransactions hash := by
  unfold Erasable
  cases found : pool.mapOrphanTransactions[hash]? with
  | none => simp [OrphanPool.eraseOrphanTx, found]
  | some orphan =>
      have walk := consistent.exact.removeKeys?_isSome_iff hash (prevHashes orphan.tx)
      have result : (pool.eraseOrphanTx hash).isSome =
          (InverseIndex.removeKeys? hash (prevHashes orphan.tx)
            pool.mapOrphanTransactionsByPrev).isSome := by
        simp only [OrphanPool.eraseOrphanTx, found]
        cases InverseIndex.removeKeys? hash (prevHashes orphan.tx)
          pool.mapOrphanTransactionsByPrev <;> rfl
      rw [result, walk]
      constructor
      · rintro every _ ⟨rfl⟩ prev twice
        exact (every prev (List.count_pos_iff.mp (by omega))).2 twice
      · intro erasable prev member
        exact ⟨⟨hash, orphan, found, member⟩, erasable orphan rfl prev⟩

/-- A list of erasures goes through exactly when each orphan is erasable in
its turn, and then leaves the rest of the orphans under an exact index. -/
theorem Consistent.eraseAll (consistent : Consistent pool) (hashes : List Uint256) :
    ((hashes.foldlM OrphanPool.eraseOrphanTx pool).isSome ↔
      ErasableInTurn pool.mapOrphanTransactions hashes) ∧
    ∀ after, hashes.foldlM OrphanPool.eraseOrphanTx pool = some after →
      Consistent after ∧
      after.mapOrphanTransactions = hashes.foldl ExtTreeMap.erase pool.mapOrphanTransactions := by
  induction hashes generalizing pool with
  | nil =>
      refine ⟨by simp [ErasableInTurn], ?_⟩
      rintro after ⟨rfl⟩
      exact ⟨consistent, rfl⟩
  | cons hash rest ih =>
      rw [List.foldlM_cons]
      have first : (pool.eraseOrphanTx hash).isSome ↔ Erasable pool.mapOrphanTransactions hash :=
        consistent.eraseOrphanTx_isSome_iff
      cases erased : pool.eraseOrphanTx hash with
      | none =>
          rw [erased] at first
          simp only [Option.isSome_none, Bool.false_eq_true, false_iff] at first
          simp [ErasableInTurn, first]
      | some next =>
          rw [erased] at first
          have orphans := eraseOrphanTx_mapOrphanTransactions erased
          have remaining := ih (consistent.eraseOrphanTx erased)
          rw [orphans] at remaining
          simp only [Option.isSome_some, true_iff] at first
          simpa [ErasableInTurn, first] using remaining

end Erasure

/-- The hashes that `LimitOrphanTxSize` evicts, in order. -/
def evicted (nMaxOrphans : Nat) : Nat → (Nat → Uint256) → OrphanMap → List Uint256
  | 0, _, _ => []
  | passes + 1, random, orphans =>
      if orphans.size > nMaxOrphans then
        match evictionChoice orphans (random 0) with
        | none => []
        | some hash =>
            hash :: evicted nMaxOrphans passes (fun pass => random (pass + 1)) (orphans.erase hash)
      else []

theorem evictionChoice_mem {orphans : OrphanMap} {randomhash hash : Uint256}
    (chosen : evictionChoice orphans randomhash = some hash) : hash ∈ orphans := by
  unfold evictionChoice at chosen
  split at chosen
  · rename_i found
    cases chosen
    exact ExtTreeMap.mem_keys.mp (List.mem_of_find?_eq_some found)
  · exact ExtTreeMap.mem_keys.mp (List.mem_of_mem_head? chosen)

theorem evictionChoice_isSome {orphans : OrphanMap} (randomhash : Uint256)
    (occupied : 0 < orphans.size) : (evictionChoice orphans randomhash).isSome := by
  unfold evictionChoice
  split
  · rfl
  · have positive : 0 < orphans.keys.length := by rwa [ExtTreeMap.length_keys]
    rw [List.isSome_head?]
    exact List.ne_nil_of_length_pos positive

theorem size_erase_of_mem {orphans : OrphanMap} {hash : Uint256} (member : hash ∈ orphans) :
    (orphans.erase hash).size = orphans.size - 1 := by
  rw [ExtTreeMap.size_erase, if_pos (ExtTreeMap.mem_iff_contains.mp member)]

theorem limitLoop_eq (nMaxOrphans passes : Nat) (random : Nat → Uint256) (pool : OrphanPool) :
    limitLoop nMaxOrphans passes random pool =
      (evicted nMaxOrphans passes random pool.mapOrphanTransactions).foldlM eraseOrphanTx pool := by
  induction passes generalizing random pool with
  | zero => rfl
  | succ passes ih =>
      unfold limitLoop evicted
      split
      · rename_i above
        obtain ⟨hash, chosen⟩ := Option.isSome_iff_exists.mp
          (evictionChoice_isSome (random 0) (by omega : 0 < pool.mapOrphanTransactions.size))
        simp only [chosen, List.foldlM_cons]
        cases erased : pool.eraseOrphanTx hash with
        | none => rfl
        | some next =>
            change limitLoop _ _ _ next = List.foldlM _ next _
            rw [ih, eraseOrphanTx_mapOrphanTransactions erased]
      · rfl

/-- As many passes as there are orphans bring their number down to the limit. -/
theorem size_foldl_erase_evicted {nMaxOrphans passes : Nat} {orphans : OrphanMap}
    (random : Nat → Uint256) (enough : orphans.size ≤ passes) :
    ((evicted nMaxOrphans passes random orphans).foldl ExtTreeMap.erase orphans).size ≤
      nMaxOrphans := by
  induction passes generalizing random orphans with
  | zero =>
      have none : orphans.size = 0 := by omega
      simp only [evicted, List.foldl_nil]
      omega
  | succ passes ih =>
      unfold evicted
      split
      · rename_i above
        obtain ⟨hash, chosen⟩ := Option.isSome_iff_exists.mp
          (evictionChoice_isSome (random 0) (by omega : 0 < orphans.size))
        have smaller := size_erase_of_mem (evictionChoice_mem chosen)
        simp only [chosen, List.foldl_cons]
        exact ih _ (by omega)
      · rename_i within
        exact Nat.not_lt.mp within

theorem foldlM_filter_map {σ α β : Type} (step : σ → β → Option σ) (wanted : α → Bool)
    (pick : α → β) (items : List α) (state : σ) :
    items.foldlM (fun state item => if wanted item then step state (pick item) else some state)
        state =
      ((items.filter wanted).map pick).foldlM step state := by
  induction items generalizing state with
  | nil => rfl
  | cons item rest ih =>
      rw [List.foldlM_cons, List.filter_cons]
      split
      · rw [List.map_cons, List.foldlM_cons]
        exact bind_congr ih
      · exact ih state

def victims (orphans : OrphanMap) : Call → List Uint256
  | .add _ _ => []
  | .erase hash => [hash]
  | .eraseFor peer =>
      (orphans.toList.filter fun entry => decide (entry.2.fromPeer = peer)).map
        fun entry => entry.2.tx.hash
  | .limit nMaxOrphans random => evicted nMaxOrphans orphans.size random orphans

def orphansAfter (orphans : OrphanMap) : Call → OrphanMap
  | .add tx peer =>
      if orphans.contains tx.hash || tx.getSerializeSize > 5000 then orphans
      else orphans.insert tx.hash { tx, fromPeer := peer }
  | other => (victims orphans other).foldl ExtTreeMap.erase orphans

/-- Every erasure of the sequence meets an erasable orphan. -/
def SafeCalls (orphans : OrphanMap) : List Call → Prop
  | [] => True
  | first :: rest =>
      ErasableInTurn orphans (victims orphans first) ∧ SafeCalls (orphansAfter orphans first) rest

section Calls

variable {pool after : OrphanPool}

theorem Consistent.addOrphanTx (consistent : Consistent pool) (tx : CTransaction)
    (peer : NodeId) :
    Consistent (pool.addOrphanTx tx peer).2 ∧
      (pool.addOrphanTx tx peer).2.mapOrphanTransactions =
        orphansAfter pool.mapOrphanTransactions (.add tx peer) := by
  unfold OrphanPool.addOrphanTx orphansAfter
  by_cases known : pool.mapOrphanTransactions.contains tx.hash
  · simp [known, consistent]
  by_cases large : tx.getSerializeSize > 5000
  · simp [known, large, consistent]
  have absent : pool.mapOrphanTransactions[tx.hash]? = none :=
    ExtTreeMap.getElem?_eq_none (by simpa using known)
  simp only [known, large, Bool.false_eq_true, if_false, decide_false, Bool.or_false, and_true]
  constructor
  · intro hash orphan found
    rw [ExtTreeMap.getElem?_insert] at found
    split at found
    · rename_i same
      cases found
      exact Std.compare_eq_iff_eq.mp same
    · exact consistent.hash_eq hash orphan found
  · refine (consistent.exact.foldl_addKey tx.hash (prevHashes tx)).congr fun other prev => ?_
    unfold Spends
    simp only [ExtTreeMap.getElem?_insert]
    by_cases same : tx.hash = other
    · subst same
      simp [absent]
    · have different : compare tx.hash other ≠ .eq := by simpa using same
      simp [different, Ne.symm same]

/-- A call finds every entry it looks up exactly when the orphans it erases are
erasable in turn, and then keeps the pool consistent. -/
theorem Consistent.call (consistent : Consistent pool) (request : Call) :
    ((pool.call request).isSome ↔
      ErasableInTurn pool.mapOrphanTransactions (victims pool.mapOrphanTransactions request)) ∧
    ∀ after, pool.call request = some after →
      Consistent after ∧
      after.mapOrphanTransactions = orphansAfter pool.mapOrphanTransactions request := by
  cases request with
  | add tx peer =>
      refine ⟨by simp [OrphanPool.call, victims, ErasableInTurn], ?_⟩
      rintro after ⟨rfl⟩
      exact consistent.addOrphanTx tx peer
  | erase hash =>
      have single : pool.call (.erase hash) = [hash].foldlM OrphanPool.eraseOrphanTx pool := by
        simp [OrphanPool.call]
      rw [single]
      exact consistent.eraseAll [hash]
  | eraseFor peer =>
      have unfolded : pool.call (.eraseFor peer) =
          (victims pool.mapOrphanTransactions (.eraseFor peer)).foldlM
            OrphanPool.eraseOrphanTx pool := by
        rw [victims, ← foldlM_filter_map]
        simp only [OrphanPool.call, eraseOrphansFor, decide_eq_true_eq]
      rw [unfolded]
      exact consistent.eraseAll _
  | limit nMaxOrphans random =>
      have unfolded : pool.call (.limit nMaxOrphans random) =
          (victims pool.mapOrphanTransactions (.limit nMaxOrphans random)).foldlM
            OrphanPool.eraseOrphanTx pool :=
        limitLoop_eq nMaxOrphans _ random pool
      rw [unfolded]
      exact consistent.eraseAll _

theorem Consistent.run (consistent : Consistent pool) (calls : List Call) :
    ((pool.run calls).isSome ↔ SafeCalls pool.mapOrphanTransactions calls) ∧
    ∀ after, pool.run calls = some after → Consistent after := by
  induction calls generalizing pool with
  | nil =>
      refine ⟨by simp [OrphanPool.run, SafeCalls], ?_⟩
      rintro after ⟨rfl⟩
      exact consistent
  | cons first rest ih =>
      obtain ⟨defined, result⟩ := consistent.call first
      have step : pool.run (first :: rest) = (pool.call first).bind fun next => next.run rest := rfl
      rw [step]
      cases called : pool.call first with
      | none =>
          rw [called] at defined
          simp only [Option.isSome_none, Bool.false_eq_true, false_iff] at defined
          simp [SafeCalls, defined]
      | some next =>
          obtain ⟨nextConsistent, orphans⟩ := result next called
          rw [called] at defined
          simp only [Option.isSome_some, true_iff] at defined
          have remaining := ih nextConsistent
          rw [orphans] at remaining
          simpa [SafeCalls, defined] using remaining

theorem size_after_limit {nMaxOrphans : Nat} {random : Nat → Uint256}
    (consistent : Consistent pool)
    (limited : pool.call (.limit nMaxOrphans random) = some after) :
    after.mapOrphanTransactions.size ≤ nMaxOrphans := by
  rw [((consistent.call _).2 after limited).2]
  exact size_foldl_erase_evicted random (Nat.le_refl _)

end Calls

/-- After every call of the sequence the lookups have found their entries, the
index is exact, and a limit that was just set holds. -/
def KeepsIndex (calls : List Call) : Prop :=
  ∀ done last rest, calls = done ++ last :: rest →
    ∃ pool, empty.run (done ++ [last]) = some pool ∧ Consistent pool ∧
      ∀ nMaxOrphans random, last = .limit nMaxOrphans random →
        pool.mapOrphanTransactions.size ≤ nMaxOrphans

theorem run_append (pool : OrphanPool) (first second : List Call) :
    pool.run (first ++ second) = (pool.run first).bind fun next => next.run second := by
  rw [run, List.foldlM_append]
  rfl

/-- The pool keeps its index through a sequence of calls exactly when no orphan
is erased that alone spends some previous transaction twice. -/
theorem keepsIndex_iff_safeCalls (calls : List Call) :
    KeepsIndex calls ↔ SafeCalls empty.mapOrphanTransactions calls := by
  obtain ⟨defined, _⟩ := consistent_empty.run calls
  rw [← defined]
  constructor
  · intro keeps
    cases calls using List.reverseRecOn with
    | nil => rfl
    | append_singleton done last =>
        obtain ⟨pool, ran, _⟩ := keeps done last [] rfl
        rw [ran]
        rfl
  · rintro finished done last rest rfl
    obtain ⟨final, ran⟩ := Option.isSome_iff_exists.mp finished
    rw [List.append_cons, run_append] at ran
    obtain ⟨pool, prefixRan, _⟩ := Option.bind_eq_some_iff.mp ran
    refine ⟨pool, prefixRan, (consistent_empty.run _).2 pool prefixRan, ?_⟩
    rintro nMaxOrphans random rfl
    rw [run_append] at prefixRan
    obtain ⟨before, doneRan, lastRan⟩ := Option.bind_eq_some_iff.mp prefixRan
    apply size_after_limit ((consistent_empty.run done).2 before doneRan)
    simpa [run] using lastRan

/-- An orphan that spends two outputs of one unknown transaction. -/
def twoInputsOfOnePrev : CTransaction where
  hash := 1
  nVersion := 1
  vin := [{ prevout := { hash := 7, n := 0 }, scriptSig := [], nSequence := 0xffffffff },
    { prevout := { hash := 7, n := 1 }, scriptSig := [], nSequence := 0xffffffff }]
  vout := [{ nValue := 1, scriptPubKey := [] }]
  nLockTime := 0

/-- Storing that orphan and erasing it looks up an entry that is gone. -/
theorem erase_twoInputsOfOnePrev_loses_entry :
    empty.run [.add twoInputsOfOnePrev 0, .erase 1] = none ∧
      ¬ ∀ calls, KeepsIndex calls := by
  have undefined : empty.run [.add twoInputsOfOnePrev 0, .erase 1] = none := by decide
  refine ⟨undefined, fun keeps => ?_⟩
  obtain ⟨pool, ran, _⟩ := keeps _ [.add twoInputsOfOnePrev 0] (.erase 1) [] rfl
  rw [List.singleton_append, undefined] at ran
  contradiction

end OrphanPool

end Lycancoin
