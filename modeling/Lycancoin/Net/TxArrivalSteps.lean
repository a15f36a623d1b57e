import Lycancoin.Data.StepRuns
import Lycancoin.Net.OrphanResolution

namespace Lycancoin

open Lycancoin.Data OrphanPool

/-- The orphan spends an output of `root`, directly or through other orphans. -/
def Behind (orphans : OrphanMap) : Uint256 → Uint256 → Prop :=
  Relation.TransGen fun prev hash => Spends orphans hash prev

/-- The orphans behind a transaction, in the order in which they are reached
from it when each is passed on to once all it waits for has been reached. -/
def retryOrder (context : TxContext) (node : TxNode) (root : Uint256) : List Uint256 :=
  match Release.run (needs context node) (Resolution.filed node.orphans)
      (node.orphans.mapOrphanTransactions.size + 1) (Release.start root) with
  | none => []
  | some release => release.visited

/-- The orphans behind a transaction wait for nothing else, and each of them is
erasable in its turn. -/
structure ResolvesWhole (context : TxContext) (node : TxNode) (root : Uint256) : Prop where
  complete : ∀ (hash : Uint256) (orphan : COrphanTx),
    Behind node.orphans.mapOrphanTransactions root hash →
      node.orphans.mapOrphanTransactions[hash]? = some orphan → ∀ prev ∈ prevHashes orphan.tx,
        context.available node.mempool prev = true ∨ prev = root ∨
          Behind node.orphans.mapOrphanTransactions root prev
  erasable : ErasableInTurn node.orphans.mapOrphanTransactions
    (root :: retryOrder context node root)

/-- A transaction that arrives after its parents resolves what is behind it. -/
def ResolvesOnArrival (context : TxContext) (node : TxNode) (message : TxMessage) : Prop :=
  (∀ prev ∈ prevHashes message.tx, context.available node.mempool prev = true) →
    ResolvesWhole context node message.tx.hash

/-- A transaction that arrives before a parent is within the limits on orphans. -/
def WithinLimits (context : TxContext) (node : TxNode) (message : TxMessage) : Prop :=
  (∃ prev ∈ prevHashes message.tx, context.available node.mempool prev = false) →
    message.tx.getSerializeSize ≤ 5000 ∧
      node.orphans.mapOrphanTransactions.size < context.nMaxOrphanTx

def AtEachArrival (holds : TxNode → TxMessage → Prop) (context : TxContext) :
    TxNode → List TxMessage → Prop
  | _, [] => True
  | node, message :: rest => holds node message ∧
      ∀ after, processTx context node message = some after →
        AtEachArrival holds context after rest

section Arrival

variable {context : TxContext} {start : CTxMemPool} {txs arrived : List CTransaction}
  {node after : TxNode} {root hash prev : Uint256} {state : Resolution}
  {final : Release Uint256} {message : TxMessage}

/-- A transaction that arrives after its parents: what the resolution loop does. -/
theorem processTx_of_ready (consistent : MutuallyConsistent context start txs)
    (subset : arrived ⊆ txs) (settled : Settled context start txs arrived node)
    (member : message.tx ∈ txs) (isNew : message.tx ∉ arrived)
    (available : ∀ prev ∈ prevHashes message.tx, context.available node.mempool prev = true) :
    ∃ state final, final.pending = [] ∧
      Release.Walk (needs context node) (Resolution.filed node.orphans) message.tx.hash final
        final.released [] ∧
      Resolves start txs node message.tx.hash state final ∧
      retryOrder context node message.tx.hash = final.visited ∧
      processTx context node message =
        ((message.tx.hash :: final.visited).foldlM eraseOrphanTx node.orphans).map fun orphans =>
          { mempool := state.mempool, orphans, misbehaving := node.misbehaving } := by
  have absent : node.mempool.mapTx[message.tx.hash]? = none := by
    apply Std.ExtTreeMap.getElem?_eq_none_of_contains_eq_false
    rw [Bool.eq_false_iff]
    exact fun present => isNew (settled.arrived message.tx member present)
  obtain ⟨mempool, returns, accepted, grown⟩ :=
    consistent.accept settled.grown member absent available
  have enough : node.orphans.mapOrphanTransactions.keys.length + 1 ≤
      ([] : List Uint256).length + (node.orphans.mapOrphanTransactions.size + 1) := by
    rw [Std.ExtTreeMap.length_keys, List.length_nil, Nat.zero_add]
  obtain ⟨final, ran, ended, walk⟩ :=
    (Release.Walk.start message.tx.hash).run (waiting_filed settled) enough
  have begins : Resolves start txs node message.tx.hash
      { mempool, vWorkQueue := [message.tx.hash], vEraseQueue := [message.tx.hash],
        setMisbehaving := [], misbehaving := node.misbehaving }
      (Release.start message.tx.hash) :=
    { grown
      contains_iff := fun hash => by
        rw [accepted.contains_iff, Release.start, List.mem_singleton]
      vWorkQueue := rfl
      vEraseQueue := rfl
      setMisbehaving := rfl
      misbehaving := rfl }
  obtain ⟨state, looped, resolves⟩ := begins.loop consistent subset settled ran
  refine ⟨state, final, ended, walk, resolves, by rw [retryOrder, ran], ?_⟩
  simp only [processTx, returns, looped, Option.bind_eq_bind, Option.bind_some,
    resolves.vEraseQueue, resolves.misbehaving]
  rw [Option.map_eq_bind]
  rfl

theorem Settled.member_of_stored (subset : arrived ⊆ txs)
    (settled : Settled context start txs arrived node)
    (stored : ∃ orphan, node.orphans.mapOrphanTransactions[hash]? = some orphan) :
    ∃ tx ∈ txs, tx.hash = hash := by
  obtain ⟨orphan, found⟩ := stored
  exact ⟨orphan.tx, subset (settled.waiting hash orphan found).1,
    settled.index.hash_eq hash orphan found⟩

theorem exists_rank (consistent : MutuallyConsistent context start txs) (subset : arrived ⊆ txs)
    (settled : Settled context start txs arrived node) :
    ∃ rank : Uint256 → Nat, ∀ hash prev, Spends node.orphans.mapOrphanTransactions hash prev →
      (∃ tx ∈ txs, tx.hash = prev) → rank prev < rank hash := by
  obtain ⟨rank, increases⟩ := consistent.acyclic
  refine ⟨rank, fun hash prev ⟨orphan, found, spends⟩ ⟨parent, isMember, isPrev⟩ => ?_⟩
  have member := subset (settled.waiting hash orphan found).1
  have isHash := settled.index.hash_eq hash orphan found
  rw [← isHash, ← isPrev]
  exact increases orphan.tx member parent isMember (isPrev ▸ spends)

theorem Behind.exists_last {orphans : OrphanMap} (behind : Behind orphans root hash) :
    ∃ prev, (prev = root ∨ Behind orphans root prev) ∧ Spends orphans hash prev := by
  cases behind with
  | single spends => exact ⟨root, Or.inl rfl, spends⟩
  | tail before spends => exact ⟨_, Or.inr before, spends⟩

theorem Behind.stored {orphans : OrphanMap} (behind : Behind orphans root hash) :
    ∃ orphan, orphans[hash]? = some orphan := by
  obtain ⟨_, _, orphan, found, _⟩ := behind.exists_last
  exact ⟨orphan, found⟩

theorem behind_of_released (consistent : MutuallyConsistent context start txs)
    (subset : arrived ⊆ txs) (settled : Settled context start txs arrived node)
    (rootMember : ∃ tx ∈ txs, tx.hash = root)
    (walk : Release.Walk (needs context node) (Resolution.filed node.orphans) root final
      final.released []) (released : hash ∈ final.released) :
    hash = root ∨ Behind node.orphans.mapOrphanTransactions root hash := by
  obtain ⟨rank, increases⟩ := exists_rank consistent subset settled
  induction level : rank hash using Nat.strong_induction_on generalizing hash with
  | _ level ih =>
      rcases walk.earned hash released with isRoot | ⟨visited, _⟩
      · exact Or.inl isRoot
      · obtain ⟨need, isReleased, waits⟩ := walk.mem_visited_iff.mp visited
        have spends := (mem_filed_iff settled.index).mp waits
        have needMember : ∃ tx ∈ txs, tx.hash = need := by
          rcases walk.earned need isReleased with isRoot | ⟨needVisited, _⟩
          · exact isRoot ▸ rootMember
          · obtain ⟨_, _, needWaits⟩ := walk.mem_visited_iff.mp needVisited
            obtain ⟨orphan, found, _⟩ := (mem_filed_iff settled.index).mp needWaits
            exact settled.member_of_stored subset ⟨orphan, found⟩
        have below := increases hash need spends needMember
        rcases ih (rank need) (level ▸ below) isReleased rfl with isRoot | behind
        · exact Or.inr (.single (isRoot ▸ spends))
        · exact Or.inr (.tail behind spends)

/-- When nothing behind the root waits for anything else, all of it is released. -/
theorem released_of_behind (consistent : MutuallyConsistent context start txs)
    (subset : arrived ⊆ txs) (settled : Settled context start txs arrived node)
    (ended : final.pending = [])
    (walk : Release.Walk (needs context node) (Resolution.filed node.orphans) root final
      final.released [])
    (complete : ∀ (hash : Uint256) (orphan : COrphanTx),
      Behind node.orphans.mapOrphanTransactions root hash →
        node.orphans.mapOrphanTransactions[hash]? = some orphan → ∀ prev ∈ prevHashes orphan.tx,
          context.available node.mempool prev = true ∨ prev = root ∨
            Behind node.orphans.mapOrphanTransactions root prev)
    (behind : Behind node.orphans.mapOrphanTransactions root hash) : hash ∈ final.released := by
  obtain ⟨rank, increases⟩ := exists_rank consistent subset settled
  induction level : rank hash using Nat.strong_induction_on generalizing hash with
  | _ level ih =>
      obtain ⟨orphan, found⟩ := behind.stored
      have reached : ∀ prev ∈ prevHashes orphan.tx,
          prev = root ∨ Behind node.orphans.mapOrphanTransactions root prev →
            prev ∈ final.released := by
        intro prev spends either
        rcases either with isRoot | further
        · exact isRoot ▸ walk.rooted
        · have below := increases hash prev ⟨orphan, found, spends⟩
            (settled.member_of_stored subset further.stored)
          exact ih (rank prev) (level ▸ below) further rfl
      have isReady : Release.ready (needs context node) final.released hash = true := by
        rw [Release.ready_iff, needs, found]
        intro prev needed
        obtain ⟨spends, missing⟩ := List.mem_filter.mp needed
        have either := (complete hash orphan behind found prev spends).resolve_left
          (by simpa using missing)
        exact reached prev spends either
      obtain ⟨prev, either, orphan', found', spends⟩ := behind.exists_last
      rw [found] at found'
      cases found'
      have prevReleased := reached prev spends either
      exact walk.released_of_ready ended prevReleased
        ((mem_filed_iff settled.index).mpr ⟨orphan, found, spends⟩) isReady

theorem released_of_visited_released (settled : Settled context start txs arrived node)
    (walk : Release.Walk (needs context node) (Resolution.filed node.orphans) root final
      final.released []) (all : ∀ hash ∈ final.visited, hash ∈ final.released)
    (behind : Behind node.orphans.mapOrphanTransactions root hash) : hash ∈ final.released := by
  induction behind with
  | single direct =>
      exact all _ (walk.mem_visited_iff.mpr
        ⟨root, walk.rooted, (mem_filed_iff settled.index).mpr direct⟩)
  | tail before direct ih =>
      exact all _ (walk.mem_visited_iff.mpr ⟨_, ih, (mem_filed_iff settled.index).mpr direct⟩)

/-- Nothing behind the root waits for anything else exactly when every orphan
that is visited is released. -/
theorem complete_iff_visited_released (consistent : MutuallyConsistent context start txs)
    (subset : arrived ⊆ txs) (settled : Settled context start txs arrived node)
    (rootMember : ∃ tx ∈ txs, tx.hash = root)
    (fresh : node.orphans.mapOrphanTransactions[root]? = none) (ended : final.pending = [])
    (walk : Release.Walk (needs context node) (Resolution.filed node.orphans) root final
      final.released []) :
    (∀ (hash : Uint256) (orphan : COrphanTx), Behind node.orphans.mapOrphanTransactions root hash →
      node.orphans.mapOrphanTransactions[hash]? = some orphan → ∀ prev ∈ prevHashes orphan.tx,
        context.available node.mempool prev = true ∨ prev = root ∨
          Behind node.orphans.mapOrphanTransactions root prev) ↔
      ∀ hash ∈ final.visited, hash ∈ final.released := by
  constructor
  · intro complete hash visited
    obtain ⟨need, released, waits⟩ := walk.mem_visited_iff.mp visited
    have spends := (mem_filed_iff settled.index).mp waits
    apply released_of_behind consistent subset settled ended walk complete
    rcases behind_of_released consistent subset settled rootMember walk released with isRoot | behind
    · exact .single (isRoot ▸ spends)
    · exact .tail behind spends
  · intro all hash orphan behind found prev spends
    have released := released_of_visited_released settled walk all behind
    rcases walk.earned hash released with isRoot | ⟨_, isReady⟩
    · rw [isRoot, fresh] at found
      contradiction
    · cases before : context.available node.mempool prev with
      | true => exact Or.inl rfl
      | false =>
          have needed : prev ∈ needs context node hash := by
            rw [needs, found]
            exact List.mem_filter.mpr ⟨spends, by simp [before]⟩
          exact Or.inr (behind_of_released consistent subset settled rootMember walk
            (Release.ready_iff.mp isReady prev needed))

theorem Settled.fresh (consistent : MutuallyConsistent context start txs) (subset : arrived ⊆ txs)
    (settled : Settled context start txs arrived node) {tx : CTransaction} (member : tx ∈ txs)
    (isNew : tx ∉ arrived) : node.orphans.mapOrphanTransactions[tx.hash]? = none := by
  cases found : node.orphans.mapOrphanTransactions[tx.hash]? with
  | none => rfl
  | some orphan =>
      obtain ⟨hasArrived, _⟩ := settled.waiting tx.hash orphan found
      have same := consistent.eq_of_hash_eq (subset hasArrived) member
        (settled.index.hash_eq tx.hash orphan found)
      exact absurd (same ▸ hasArrived) isNew

theorem Settled.resolved (consistent : MutuallyConsistent context start txs)
    (subset : arrived ⊆ txs) (settled : Settled context start txs arrived node)
    {tx : CTransaction} (member : tx ∈ txs)
    (walk : Release.Walk (needs context node) (Resolution.filed node.orphans) tx.hash final
      final.released [])
    (resolves : Resolves start txs node tx.hash state final)
    (all : ∀ hash ∈ final.visited, hash ∈ final.released) {orphans : OrphanPool}
    (index : orphans.Consistent)
    (erased : orphans.mapOrphanTransactions =
      (tx.hash :: final.visited).foldl Std.ExtTreeMap.erase node.orphans.mapOrphanTransactions)
    (misbehaving : List (NodeId × Nat)) :
    Settled context start txs (tx :: arrived)
      { mempool := state.mempool, orphans, misbehaving } := by
  have lookup : ∀ hash : Uint256, orphans.mapOrphanTransactions[hash]? =
      if hash ∈ tx.hash :: final.visited then none
      else node.orphans.mapOrphanTransactions[hash]? := by
    intro hash
    rw [erased]
    have erasure := KeyedBatch.getElem?_foldl_erase id node.orphans.mapOrphanTransactions
      (tx.hash :: final.visited) hash
    rw [List.map_id] at erasure
    exact erasure
  have visitedOf : ∀ hash ∈ final.released, hash ∈ tx.hash :: final.visited := by
    intro hash released
    rcases walk.earned hash released with isRoot | ⟨visited, _⟩
    · exact isRoot ▸ List.mem_cons_self
    · exact List.mem_cons_of_mem _ visited
  refine ⟨resolves.grown, index, fun hash orphan found => ?_, fun other isArrived => ?_,
    fun other isMember present => ?_⟩
  · rw [lookup] at found
    split at found
    · contradiction
    · rename_i notErased
      obtain ⟨hasArrived, absent, prev, spends, missing⟩ := settled.waiting hash orphan found
      have unreleased : hash ∉ final.released := fun released => notErased (visitedOf hash released)
      refine ⟨List.mem_cons_of_mem _ hasArrived, ?_, prev, spends, ?_⟩
      · apply Std.ExtTreeMap.getElem?_eq_none_of_contains_eq_false
        rw [Bool.eq_false_iff, ne_eq, resolves.contains_iff,
          contains_eq_false_of_getElem? absent]
        simpa using unreleased
      · rw [Bool.eq_false_iff, ne_eq, resolves.available_iff, missing]
        intro either
        have released := either.resolve_left Bool.false_ne_true
        exact notErased (List.mem_cons_of_mem _ (walk.mem_visited_iff.mpr
          ⟨prev, released, (mem_filed_iff settled.index).mpr ⟨orphan, found, spends⟩⟩))
  · rw [resolves.contains_iff]
    by_cases released : other.hash ∈ final.released
    · exact Or.inl (Or.inr released)
    · rcases List.mem_cons.mp isArrived with isTx | earlier
      · exact absurd (isTx ▸ walk.rooted) released
      · rcases settled.kept other earlier with inPool | stored
        · exact Or.inl (Or.inl inPool)
        · right
          have notErased : other.hash ∉ tx.hash :: final.visited := by
            intro isErased
            rcases List.mem_cons.mp isErased with isRoot | visited
            · exact released (isRoot ▸ walk.rooted)
            · exact released (all other.hash visited)
          rw [Std.ExtTreeMap.contains_eq_isSome_getElem?, lookup, if_neg notErased,
            ← Std.ExtTreeMap.contains_eq_isSome_getElem?]
          exact stored
  · rcases (resolves.contains_iff other.hash).mp present with before | released
    · exact List.mem_cons_of_mem _ (settled.arrived other isMember before)
    · rcases walk.earned other.hash released with isRoot | ⟨visited, _⟩
      · exact consistent.eq_of_hash_eq isMember member isRoot ▸ List.mem_cons_self
      · obtain ⟨_, _, waits⟩ := walk.mem_visited_iff.mp visited
        obtain ⟨orphan, found, _⟩ := (mem_filed_iff settled.index).mp waits
        obtain ⟨hasArrived, _⟩ := settled.waiting other.hash orphan found
        have same := consistent.eq_of_hash_eq isMember (subset hasArrived)
          (settled.index.hash_eq other.hash orphan found).symm
        exact List.mem_cons_of_mem _ (same ▸ hasArrived)

end Arrival

section Steps

variable {context : TxContext} {start : CTxMemPool} {txs arrived : List CTransaction}
  {node after : TxNode} {hash prev : Uint256} {message : TxMessage}

theorem limitOrphanTxSize_of_le {pool : OrphanPool} {nMaxOrphans : Nat} (random : Nat → Uint256)
    (within : pool.mapOrphanTransactions.size ≤ nMaxOrphans) :
    pool.limitOrphanTxSize nMaxOrphans random = some pool := by
  rw [limitOrphanTxSize]
  cases pool.mapOrphanTransactions.size with
  | zero => rfl
  | succ passes => rw [limitLoop, if_neg (Nat.not_lt.mpr within)]

theorem Settled.stored (consistent : MutuallyConsistent context start txs)
    (subset : arrived ⊆ txs) (settled : Settled context start txs arrived node)
    (member : message.tx ∈ txs) (isNew : message.tx ∉ arrived)
    (needed : prev ∈ prevHashes message.tx)
    (missing : context.available node.mempool prev = false)
    (limits : WithinLimits context node message) :
    ∃ after, processTx context node message = some after ∧
      Settled context start txs (message.tx :: arrived) after := by
  obtain ⟨small, room⟩ := limits ⟨prev, needed, missing⟩
  have fresh := settled.fresh consistent subset member isNew
  have absent : node.mempool.mapTx[message.tx.hash]? = none := by
    apply Std.ExtTreeMap.getElem?_eq_none_of_contains_eq_false
    rw [Bool.eq_false_iff]
    exact fun present => isNew (settled.arrived message.tx member present)
  obtain ⟨index, isInsert⟩ := settled.index.addOrphanTx message.tx message.fromPeer
  have notStored := contains_eq_false_of_getElem? fresh
  have notLarge : ¬message.tx.getSerializeSize > 5000 := Nat.not_lt.mpr small
  rw [orphansAfter, notStored] at isInsert
  simp only [notLarge, decide_false, Bool.or_self, Bool.false_eq_true, if_false] at isInsert
  have count : (node.orphans.addOrphanTx message.tx message.fromPeer).2.mapOrphanTransactions.size ≤
      context.nMaxOrphanTx := by
    rw [isInsert]
    exact Std.ExtTreeMap.size_insert_le.trans room
  have returns := consistent.missing settled.grown member absent needed missing
  have lookup : ∀ other : Uint256,
      (node.orphans.addOrphanTx message.tx message.fromPeer).2.mapOrphanTransactions[other]? =
        if message.tx.hash = other then some { tx := message.tx, fromPeer := message.fromPeer }
        else node.orphans.mapOrphanTransactions[other]? := by
    intro other
    rw [isInsert]
    simp only [Std.ExtTreeMap.getElem?_insert, Std.compare_eq_iff_eq]
  refine ⟨{ node with orphans := (node.orphans.addOrphanTx message.tx message.fromPeer).2 }, ?_,
    settled.grown, index, fun other orphan found => ?_, fun other isArrived => ?_,
    fun other isMember present => List.mem_cons_of_mem _ (settled.arrived other isMember present)⟩
  · simp only [processTx, returns, limitOrphanTxSize_of_le message.random count,
      Option.bind_eq_bind, Option.bind_some]
  · rw [lookup] at found
    split at found
    · rename_i same
      cases found
      exact ⟨List.mem_cons_self, same ▸ absent, prev, needed, missing⟩
    · obtain ⟨hasArrived, rest⟩ := settled.waiting other orphan found
      exact ⟨List.mem_cons_of_mem _ hasArrived, rest⟩
  · rcases List.mem_cons.mp isArrived with isTx | earlier
    · right
      change Std.ExtTreeMap.contains (node.orphans.addOrphanTx message.tx
        message.fromPeer).2.mapOrphanTransactions other.hash = true
      rw [Std.ExtTreeMap.contains_eq_isSome_getElem?, lookup, if_pos (isTx ▸ rfl)]
      rfl
    · refine (settled.kept other earlier).imp_right fun isStored => ?_
      change Std.ExtTreeMap.contains (node.orphans.addOrphanTx message.tx
        message.fromPeer).2.mapOrphanTransactions other.hash = true
      rw [Std.ExtTreeMap.contains_eq_isSome_getElem?, lookup]
      split
      · rfl
      · rw [← Std.ExtTreeMap.contains_eq_isSome_getElem?]
        exact isStored

end Steps

/-- Neither in the pool nor among the orphans. -/
structure Lost (node : TxNode) (hash : Uint256) : Prop where
  index : node.orphans.Consistent
  notInPool : node.mempool.mapTx.contains hash = false
  notStored : node.orphans.mapOrphanTransactions[hash]? = none

section Losses

variable {context : TxContext} {node after : TxNode} {hash : Uint256} {message : TxMessage}
  {orphans : OrphanPool}

theorem notInPool_of_retryOrphan (index : orphans.Consistent)
    (notStored : orphans.mapOrphanTransactions[hash]? = none) (state : Resolution)
    (orphanHash : Uint256) (next : Resolution)
    (notInPool : state.mempool.mapTx.contains hash = false)
    (retried : Resolution.retryOrphan context orphans state orphanHash = some next) :
    next.mempool.mapTx.contains hash = false := by
  unfold Resolution.retryOrphan at retried
  cases found : orphans.mapOrphanTransactions[orphanHash]? with
  | none =>
      rw [found] at retried
      contradiction
  | some orphan =>
      rw [found] at retried
      simp only at retried
      split at retried
      · cases retried
        exact notInPool
      · split at retried
        · rename_i mempool returns
          cases retried
          have isHash := index.hash_eq orphanHash orphan found
          rw [Bool.eq_false_iff, ne_eq, (accepted_of_eq_ok returns).contains_iff, notInPool, isHash]
          intro either
          have same := either.resolve_left Bool.false_ne_true
          rw [← same, notStored] at found
          contradiction
        · split at retried
          · cases retried
            exact notInPool
          · cases retried
            exact notInPool
        · cases retried
          exact notInPool
        · cases retried
          exact notInPool
        · cases retried
          exact notInPool
        · contradiction
        · contradiction

theorem notInPool_of_loop (index : orphans.Consistent)
    (notStored : orphans.mapOrphanTransactions[hash]? = none) {passes : Nat}
    {state final : Resolution} (notInPool : state.mempool.mapTx.contains hash = false)
    (ran : Resolution.loop context orphans passes state = some final) :
    final.mempool.mapTx.contains hash = false := by
  induction passes generalizing state with
  | zero =>
      rw [Resolution.loop] at ran
      split at ran
      · cases ran
        exact notInPool
      · contradiction
  | succ passes ih =>
      rw [Resolution.loop] at ran
      split at ran
      · cases ran
        exact notInPool
      · obtain ⟨next, retried, rest⟩ := Option.bind_eq_some_iff.mp ran
        have kept : ∀ (state : Resolution) (orphanHash : Uint256) (next : Resolution),
            state.mempool.mapTx.contains hash = false →
              Resolution.retryOrphan context orphans state orphanHash = some next →
                next.mempool.mapTx.contains hash = false :=
          notInPool_of_retryOrphan index notStored
        refine ih (foldlM_invariant kept ?_ retried) rest
        exact notInPool

theorem getElem?_foldl_erase_of_none {map : OrphanMap} (hashes : List Uint256)
    (absent : map[hash]? = none) : (hashes.foldl Std.ExtTreeMap.erase map)[hash]? = none := by
  have erasure := KeyedBatch.getElem?_foldl_erase id map hashes hash
  rw [absent, ite_self] at erasure
  exact erasure

theorem orphans_of_processTx (index : node.orphans.Consistent)
    (ran : processTx context node message = some after) :
    after.orphans.Consistent ∧ ∃ (stored : OrphanMap) (hashes : List Uint256),
      (stored = node.orphans.mapOrphanTransactions ∨ stored =
        node.orphans.mapOrphanTransactions.insert message.tx.hash
          { tx := message.tx, fromPeer := message.fromPeer }) ∧
      after.orphans.mapOrphanTransactions = hashes.foldl Std.ExtTreeMap.erase stored := by
  unfold processTx at ran
  simp only at ran
  split at ran
  · obtain ⟨state, looped, rest⟩ := Option.bind_eq_some_iff.mp ran
    obtain ⟨orphans, erased, done⟩ := Option.bind_eq_some_iff.mp rest
    cases done
    obtain ⟨keeps, isErased⟩ := (index.eraseAll _).2 orphans erased
    exact ⟨keeps, _, _, Or.inl rfl, isErased⟩
  · obtain ⟨added, isAdded⟩ := index.addOrphanTx message.tx message.fromPeer
    obtain ⟨orphans, limited, done⟩ := Option.bind_eq_some_iff.mp ran
    cases done
    obtain ⟨keeps, isLimited⟩ := (added.call (.limit context.nMaxOrphanTx message.random)).2
      orphans limited
    refine ⟨keeps, _, _, ?_, isLimited⟩
    rw [isAdded, orphansAfter]
    split
    · exact Or.inl rfl
    · exact Or.inr rfl
  · cases ran
    refine ⟨?_, _, [], Or.inl rfl, ?_⟩
    · split <;> exact index
    · split <;> rfl
  · cases ran
    exact ⟨index, _, [], Or.inl rfl, rfl⟩
  · cases ran
    exact ⟨index, _, [], Or.inl rfl, rfl⟩
  · contradiction
  · contradiction

theorem size_foldl_erase_le (hashes : List Uint256) (map : OrphanMap) :
    (hashes.foldl Std.ExtTreeMap.erase map).size ≤ map.size := by
  induction hashes generalizing map with
  | nil => exact Nat.le_refl _
  | cons hash rest ih => exact (ih (map.erase hash)).trans Std.ExtTreeMap.size_erase_le

theorem size_orphans_processTx_le (index : node.orphans.Consistent)
    (ran : processTx context node message = some after) :
    after.orphans.mapOrphanTransactions.size ≤ node.orphans.mapOrphanTransactions.size + 1 := by
  obtain ⟨_, stored, hashes, isStored, isErased⟩ := orphans_of_processTx index ran
  have erased := size_foldl_erase_le hashes stored
  rw [← isErased] at erased
  rcases isStored with same | inserted
  · rw [same] at erased
    omega
  · rw [inserted] at erased
    exact erased.trans Std.ExtTreeMap.size_insert_le

theorem withinLimits_of_few {messages : List TxMessage} (index : node.orphans.Consistent)
    (small : ∀ message ∈ messages, message.tx.getSerializeSize ≤ 5000)
    (few : node.orphans.mapOrphanTransactions.size + messages.length ≤ context.nMaxOrphanTx) :
    AtEachArrival (WithinLimits context) context node messages := by
  induction messages generalizing node with
  | nil => trivial
  | cons first rest ih =>
      rw [List.length_cons] at few
      refine ⟨fun _ => ⟨small first List.mem_cons_self, by omega⟩, fun after ran => ?_⟩
      have grows := size_orphans_processTx_le index ran
      exact ih (orphans_of_processTx index ran).1
        (fun message member => small message (List.mem_cons_of_mem _ member)) (by omega)

/-- What is lost stays lost while other transactions arrive. -/
theorem Lost.processTx (lost : Lost node hash) (other : message.tx.hash ≠ hash)
    (ran : processTx context node message = some after) : Lost after hash := by
  obtain ⟨index, stored, hashes, isStored, isErased⟩ := orphans_of_processTx lost.index ran
  have notStored : stored[hash]? = none := by
    rcases isStored with same | inserted
    · rw [same]
      exact lost.notStored
    · rw [inserted]
      simp only [Std.ExtTreeMap.getElem?_insert, Std.compare_eq_iff_eq, if_neg other]
      exact lost.notStored
  refine ⟨index, ?_, isErased ▸ getElem?_foldl_erase_of_none hashes notStored⟩
  unfold Lycancoin.processTx at ran
  simp only at ran
  split at ran
  · rename_i mempool returns
    obtain ⟨state, looped, rest⟩ := Option.bind_eq_some_iff.mp ran
    obtain ⟨orphans, _, done⟩ := Option.bind_eq_some_iff.mp rest
    cases done
    have notInPool : mempool.mapTx.contains hash = false := by
      rw [Bool.eq_false_iff, ne_eq, (accepted_of_eq_ok returns).contains_iff, lost.notInPool]
      intro either
      exact other (either.resolve_left Bool.false_ne_true).symm
    exact notInPool_of_loop lost.index lost.notStored notInPool looped
  · obtain ⟨orphans, _, done⟩ := Option.bind_eq_some_iff.mp ran
    cases done
    exact lost.notInPool
  · cases ran
    split <;> exact lost.notInPool
  · cases ran
    exact lost.notInPool
  · cases ran
    exact lost.notInPool
  · contradiction
  · contradiction

theorem Lost.runTx (lost : Lost node hash) {messages : List TxMessage}
    (others : ∀ message ∈ messages, message.tx.hash ≠ hash)
    (ran : runTx context node messages = some after) : Lost after hash := by
  induction messages generalizing node with
  | nil =>
      cases ran
      exact lost
  | cons first rest ih =>
      rw [Lycancoin.runTx, List.foldlM_cons] at ran
      obtain ⟨next, processed, remaining⟩ := Option.bind_eq_some_iff.mp ran
      exact ih (lost.processTx (others first List.mem_cons_self) processed)
        (fun message member => others message (List.mem_cons_of_mem _ member)) remaining

end Losses

end Lycancoin
