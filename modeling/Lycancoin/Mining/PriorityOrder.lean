import Lycancoin.Mining.FeeRate

namespace Lycancoin

open Lycancoin.Data

namespace CTxMemPool

variable (pool : CTxMemPool)

def prioritiseTransaction (hash : Uint256) (dPriorityDelta : Float) (nFeeDelta : Int) :
    Option CTxMemPool := do
  let deltas := pool.mapDeltas[hash]?.getD (0.0, 0)
  let nFee ← int64 (deltas.2 + nFeeDelta)
  some { pool with mapDeltas := pool.mapDeltas.insert hash (deltas.1 + dPriorityDelta, nFee) }

def applyDeltas (hash : Uint256) (dPriorityDelta : Float) (nFeeDelta : Int) :
    Option (Float × Int) :=
  match pool.mapDeltas[hash]? with
  | none => some (dPriorityDelta, nFeeDelta)
  | some deltas => do
      let nFeeDelta ← int64 (nFeeDelta + deltas.2)
      some (dPriorityDelta + deltas.1, nFeeDelta)

end CTxMemPool

def CTransaction.computePriority (tx : CTransaction) (dPriorityInputs : Float) (nTxSize : Nat) :
    Float :=
  let nTxSize := tx.calculateModifiedSize nTxSize
  if nTxSize = 0 then 0.0 else dPriorityInputs / Float.ofNat nTxSize

structure TxPriority where
  dPriority : Float
  feeRate : CFeeRate
  tx : CTransaction

/-- The `operator()` of `TxPriorityCompare`: whether the first of two goes behind the second. -/
def txPriorityCompare (byFee : Bool) (a b : TxPriority) : Bool :=
  if byFee then
    if a.feeRate.nSatoshisPerK = b.feeRate.nSatoshisPerK then decide (a.dPriority < b.dPriority)
    else decide (a.feeRate.nSatoshisPerK < b.feeRate.nSatoshisPerK)
  else
    if a.dPriority == b.dPriority then
      decide (a.feeRate.nSatoshisPerK < b.feeRate.nSatoshisPerK)
    else decide (a.dPriority < b.dPriority)

/-- A transaction that may wait for others of the pool; where it waits for none it goes to
`vecPriority`. -/
structure COrphan extends TxPriority where
  setDependsOn : List Uint256

/-- What the loop over the inputs of a transaction adds up. -/
structure InputSums where
  nTotalIn : Int
  dPriority : Float
  setDependsOn : List Uint256

/-- The priority and the fee of a transaction with its deltas, and what it waits for. -/
structure ModifiedFee where
  dPriority : Float
  nFee : Int
  setDependsOn : List Uint256

/-- What `CreateNewBlock` reads besides the pool: the coins at the tip, the height of the block, the
clock and `-debug`. -/
structure TemplateChain where
  view : UtxoView
  nHeight : Int
  nAdjustedTime : Int
  fDebug : Bool

namespace TemplateChain

variable (chain : TemplateChain)

/-- One input.  Nothing is added up where it is in neither the coins nor the pool. -/
def addInput (mapTx : Std.ExtTreeMap Uint256 CTxMemPoolEntry) (sums : InputSums) (txin : CTxIn) :
    Option (Option InputSums) :=
  match chain.view.coins txin.prevout.hash with
  | none =>
      match mapTx[txin.prevout.hash]? with
      | none => if chain.fDebug then none else some none
      | some entry => do
          let txout ← entry.tx.vout[txin.prevout.n.toNat]?
          let nTotalIn ← int64 (sums.nTotalIn + txout.nValue)
          some (some { sums with
            nTotalIn
            setDependsOn := sums.setDependsOn.insert txin.prevout.hash })
  | some coins => do
      let txout ← coins.vout[txin.prevout.n.toNat]?
      let nTotalIn ← int64 (sums.nTotalIn + txout.nValue)
      let nConf := chain.nHeight - coins.nHeight
      some (some { sums with
        nTotalIn
        dPriority := sums.dPriority + Float.ofInt txout.nValue * Float.ofInt nConf })

/-- The loop over `vin`. -/
def addInputs (mapTx : Std.ExtTreeMap Uint256 CTxMemPoolEntry) :
    InputSums → List CTxIn → Option (Option InputSums)
  | sums, [] => some (some sums)
  | sums, txin :: rest => do
      match ← chain.addInput mapTx sums txin with
      | none => some none
      | some sums => addInputs mapTx sums rest

/-- What a transaction is rated by, or nothing where it is passed over. -/
def modified (pool : CTxMemPool) (tx : CTransaction) : Option (Option ModifiedFee) :=
  if tx.isCoinBase || !isFinalTx tx chain.nHeight chain.nAdjustedTime then some none
  else do
    let sums ← chain.addInputs pool.mapTx { nTotalIn := 0, dPriority := 0, setDependsOn := [] } tx.vin
    match sums with
    | none => some none
    | some sums =>
        let nTxSize := tx.getSerializeSize % 2 ^ 32
        let deltas ← pool.applyDeltas tx.hash (tx.computePriority sums.dPriority nTxSize)
          sums.nTotalIn
        let nValueOut ← tx.getValueOut.toOption
        let nFee ← int64 (deltas.2 - nValueOut)
        some (some { dPriority := deltas.1, nFee, setDependsOn := sums.setDependsOn })

/-- One pass of the loop over the pool. -/
def poolEntry (pool : CTxMemPool) (tx : CTransaction) : Option (Option COrphan) := do
  match ← chain.modified pool tx with
  | none => some none
  | some fee =>
      let feeRate ← CFeeRate.ofFee fee.nFee (tx.getSerializeSize % 2 ^ 32)
      some (some
        { dPriority := fee.dPriority, feeRate, tx, setDependsOn := fee.setDependsOn })

def collect (pool : CTxMemPool) : List (Uint256 × CTxMemPoolEntry) → Option (List COrphan)
  | [] => some []
  | item :: rest => do
      let entry ← chain.poolEntry pool item.2.tx
      let collected ← collect pool rest
      some (entry.toList ++ collected)

end TemplateChain

namespace CTxMemPool

def feeDelta (pool : CTxMemPool) (hash : Uint256) : Int :=
  (pool.mapDeltas[hash]?.map Prod.snd).getD 0

def priorityWith (pool : CTxMemPool) (hash : Uint256) (dPriority : Float) : Float :=
  (pool.mapDeltas[hash]?.map fun deltas => dPriority + deltas.1).getD dPriority

/-- The pools are the same but for the fee delta of one transaction, which is lower in the second. -/
structure LowerDelta (hash : Uint256) (before after : CTxMemPool) : Prop where
  mapTx : after.mapTx = before.mapTx
  others : ∀ other, other ≠ hash → after.mapDeltas[other]? = before.mapDeltas[other]?
  priority : ∀ dPriority, after.priorityWith hash dPriority = before.priorityWith hash dPriority
  fee : after.feeDelta hash ≤ before.feeDelta hash

theorem applyDeltas_eq_some {pool : CTxMemPool} {hash : Uint256} {dPriority : Float} {nFee : Int}
    {deltas : Float × Int} (applied : pool.applyDeltas hash dPriority nFee = some deltas) :
    deltas = (pool.priorityWith hash dPriority, nFee + pool.feeDelta hash) := by
  unfold applyDeltas at applied
  unfold priorityWith feeDelta
  cases found : pool.mapDeltas[hash]? with
  | none =>
      simp only [found, Option.some.injEq] at applied
      simp [← applied]
  | some delta =>
      simp only [found, Option.bind_eq_bind, Option.bind_eq_some_iff, int64_eq_some,
        Option.some.injEq] at applied
      obtain ⟨fee, ⟨-, rfl⟩, rfl⟩ := applied
      rfl

/-- As `LowerDelta`, where both pools have a delta of the transaction or neither has one. -/
structure LowerStored (hash : Uint256) (before after : CTxMemPool) : Prop where
  mapTx : after.mapTx = before.mapTx
  others : ∀ other, other ≠ hash → after.mapDeltas[other]? = before.mapDeltas[other]?
  priority : after.mapDeltas[hash]?.map Prod.fst = before.mapDeltas[hash]?.map Prod.fst
  fee : after.feeDelta hash ≤ before.feeDelta hash

theorem LowerStored.refl (hash : Uint256) (pool : CTxMemPool) : LowerStored hash pool pool :=
  ⟨rfl, fun _ _ => rfl, rfl, le_rfl⟩

theorem LowerStored.lowerDelta {hash : Uint256} {before after : CTxMemPool}
    (lower : LowerStored hash before after) : LowerDelta hash before after where
  mapTx := lower.mapTx
  others := lower.others
  priority := by
    intro dPriority
    have stored := congrArg (fun delta => (delta.map (dPriority + ·)).getD dPriority) lower.priority
    simpa only [priorityWith, Option.map_map, Function.comp_def] using stored
  fee := lower.fee

/-- A call of `PrioritiseTransaction`. -/
structure DeltaCall where
  hash : Uint256
  dPriorityDelta : Float
  nFeeDelta : Int

/-- The second call gives the transaction no higher a fee, and does the same otherwise. -/
structure DeltaCall.Lower (hash : Uint256) (call call' : DeltaCall) : Prop where
  same : call'.hash = call.hash
  priority : call'.dPriorityDelta = call.dPriorityDelta
  fee : call'.nFeeDelta ≤ call.nFeeDelta
  others : call.hash ≠ hash → call'.nFeeDelta = call.nFeeDelta

/-- Calls of `PrioritiseTransaction` in their order. -/
def prioritiseAll (pool : CTxMemPool) (calls : List DeltaCall) : Option CTxMemPool :=
  calls.foldlM
    (fun pool call => pool.prioritiseTransaction call.hash call.dPriorityDelta call.nFeeDelta) pool

theorem LowerStored.prioritiseTransaction {hash : Uint256} {before after : CTxMemPool}
    {call call' : DeltaCall} {before' after' : CTxMemPool}
    (lower : LowerStored hash before after) (lowerCall : DeltaCall.Lower hash call call')
    (done : before.prioritiseTransaction call.hash call.dPriorityDelta call.nFeeDelta =
      some before')
    (done' : after.prioritiseTransaction call'.hash call'.dPriorityDelta call'.nFeeDelta =
      some after') : LowerStored hash before' after' := by
  simp only [CTxMemPool.prioritiseTransaction, Option.bind_eq_bind, Option.bind_eq_some_iff,
    int64_eq_some, Option.some.injEq] at done done'
  obtain ⟨nFee, ⟨-, rfl⟩, rfl⟩ := done
  obtain ⟨nFee', ⟨-, rfl⟩, rfl⟩ := done'
  rw [lowerCall.same, lowerCall.priority]
  by_cases own : call.hash = hash
  · have priority := lower.priority
    have fee := lower.fee
    have feeCall := lowerCall.fee
    unfold feeDelta at fee
    constructor
    · exact lower.mapTx
    · intro other apart
      have apart' : call.hash ≠ other := fun same => apart (same.symm.trans own)
      simp only [Std.ExtTreeMap.getElem?_insert, Std.LawfulEqCmp.compare_eq_iff_eq, apart',
        if_false]
      exact lower.others other apart
    · simp only [own, Std.ExtTreeMap.getElem?_insert_self, Option.map_some]
      cases found : before.mapDeltas[hash]? <;> cases found' : after.mapDeltas[hash]? <;>
        simp_all
    · simp only [feeDelta, own, Std.ExtTreeMap.getElem?_insert_self, Option.map_some,
        Option.getD_some]
      cases found : before.mapDeltas[hash]? <;> cases found' : after.mapDeltas[hash]? <;>
        simp_all
      all_goals omega
  · have same := lower.others call.hash own
    have sameFee := lowerCall.others own
    constructor
    · exact lower.mapTx
    · intro other apart
      simp only [Std.ExtTreeMap.getElem?_insert, same, sameFee, lower.others other apart]
    · simp only [Std.ExtTreeMap.getElem?_insert, Std.LawfulEqCmp.compare_eq_iff_eq, own, if_false]
      exact lower.priority
    · simp only [feeDelta, Std.ExtTreeMap.getElem?_insert, Std.LawfulEqCmp.compare_eq_iff_eq, own,
        if_false]
      exact lower.fee

theorem LowerStored.prioritiseAll {hash : Uint256} {calls calls' : List DeltaCall}
    (lowerCalls : List.Forall₂ (DeltaCall.Lower hash) calls calls')
    {before after before' after' : CTxMemPool} (lower : LowerStored hash before after)
    (done : before.prioritiseAll calls = some before')
    (done' : after.prioritiseAll calls' = some after') : LowerStored hash before' after' := by
  induction lowerCalls generalizing before after with
  | nil =>
      cases done
      cases done'
      exact lower
  | cons lowerCall rest ih =>
      simp only [CTxMemPool.prioritiseAll, List.foldlM_cons, Option.bind_eq_bind,
        Option.bind_eq_some_iff] at done done'
      obtain ⟨next, first, done⟩ := done
      obtain ⟨next', first', done'⟩ := done'
      exact ih (lower.prioritiseTransaction lowerCall first first') done done'

/-- Calls that give a transaction a lower fee delta leave a pool with a lower delta. -/
theorem LowerDelta.of_calls {hash : Uint256} {calls calls' : List DeltaCall}
    (lowerCalls : List.Forall₂ (DeltaCall.Lower hash) calls calls')
    {pool before after : CTxMemPool} (done : pool.prioritiseAll calls = some before)
    (done' : pool.prioritiseAll calls' = some after) : LowerDelta hash before after :=
  (LowerStored.prioritiseAll lowerCalls (LowerStored.refl hash pool) done done').lowerDelta

end CTxMemPool

namespace TemplateChain

variable {chain : TemplateChain} {pool : CTxMemPool} {tx : CTransaction}

/-- What a transaction is rated by comes from its inputs, from its deltas and from its outputs. -/
theorem modified_eq_some {fee : ModifiedFee}
    (modified : chain.modified pool tx = some (some fee)) :
    ∃ sums nValueOut,
      chain.addInputs pool.mapTx { nTotalIn := 0, dPriority := 0, setDependsOn := [] } tx.vin =
        some (some sums) ∧
      tx.getValueOut.toOption = some nValueOut ∧
      fee.dPriority = pool.priorityWith tx.hash
        (tx.computePriority sums.dPriority (tx.getSerializeSize % 2 ^ 32)) ∧
      fee.nFee = sums.nTotalIn + pool.feeDelta tx.hash - nValueOut := by
  unfold TemplateChain.modified at modified
  split at modified
  · simp at modified
  · simp only [Option.bind_eq_bind, Option.bind_eq_some_iff] at modified
    obtain ⟨sums, added, rated⟩ := modified
    cases sums with
    | none => simp at rated
    | some sums =>
        simp only [Option.bind_eq_some_iff, int64_eq_some, Option.some.injEq] at rated
        obtain ⟨deltas, applied, nValueOut, valueOut, nFee, ⟨-, rfl⟩, rfl⟩ := rated
        rw [CTxMemPool.applyDeltas_eq_some applied]
        exact ⟨sums, nValueOut, added, valueOut, rfl, rfl⟩

/-- A lower delta leaves the priority of the transaction and makes its fee no higher. -/
theorem modified_of_lowerDelta {before after : CTxMemPool} {fee fee' : ModifiedFee}
    (lower : CTxMemPool.LowerDelta tx.hash before after)
    (modified : chain.modified before tx = some (some fee))
    (modified' : chain.modified after tx = some (some fee')) :
    fee'.dPriority = fee.dPriority ∧ fee'.nFee ≤ fee.nFee := by
  obtain ⟨sums, nValueOut, added, valueOut, priority, nFee⟩ := modified_eq_some modified
  obtain ⟨sums', nValueOut', added', valueOut', priority', nFee'⟩ := modified_eq_some modified'
  rw [lower.mapTx, added] at added'
  rw [valueOut] at valueOut'
  cases added'
  cases valueOut'
  have delta := lower.fee
  exact ⟨by rw [priority, priority', lower.priority], by omega⟩

/-- Another transaction is rated as before. -/
theorem modified_of_ne {hash : Uint256} {before after : CTxMemPool}
    (lower : CTxMemPool.LowerDelta hash before after) (other : tx.hash ≠ hash) :
    chain.modified after tx = chain.modified before tx := by
  simp only [TemplateChain.modified, CTxMemPool.applyDeltas, lower.mapTx, lower.others _ other]

/-- The loop goes through the pool and rates each transaction by itself. -/
theorem mem_collect {items : List (Uint256 × CTxMemPoolEntry)} {collected : List COrphan}
    (loop : chain.collect pool items = some collected) {entry : COrphan}
    (member : entry ∈ collected) :
    ∃ item ∈ items, chain.poolEntry pool item.2.tx = some (some entry) := by
  induction items generalizing collected with
  | nil =>
      cases loop
      cases member
  | cons item rest ih =>
      simp only [collect, Option.bind_eq_bind, Option.bind_eq_some_iff, Option.some.injEq] at loop
      obtain ⟨first, rated, others, loop, rfl⟩ := loop
      cases List.mem_append.1 member with
      | inl here =>
          cases first with
          | none => cases here
          | some first =>
              cases List.mem_singleton.1 here
              exact ⟨item, List.mem_cons_self, rated⟩
      | inr behind =>
          obtain ⟨found, place, rated⟩ := ih loop behind
          exact ⟨found, List.mem_cons_of_mem item place, rated⟩

theorem mem_collect_of_rated {items : List (Uint256 × CTxMemPoolEntry)} {collected : List COrphan}
    (loop : chain.collect pool items = some collected) {item : Uint256 × CTxMemPoolEntry}
    (member : item ∈ items) {entry : COrphan}
    (rated : chain.poolEntry pool item.2.tx = some (some entry)) : entry ∈ collected := by
  induction items generalizing collected with
  | nil => cases member
  | cons first rest ih =>
      simp only [collect, Option.bind_eq_bind, Option.bind_eq_some_iff, Option.some.injEq] at loop
      obtain ⟨found, ratedFirst, others, loop, rfl⟩ := loop
      cases List.mem_cons.1 member with
      | inl here =>
          rw [here, ratedFirst, Option.some.injEq] at rated
          simp [rated]
      | inr behind => exact List.mem_append_right _ (ih loop behind)

theorem collect_isSome {items : List (Uint256 × CTxMemPoolEntry)}
    (each : ∀ item ∈ items, (chain.poolEntry pool item.2.tx).isSome = true) :
    ∃ collected, chain.collect pool items = some collected := by
  induction items with
  | nil => exact ⟨[], rfl⟩
  | cons item rest ih =>
      obtain ⟨entry, rated⟩ := Option.isSome_iff_exists.1 (each item List.mem_cons_self)
      obtain ⟨collected, loop⟩ := ih fun item member => each item (List.mem_cons_of_mem _ member)
      exact ⟨entry.toList ++ collected, by simp [collect, rated, loop]⟩

/-- No transaction of the given hash goes in front of another of its size by fee that it was behind
before. -/
def NotMovedAhead (hash : Uint256) (collected collected' : List COrphan) : Prop :=
  ∀ a ∈ collected, ∀ b ∈ collected, ∀ a' ∈ collected', ∀ b' ∈ collected',
    a'.tx = a.tx → b'.tx = b.tx → a.tx.hash = hash → b.tx.hash ≠ hash →
    a.tx.getSerializeSize = b.tx.getSerializeSize →
    txPriorityCompare true b'.toTxPriority a'.toTxPriority = true →
      txPriorityCompare true b.toTxPriority a.toTxPriority = true

def EachFee (chain : TemplateChain) (pool : CTxMemPool) (P : Int → Nat → Prop) : Prop :=
  ∀ item ∈ pool.mapTx.toList, ∀ fee, chain.modified pool item.2.tx = some (some fee) →
    P fee.nFee item.2.tx.getSerializeSize

/-- The pool has been brought to rates: the fees are computed, and the sizes are of 32 bits. -/
structure Rateable (chain : TemplateChain) (pool : CTxMemPool) : Prop where
  computed : ∀ item ∈ pool.mapTx.toList, (chain.modified pool item.2.tx).isSome = true
  sizes : ∀ item ∈ pool.mapTx.toList, item.2.tx.getSerializeSize < 2 ^ 32

theorem getSerializeSize_pos (tx : CTransaction) : 0 < tx.getSerializeSize := by
  unfold CTransaction.getSerializeSize
  omega

theorem poolEntry_eq_some {entry : COrphan}
    (rated : chain.poolEntry pool tx = some (some entry)) :
    ∃ fee, chain.modified pool tx = some (some fee) ∧ entry.tx = tx ∧
      entry.dPriority = fee.dPriority ∧
      CFeeRate.ofFee fee.nFee (tx.getSerializeSize % 2 ^ 32) = some entry.feeRate := by
  simp only [poolEntry, Option.bind_eq_bind, Option.bind_eq_some_iff] at rated
  obtain ⟨found, modified, rated⟩ := rated
  cases found with
  | none => simp at rated
  | some fee =>
      simp only [Option.bind_eq_some_iff, Option.some.injEq] at rated
      obtain ⟨feeRate, computed, rfl⟩ := rated
      exact ⟨fee, modified, rfl, rfl, computed⟩

theorem Rateable.collect {pool : CTxMemPool} (rateable : Rateable chain pool)
    (fits : EachFee chain pool CFeeRate.Fits) :
    ∃ collected, chain.collect pool pool.mapTx.toList = some collected := by
  apply collect_isSome
  intro item member
  obtain ⟨found, modified⟩ := Option.isSome_iff_exists.1 (rateable.computed item member)
  cases found with
  | none => simp [poolEntry, modified]
  | some fee =>
      have fit := fits item member fee modified
      have rate := CFeeRate.ofFee_of_nonneg (getSerializeSize_pos item.2.tx) fit.nonneg fit.product
      simp only [poolEntry, modified, Option.bind_eq_bind, Option.bind_some,
        Nat.mod_eq_of_lt (rateable.sizes item member), rate, Option.isSome_some]

/-- An entry of the loop, where the fees fit: its rate is what the fee makes for the size. -/
theorem Rateable.mem_collect {pool : CTxMemPool} (rateable : Rateable chain pool)
    (fits : EachFee chain pool CFeeRate.Fits) {collected : List COrphan}
    (loop : chain.collect pool pool.mapTx.toList = some collected) {entry : COrphan}
    (member : entry ∈ collected) :
    ∃ fee, chain.modified pool entry.tx = some (some fee) ∧ entry.dPriority = fee.dPriority ∧
      entry.feeRate.nSatoshisPerK = fee.nFee * 1000 / entry.tx.getSerializeSize := by
  obtain ⟨item, place, rated⟩ := TemplateChain.mem_collect loop member
  obtain ⟨fee, modified, same, priority, computed⟩ := poolEntry_eq_some rated
  have fit := fits item place fee modified
  rw [Nat.mod_eq_of_lt (rateable.sizes item place),
    CFeeRate.ofFee_of_nonneg (getSerializeSize_pos item.2.tx) fit.nonneg fit.product] at computed
  rw [same]
  exact ⟨fee, modified, priority, by rw [← Option.some.inj computed]⟩

theorem Rateable.exists_mem_collect {pool : CTxMemPool} (rateable : Rateable chain pool)
    (fits : EachFee chain pool CFeeRate.Fits) {collected : List COrphan}
    (loop : chain.collect pool pool.mapTx.toList = some collected)
    {item : Uint256 × CTxMemPoolEntry} (member : item ∈ pool.mapTx.toList) {fee : ModifiedFee}
    (modified : chain.modified pool item.2.tx = some (some fee)) :
    ∃ entry ∈ collected, entry.tx = item.2.tx ∧
      entry.feeRate.nSatoshisPerK = fee.nFee * 1000 / item.2.tx.getSerializeSize := by
  have fit := fits item member fee modified
  have rate := CFeeRate.ofFee_of_nonneg (getSerializeSize_pos item.2.tx) fit.nonneg fit.product
  have rated : chain.poolEntry pool item.2.tx = some (some
      { dPriority := fee.dPriority
        feeRate := { nSatoshisPerK := fee.nFee * 1000 / item.2.tx.getSerializeSize }
        tx := item.2.tx
        setDependsOn := fee.setDependsOn }) := by
    simp only [poolEntry, modified, Option.bind_eq_bind, Option.bind_some,
      Nat.mod_eq_of_lt (rateable.sizes item member), rate]
  exact ⟨_, mem_collect_of_rated loop member rated, rfl, rfl⟩

/-- Rates that are computed right keep their order when a fee is lowered. -/
theorem notMovedAhead {hash : Uint256} {before after : CTxMemPool}
    (lower : CTxMemPool.LowerDelta hash before after)
    (rateable : Rateable chain before) (rateable' : Rateable chain after)
    (fits : EachFee chain before CFeeRate.Fits) (fits' : EachFee chain after CFeeRate.Fits)
    {collected collected' : List COrphan}
    (loop : chain.collect before before.mapTx.toList = some collected)
    (loop' : chain.collect after after.mapTx.toList = some collected') :
    NotMovedAhead hash collected collected' := by
  intro a memberA b memberB a' memberA' b' memberB' sameA sameB own other size behind
  obtain ⟨feeA, modifiedA, priorityA, rateA⟩ := rateable.mem_collect fits loop memberA
  obtain ⟨feeB, modifiedB, priorityB, rateB⟩ := rateable.mem_collect fits loop memberB
  obtain ⟨feeA', modifiedA', priorityA', rateA'⟩ := rateable'.mem_collect fits' loop' memberA'
  obtain ⟨feeB', modifiedB', priorityB', rateB'⟩ := rateable'.mem_collect fits' loop' memberB'
  subst own
  rw [sameA] at modifiedA' rateA'
  rw [sameB] at modifiedB' rateB'
  rw [modified_of_ne lower other, modifiedB] at modifiedB'
  cases modifiedB'
  have lowered := modified_of_lowerDelta lower modifiedA modifiedA'
  have rates : a'.feeRate.nSatoshisPerK ≤ a.feeRate.nSatoshisPerK := by
    rw [rateA, rateA']
    exact Int.ediv_le_ediv (Int.natCast_pos.2 (getSerializeSize_pos a.tx)) (by omega)
  unfold txPriorityCompare at behind ⊢
  rw [if_pos rfl] at behind ⊢
  rw [rateB', ← rateB, priorityB', ← priorityB, priorityA', lowered.1, ← priorityA] at behind
  split at behind
  · split
    · exact behind
    · simp only [decide_eq_true_eq]
      omega
  · simp only [decide_eq_true_eq] at behind
    rw [if_neg (by omega)]
    simp only [decide_eq_true_eq]
    omega

/-- The rates of a pool are right, and stay in order when a fee delta is lowered, if and only if its
fees fit. -/
theorem eachFee_exact_iff {hash : Uint256} {before after : CTxMemPool}
    (lower : CTxMemPool.LowerDelta hash before after)
    (rateable : Rateable chain before) (rateable' : Rateable chain after) :
    (EachFee chain before CFeeRate.Exact ∧ EachFee chain after CFeeRate.Exact ∧
      ∃ collected collected',
        chain.collect before before.mapTx.toList = some collected ∧
        chain.collect after after.mapTx.toList = some collected' ∧
        NotMovedAhead hash collected collected') ↔
      EachFee chain before CFeeRate.Fits ∧ EachFee chain after CFeeRate.Fits := by
  have each : ∀ {pool : CTxMemPool}, Rateable chain pool →
      (EachFee chain pool CFeeRate.Exact ↔ EachFee chain pool CFeeRate.Fits) := by
    intro pool rateable
    constructor
    · intro exact item member fee modified
      exact (CFeeRate.exact_iff (getSerializeSize_pos item.2.tx) (rateable.sizes item member)).1
        (exact item member fee modified)
    · intro fits item member fee modified
      exact (CFeeRate.exact_iff (getSerializeSize_pos item.2.tx) (rateable.sizes item member)).2
        (fits item member fee modified)
  constructor
  · intro right
    exact ⟨(each rateable).1 right.1, (each rateable').1 right.2.1⟩
  · intro fits
    obtain ⟨collected, loop⟩ := rateable.collect fits.1
    obtain ⟨collected', loop'⟩ := rateable'.collect fits.2
    exact ⟨(each rateable).2 fits.1, (each rateable').2 fits.2, collected, collected', loop, loop',
      notMovedAhead lower rateable rateable' fits.1 fits.2 loop loop'⟩

/-- The rate of a fee is the fee for 1000 bytes rounded toward zero, and not above that of a higher
fee, if and only if the fee fits; and so for all the fees of a pool with the order that
`CreateNewBlock` has by them. -/
theorem feeRate_exact {nFeePaid : Int} {nSize : Nat} (positive : 0 < nSize)
    (small : nSize < 2 ^ 32) :
    ((CFeeRate.Exact nFeePaid nSize ∧
      ∀ rate higher higherRate, CFeeRate.Fits higher nSize → nFeePaid ≤ higher →
        CFeeRate.ofFee nFeePaid nSize = some rate →
        CFeeRate.ofFee higher nSize = some higherRate → rate.getFeePerK ≤ higherRate.getFeePerK) ↔
      CFeeRate.Fits nFeePaid nSize) ∧
    ∀ (chain : TemplateChain) (hash : Uint256) (before after : CTxMemPool),
      CTxMemPool.LowerDelta hash before after → Rateable chain before → Rateable chain after →
      ((EachFee chain before CFeeRate.Exact ∧ EachFee chain after CFeeRate.Exact ∧
        ∃ collected collected',
          chain.collect before before.mapTx.toList = some collected ∧
          chain.collect after after.mapTx.toList = some collected' ∧
          NotMovedAhead hash collected collected') ↔
        EachFee chain before CFeeRate.Fits ∧ EachFee chain after CFeeRate.Fits) := by
  constructor
  · constructor
    · intro right
      exact (CFeeRate.exact_iff positive small).1 right.1
    · intro fits
      have exact := (CFeeRate.exact_iff positive small).2 fits
      apply And.intro exact
      intro rate higher higherRate fitsHigher le computed computedHigher
      have exactHigher := (CFeeRate.exact_iff positive small).2 fitsHigher
      unfold CFeeRate.Exact at exact exactHigher
      rw [computed, Option.map_some, Option.some.injEq,
        Int.tdiv_eq_ediv_of_nonneg (by have := fits.nonneg; omega)] at exact
      rw [computedHigher, Option.map_some, Option.some.injEq,
        Int.tdiv_eq_ediv_of_nonneg (by have := fitsHigher.nonneg; omega)] at exactHigher
      rw [exact, exactHigher]
      exact Int.ediv_le_ediv (by omega) (by omega)
  · intro chain hash before after lower rateable rateable'
    exact eachFee_exact_iff lower rateable rateable'

/-- A transaction that pays `nValue` of the 1000 that its input is worth. -/
def paying (hash : Uint256) (n : UInt32) (nValue : Int) : CTransaction :=
  { hash := hash
    nVersion := 1
    vin := [{ prevout := { hash := 1, n := n }, scriptSig := [], nSequence := 0xffffffff }]
    vout := [{ nValue := nValue, scriptPubKey := [] }]
    nLockTime := 0 }

/-- A pool with two transactions of one size, and a delta of the fee of the first. -/
def payingPool (nFeeDelta : Int) : CTxMemPool :=
  { CTxMemPool.new with
    mapTx := ((∅ : Std.ExtTreeMap Uint256 CTxMemPoolEntry).insert 7
      (CTxMemPoolEntry.ofTx (paying 7 0 900) 100 0 0.0 10)).insert 8
        (CTxMemPoolEntry.ofTx (paying 8 1 980) 20 0 0.0 10)
    mapDeltas := (∅ : Std.ExtTreeMap Uint256 (Float × Int)).insert 7 (0.0, nFeeDelta) }

def payingChain : TemplateChain :=
  { view :=
      { coins := fun hash =>
          if hash = 1 then
            some { fCoinBase := false
                   vout := [{ nValue := 1000, scriptPubKey := [] },
                     { nValue := 1000, scriptPubKey := [] }]
                   nHeight := 3, nVersion := 1 }
          else none
        hashBestBlock := 2 }
    nHeight := 10
    nAdjustedTime := 100
    fDebug := false }

section

variable {nFeeDelta : Int} {item : Uint256 × CTxMemPoolEntry}

theorem mem_payingPool : item ∈ (payingPool nFeeDelta).mapTx.toList ↔
    item = (7, CTxMemPoolEntry.ofTx (paying 7 0 900) 100 0 0.0 10) ∨
      item = (8, CTxMemPoolEntry.ofTx (paying 8 1 980) 20 0 0.0 10) := by
  obtain ⟨hash, entry⟩ := item
  rw [Std.ExtTreeMap.mem_toList_iff_getElem?_eq_some]
  simp only [payingPool, Std.ExtTreeMap.getElem?_insert, Std.LawfulEqCmp.compare_eq_iff_eq,
    Prod.mk.injEq]
  constructor
  · intro found
    split at found
    · next eight => exact Or.inr ⟨eight.symm, (Option.some.inj found).symm⟩
    · split at found
      · next seven => exact Or.inl ⟨seven.symm, (Option.some.inj found).symm⟩
      · simp at found
  · rintro (⟨rfl, rfl⟩ | ⟨rfl, rfl⟩) <;> rfl

theorem modified_paying (small : |nFeeDelta| ≤ 1000) :
    ∃ fee, payingChain.modified (payingPool nFeeDelta) (paying 7 0 900) = some (some fee) ∧
      fee.nFee = 100 + nFeeDelta := by
  rw [abs_le] at small
  have total : int64 (0 + 1000) = some 1000 := rfl
  have applied : int64 (1000 + nFeeDelta) = some (1000 + nFeeDelta) :=
    int64_of_inInt64 (by unfold InInt64; omega)
  have fee : int64 (1000 + nFeeDelta - 900) = some (1000 + nFeeDelta - 900) :=
    int64_of_inInt64 (by unfold InInt64; omega)
  have valueOut : (paying 7 0 900).getValueOut.toOption = some 900 := by decide
  have added : (payingChain.addInputs (payingPool nFeeDelta).mapTx
      { nTotalIn := 0, dPriority := 0, setDependsOn := [] } (paying 7 0 900).vin) =
        some (some { nTotalIn := 1000, dPriority := 0 + Float.ofInt 1000 * Float.ofInt 7,
                     setDependsOn := [] }) := rfl
  have passed : ((paying 7 0 900).isCoinBase ||
      !isFinalTx (paying 7 0 900) payingChain.nHeight payingChain.nAdjustedTime) = false := by
    decide
  have delta : (payingPool nFeeDelta).mapDeltas[(paying 7 0 900).hash]? = some (0.0, nFeeDelta) :=
    Std.ExtTreeMap.getElem?_insert_self
  simp only [TemplateChain.modified, passed, Bool.false_eq_true, if_false, added,
    CTxMemPool.applyDeltas, delta, valueOut, Option.bind_eq_bind, Option.bind_some, applied, fee,
    Option.some.injEq, exists_eq_left']
  omega

theorem modified_payingLess :
    ∃ fee, payingChain.modified (payingPool nFeeDelta) (paying 8 1 980) = some (some fee) ∧
      fee.nFee = 20 := by
  have fee : int64 (1000 - 980) = some 20 := rfl
  have valueOut : (paying 8 1 980).getValueOut.toOption = some 980 := by decide
  have added : (payingChain.addInputs (payingPool nFeeDelta).mapTx
      { nTotalIn := 0, dPriority := 0, setDependsOn := [] } (paying 8 1 980).vin) =
        some (some { nTotalIn := 1000, dPriority := 0 + Float.ofInt 1000 * Float.ofInt 7,
                     setDependsOn := [] }) := rfl
  have passed : ((paying 8 1 980).isCoinBase ||
      !isFinalTx (paying 8 1 980) payingChain.nHeight payingChain.nAdjustedTime) = false := by
    decide
  have delta : (payingPool nFeeDelta).mapDeltas[(paying 8 1 980).hash]? = none := rfl
  simp only [TemplateChain.modified, passed, Bool.false_eq_true, if_false, added,
    CTxMemPool.applyDeltas, delta, valueOut, Option.bind_eq_bind, Option.bind_some, fee,
    Option.some.injEq, exists_eq_left']

theorem rateable_paying (small : |nFeeDelta| ≤ 1000) :
    Rateable payingChain (payingPool nFeeDelta) where
  computed := by
    intro item member
    rcases mem_payingPool.1 member with rfl | rfl
    · obtain ⟨fee, modified, -⟩ := modified_paying small
      exact Option.isSome_iff_exists.2 ⟨_, modified⟩
    · obtain ⟨fee, modified, -⟩ := @modified_payingLess nFeeDelta
      exact Option.isSome_iff_exists.2 ⟨_, modified⟩
  sizes := by
    intro item member
    rcases mem_payingPool.1 member with rfl | rfl <;> decide

theorem fits_paying (small : |nFeeDelta| ≤ 1000) (nonneg : 0 ≤ 100 + nFeeDelta) :
    EachFee payingChain (payingPool nFeeDelta) CFeeRate.Fits := by
  intro item member fee modified
  rcases mem_payingPool.1 member with rfl | rfl
  · obtain ⟨found, modified', nFee⟩ := modified_paying small
    have same := (modified.symm.trans modified')
    simp only [Option.some.injEq] at same
    have size : (paying 7 0 900).getSerializeSize = 60 := by decide
    rw [abs_le] at small
    change CFeeRate.Fits fee.nFee (paying 7 0 900).getSerializeSize
    rw [size, same, nFee]
    constructor <;> omega
  · obtain ⟨found, modified', nFee⟩ := @modified_payingLess nFeeDelta
    have same := (modified.symm.trans modified')
    simp only [Option.some.injEq] at same
    have size : (paying 8 1 980).getSerializeSize = 60 := by decide
    change CFeeRate.Fits fee.nFee (paying 8 1 980).getSerializeSize
    rw [size, same, nFee]
    constructor <;> decide

theorem lowerDelta_paying {low high : Int} (le : low ≤ high) :
    CTxMemPool.LowerDelta 7 (payingPool high) (payingPool low) := by
  have delta : ∀ nFeeDelta,
      (payingPool nFeeDelta).mapDeltas[(7 : Uint256)]? = some (0.0, nFeeDelta) :=
    fun _ => Std.ExtTreeMap.getElem?_insert_self
  apply CTxMemPool.LowerStored.lowerDelta
  constructor
  · rfl
  · intro other apart
    have apart' : (7 : Uint256) ≠ other := fun same => apart same.symm
    simp [payingPool, apart']
  · rw [delta, delta]
    rfl
  · simpa [CTxMemPool.feeDelta, delta] using le

/-- The second transaction is behind the first, unless the delta of the first is below -79. -/
theorem behind_payingPool (small : |nFeeDelta| ≤ 1000) (high : 0 ≤ 79 + nFeeDelta)
    {collected : List COrphan}
    (loop : payingChain.collect (payingPool nFeeDelta) (payingPool nFeeDelta).mapTx.toList =
      some collected) :
    ∃ a ∈ collected, ∃ b ∈ collected, a.tx = paying 7 0 900 ∧ b.tx = paying 8 1 980 ∧
      txPriorityCompare true b.toTxPriority a.toTxPriority = true := by
  obtain ⟨fee, modified, nFee⟩ := modified_paying small
  obtain ⟨less, modifiedLess, nLess⟩ := @modified_payingLess nFeeDelta
  have rateable := rateable_paying small
  have fits := fits_paying small (by omega)
  obtain ⟨a, memberA, txA, rateA⟩ :=
    rateable.exists_mem_collect fits loop (mem_payingPool.2 (Or.inl rfl)) modified
  obtain ⟨b, memberB, txB, rateB⟩ :=
    rateable.exists_mem_collect fits loop (mem_payingPool.2 (Or.inr rfl)) modifiedLess
  refine ⟨a, memberA, b, memberB, txA, txB, ?_⟩
  have sizeA : (paying 7 0 900).getSerializeSize = 60 := by decide
  have sizeB : (paying 8 1 980).getSerializeSize = 60 := by decide
  change _ = _ / ((paying 7 0 900).getSerializeSize : Int) at rateA
  change _ = _ / ((paying 8 1 980).getSerializeSize : Int) at rateB
  rw [sizeA, nFee] at rateA
  rw [sizeB, nLess] at rateB
  unfold txPriorityCompare
  rw [if_pos rfl, rateA, rateB, if_neg (by omega), decide_eq_true_eq]
  omega

end

theorem feeRate_exact_paying :
    CFeeRate.Exact 1000 250 ∧
      ∃ collected collected',
        payingChain.collect (payingPool 50) (payingPool 50).mapTx.toList = some collected ∧
        payingChain.collect (payingPool 0) (payingPool 0).mapTx.toList = some collected' ∧
        NotMovedAhead 7 collected collected' ∧
        ∃ a ∈ collected', ∃ b ∈ collected', a.tx = paying 7 0 900 ∧ b.tx = paying 8 1 980 ∧
          txPriorityCompare true b.toTxPriority a.toTxPriority = true := by
  obtain ⟨alone, pools⟩ := @feeRate_exact 1000 250 (by decide) (by decide)
  have right := (pools payingChain 7 (payingPool 50) (payingPool 0)
    (lowerDelta_paying (by decide)) (rateable_paying (by decide)) (rateable_paying (by decide))).2
      ⟨fits_paying (by decide) (by decide), fits_paying (by decide) (by decide)⟩
  obtain ⟨-, -, collected, collected', loop, loop', kept⟩ := right
  exact ⟨(alone.2 ⟨by decide, by decide, by decide⟩).1, collected, collected', loop, loop', kept,
    behind_payingPool (by decide) (by decide) loop'⟩

/-- A fee below zero is rated higher than a fee of ninety million coins for the same size. -/
theorem negativeFee_ahead :
    ∃ low high, CFeeRate.ofFee (-1) 250 = some low ∧
      CFeeRate.ofFee 9000000000000000 250 = some high ∧
      |(-1 : Int)| ≤ MAX_MONEY ∧ ¬CFeeRate.Exact (-1) 250 ∧
      ∀ dPriority dPriority' tx tx',
        txPriorityCompare true ⟨dPriority, high, tx⟩ ⟨dPriority', low, tx'⟩ = true := by
  have wrong : ¬CFeeRate.Exact (-1) 250 := by
    unfold CFeeRate.Exact
    decide
  refine ⟨⟨73786976294838202⟩, ⟨36000000000000000⟩, by decide, by decide, by decide, wrong, ?_⟩
  intro dPriority dPriority' tx tx'
  simp [txPriorityCompare]

end TemplateChain

end Lycancoin
