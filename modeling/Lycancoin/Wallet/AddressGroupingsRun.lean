import Lycancoin.Data.Merging
import Lycancoin.Wallet.Balance
import Lycancoin.Wallet.WalletChain

namespace Lycancoin

open Data

/-- A `set<CTxDestination>`. -/
abbrev AddressSet := Finset CTxDestination

namespace WalletNode

variable (setting : WalletSetting) (context : BalanceContext) (node : WalletNode)

/-- The output behind an input, where `IsMine` of the input holds. -/
def ownedPrevout (txin : CTxIn) : Option CTxOut :=
  match node.mapWallet[txin.prevout.hash]? with
  | none => none
  | some prev =>
      match prev.tx.vout[txin.prevout.n.toNat]? with
      | none => none
      | some txout => if setting.isMine txout.scriptPubKey ≠ .no then some txout else none

/-- The loop over the inputs: `grouping` and `any_mine`. -/
def groupInputs : List CTxIn → AddressSet → Bool → AddressSet × Bool
  | [], grouping, any_mine => (grouping, any_mine)
  | txin :: vin, grouping, any_mine =>
      match node.ownedPrevout setting txin with
      | none => groupInputs vin grouping any_mine
      | some txout =>
          match context.extractDestination txout.scriptPubKey with
          | none => groupInputs vin grouping any_mine
          | some address => groupInputs vin (insert address grouping) true

/-- The loop over the outputs for the change. -/
def groupChange : List CTxOut → AddressSet → AddressSet
  | [], grouping => grouping
  | txout :: vout, grouping =>
      if isChange setting context txout then
        match context.extractDestination txout.scriptPubKey with
        | none => groupChange vout grouping
        | some txoutAddr => groupChange vout (insert txoutAddr grouping)
      else groupChange vout grouping

/-- The grouping of the addresses that a transaction spends from and its change. -/
def groupSpent (pcoin : CWalletTx) : AddressSet :=
  if pcoin.tx.vin.length > 0 then
    let (grouping, any_mine) := node.groupInputs setting context pcoin.tx.vin ∅ false
    if any_mine then groupChange setting context pcoin.tx.vout grouping else grouping
  else ∅

/-- The addresses of the owned outputs, each by itself. -/
def groupLone : List CTxOut → Finset AddressSet → Finset AddressSet
  | [], groupings => groupings
  | txout :: vout, groupings =>
      if setting.isMine txout.scriptPubKey ≠ .no then
        match context.extractDestination txout.scriptPubKey with
        | none => groupLone vout groupings
        | some address => groupLone vout (insert {address} groupings)
      else groupLone vout groupings

def collectGroupings : List (Uint256 × CWalletTx) → Finset AddressSet → Finset AddressSet
  | [], groupings => groupings
  | (_, pcoin) :: rest, groupings =>
      let grouping := node.groupSpent setting context pcoin
      let groupings := if grouping.card > 0 then insert grouping groupings else groupings
      collectGroupings rest (groupLone setting context pcoin.tx.vout groupings)

end WalletNode

/-- The allocated sets of addresses, and what points to them. -/
structure GroupState where
  heap : Nat → Option AddressSet
  uniqueGroupings : Finset Nat
  setmap : CTxDestination → Option Nat

/-- The order in which a set of sets is gone through, and where `new` puts a set. -/
structure GroupChoices where
  order : Finset AddressSet → List AddressSet
  mem_order : ∀ groupings grouping, grouping ∈ order groupings ↔ grouping ∈ groupings
  allocate : Finset Nat → Nat
  allocate_fresh : ∀ live, allocate live ∉ live

namespace GroupState

def start : GroupState :=
  { heap := fun _ => none, uniqueGroupings := ∅, setmap := fun _ => none }

/-- Merges the groups that a new group hits.  There is no result when a pointer to a deleted set
is used. -/
def mergeGroup (choices : GroupChoices) (grouping : AddressSet) (state : GroupState) :
    Option GroupState :=
  let hits := grouping.biUnion fun address => (state.setmap address).toFinset
  if ∀ hit ∈ hits, (state.heap hit).isSome then
    let merged := grouping ∪ hits.biUnion fun hit => (state.heap hit).getD ∅
    let pointer := choices.allocate state.uniqueGroupings
    some {
      heap := fun place =>
        if place = pointer then some merged else if place ∈ hits then none else state.heap place
      uniqueGroupings := insert pointer (state.uniqueGroupings \ hits)
      setmap := fun element => if element ∈ merged then some pointer else state.setmap element }
  else none

def mergeGroups (choices : GroupChoices) : List AddressSet → GroupState → Option GroupState
  | [], state => some state
  | grouping :: groupings, state => do
      let state ← state.mergeGroup choices grouping
      mergeGroups choices groupings state

def result (state : GroupState) : Option (Finset AddressSet) :=
  if ∀ pointer ∈ state.uniqueGroupings, (state.heap pointer).isSome then
    some (state.uniqueGroupings.image fun pointer => (state.heap pointer).getD ∅)
  else none

end GroupState

def WalletNode.getAddressGroupings (setting : WalletSetting) (context : BalanceContext)
    (node : WalletNode) (choices : GroupChoices) : Option (Finset AddressSet) := do
  let groupings := node.collectGroupings setting context node.mapWallet.toList ∅
  let state ← GroupState.start.mergeGroups choices (choices.order groupings)
  state.result

namespace GroupState

variable {state : GroupState} {groups : List AddressSet}
  {parts : Finset AddressSet}

/-- The pointers stand for the parts: each points to a part of its own, and the map leads each
address of a part to its pointer. -/
structure Represents (state : GroupState) (parts : Finset AddressSet) : Prop where
  allocated : ∀ pointer ∈ state.uniqueGroupings, ∃ part ∈ parts, state.heap pointer = some part
  pointed : ∀ part ∈ parts, ∃ pointer ∈ state.uniqueGroupings, state.heap pointer = some part
  setmap : ∀ address pointer, state.setmap address = some pointer ↔
    pointer ∈ state.uniqueGroupings ∧ ∃ part, state.heap pointer = some part ∧ address ∈ part

theorem Represents.start : Represents start ∅ := by
  constructor <;> simp [GroupState.start]

theorem Represents.result (represents : Represents state parts) : state.result = some parts := by
  unfold GroupState.result
  rw [if_pos]
  · congr 1
    ext part
    simp only [Finset.mem_image]
    constructor
    · rintro ⟨pointer, unique, rfl⟩
      obtain ⟨part, member, points⟩ := represents.allocated pointer unique
      simpa [points] using member
    · intro member
      obtain ⟨pointer, unique, points⟩ := represents.pointed part member
      exact ⟨pointer, unique, by simp [points]⟩
  · intro pointer unique
    obtain ⟨part, _, points⟩ := represents.allocated pointer unique
    simp [points]

theorem Represents.mem_hits (represents : Represents state parts) {grouping : AddressSet}
    {pointer : Nat} :
    (pointer ∈ grouping.biUnion fun address => (state.setmap address).toFinset) ↔
      pointer ∈ state.uniqueGroupings ∧
        ∃ part ∈ Merging.hits grouping parts, state.heap pointer = some part := by
  simp only [Finset.mem_biUnion, Option.mem_toFinset, Option.mem_def, represents.setmap,
    Merging.mem_hits]
  constructor
  · rintro ⟨address, inGroup, unique, part, points, inPart⟩
    obtain ⟨other, member, same⟩ := represents.allocated pointer unique
    obtain rfl : part = other := Option.some.inj (points.symm.trans same)
    exact ⟨unique, part, ⟨member, address, inPart, inGroup⟩, points⟩
  · rintro ⟨unique, part, ⟨_, address, inPart, inGroup⟩, points⟩
    exact ⟨address, inGroup, unique, part, points, inPart⟩

/-- One merge uses no deleted set, and does to the parts what `absorb` does. -/
theorem Represents.mergeGroup (choices : GroupChoices) (represents : Represents state parts)
    (components : Merging.Components groups parts) (grouping : AddressSet) :
    ∃ after, state.mergeGroup choices grouping = some after ∧
      Represents after (Merging.absorb grouping parts) := by
  have hitsSome : ∀ hit ∈ grouping.biUnion fun address => (state.setmap address).toFinset,
      (state.heap hit).isSome := by
    intro hit member
    obtain ⟨_, part, _, points⟩ := represents.mem_hits.1 member
    simp [points]
  have mergedEq : (grouping ∪ (grouping.biUnion fun address =>
      (state.setmap address).toFinset).biUnion fun hit => (state.heap hit).getD ∅) =
      Merging.merged grouping parts := by
    ext address
    simp only [Finset.mem_union, Merging.mem_merged, Finset.mem_biUnion (s := grouping.biUnion _)]
    apply or_congr Iff.rfl
    constructor
    · rintro ⟨hit, member, inHit⟩
      obtain ⟨_, part, hitPart, points⟩ := represents.mem_hits.1 member
      exact ⟨part, hitPart, by simpa [points] using inHit⟩
    · rintro ⟨part, hitPart, inPart⟩
      obtain ⟨pointer, unique, points⟩ := represents.pointed part (Merging.mem_hits.1 hitPart).1
      exact ⟨pointer, represents.mem_hits.2 ⟨unique, part, hitPart, points⟩, by simp [points, inPart]⟩
  unfold GroupState.mergeGroup
  dsimp only
  rw [if_pos hitsSome, mergedEq]
  refine ⟨_, rfl, ?_⟩
  have fresh := choices.allocate_fresh state.uniqueGroupings
  -- a pointer that stays is not to a hit, and is where it was
  have kept : ∀ pointer ∈ state.uniqueGroupings, ∀ part, state.heap pointer = some part →
      ((pointer ∈ grouping.biUnion fun address => (state.setmap address).toFinset) ↔
        part ∈ Merging.hits grouping parts) := by
    intro pointer unique part points
    rw [represents.mem_hits]
    constructor
    · rintro ⟨_, other, hit, same⟩
      rwa [Option.some.inj (points.symm.trans same)]
    · exact fun hit => ⟨unique, part, hit, points⟩
  have stays : ∀ pointer ∈ state.uniqueGroupings, pointer ≠ choices.allocate state.uniqueGroupings :=
    fun pointer unique same => fresh (same ▸ unique)
  have partOf : ∀ pointer ∈ state.uniqueGroupings, ∀ part, state.heap pointer = some part →
      part ∈ parts := by
    intro pointer unique part points
    obtain ⟨other, member, same⟩ := represents.allocated pointer unique
    rwa [Option.some.inj (points.symm.trans same)]
  constructor
  · intro pointer member
    rcases Finset.mem_insert.1 member with rfl | old
    · exact ⟨_, Finset.mem_insert_self _ _, if_pos rfl⟩
    · obtain ⟨unique, notHit⟩ := Finset.mem_sdiff.1 old
      obtain ⟨part, partIn, points⟩ := represents.allocated pointer unique
      refine ⟨part, Finset.mem_insert_of_mem (Finset.mem_sdiff.2 ⟨partIn, ?_⟩), ?_⟩
      · exact fun hit => notHit ((kept pointer unique part points).2 hit)
      · dsimp only
        rw [if_neg (stays pointer unique), if_neg notHit, points]
  · intro part member
    rcases Finset.mem_insert.1 member with rfl | old
    · exact ⟨_, Finset.mem_insert_self _ _, if_pos rfl⟩
    · obtain ⟨partIn, notHit⟩ := Finset.mem_sdiff.1 old
      obtain ⟨pointer, unique, points⟩ := represents.pointed part partIn
      have free := fun hit => notHit ((kept pointer unique part points).1 hit)
      refine ⟨pointer, Finset.mem_insert_of_mem (Finset.mem_sdiff.2 ⟨unique, free⟩), ?_⟩
      dsimp only
      rw [if_neg (stays pointer unique), if_neg free, points]
  · intro address pointer
    dsimp only
    by_cases inMerged : address ∈ Merging.merged grouping parts
    · rw [if_pos inMerged]
      constructor
      · intro same
        obtain rfl := Option.some.inj same
        exact ⟨Finset.mem_insert_self _ _, _, if_pos rfl, inMerged⟩
      · rintro ⟨member, part, points, inPart⟩
        rcases Finset.mem_insert.1 member with rfl | old
        · rfl
        · obtain ⟨unique, notHit⟩ := Finset.mem_sdiff.1 old
          rw [if_neg (stays pointer unique), if_neg notHit] at points
          have partIn := partOf pointer unique part points
          have hit : part ∈ Merging.hits grouping parts := by
            rcases Merging.mem_merged.1 inMerged with inGroup | ⟨other, otherHit, inOther⟩
            · exact Merging.mem_hits.2 ⟨partIn, address, inPart, inGroup⟩
            · rwa [components.eq_of_mem partIn (Merging.mem_hits.1 otherHit).1 inPart inOther]
          exact absurd ((kept pointer unique part points).2 hit) notHit
    · rw [if_neg inMerged, represents.setmap]
      constructor
      · rintro ⟨unique, part, points, inPart⟩
        have free := fun hit => inMerged
          (Merging.mem_merged.2 (Or.inr ⟨part, (kept pointer unique part points).1 hit, inPart⟩))
        refine ⟨Finset.mem_insert_of_mem (Finset.mem_sdiff.2 ⟨unique, free⟩), part, ?_, inPart⟩
        rw [if_neg (stays pointer unique), if_neg free, points]
      · rintro ⟨member, part, points, inPart⟩
        rcases Finset.mem_insert.1 member with rfl | old
        · rw [if_pos rfl] at points
          exact absurd (Option.some.inj points ▸ inPart) inMerged
        · obtain ⟨unique, notHit⟩ := Finset.mem_sdiff.1 old
          rw [if_neg (stays pointer unique), if_neg notHit] at points
          exact ⟨unique, part, points, inPart⟩

/-- The whole loop: the sets that are left are the connected components of the groups. -/
theorem Represents.mergeGroups (choices : GroupChoices) (represents : Represents state parts)
    (components : Merging.Components groups parts) {groupings : List AddressSet}
    (nonempty : ∀ grouping ∈ groupings, grouping.Nonempty) :
    ∃ after final, state.mergeGroups choices groupings = some after ∧ Represents after final ∧
      Merging.Components (groupings.reverse ++ groups) final := by
  induction groupings generalizing state parts groups with
  | nil => exact ⟨state, parts, rfl, represents, components⟩
  | cons grouping groupings ih =>
      obtain ⟨next, nextEq, nextRepresents⟩ := represents.mergeGroup choices components grouping
      obtain ⟨after, final, run, finalRepresents, finalComponents⟩ := ih nextRepresents
        (components.absorb (nonempty grouping List.mem_cons_self))
        fun other member => nonempty other (List.mem_cons_of_mem grouping member)
      refine ⟨after, final, ?_, finalRepresents, by simpa using finalComponents⟩
      rw [GroupState.mergeGroups, nextEq]
      exact run

end GroupState

namespace WalletNode

variable {setting : WalletSetting} {context : BalanceContext} {node : WalletNode}

/-- An address of an owned input of a transaction. -/
def SpentFrom (setting : WalletSetting) (context : BalanceContext) (node : WalletNode)
    (wtx : CWalletTx) (address : CTxDestination) : Prop :=
  ∃ txin ∈ wtx.tx.vin, ∃ txout, node.ownedPrevout setting txin = some txout ∧
    context.extractDestination txout.scriptPubKey = some address

def ChangeOf (setting : WalletSetting) (context : BalanceContext) (wtx : CWalletTx)
    (address : CTxDestination) : Prop :=
  ∃ txout ∈ wtx.tx.vout, isChange setting context txout = true ∧
    context.extractDestination txout.scriptPubKey = some address

/-- An address of an owned output of a transaction. -/
def PaidTo (setting : WalletSetting) (context : BalanceContext) (wtx : CWalletTx)
    (address : CTxDestination) : Prop :=
  ∃ txout ∈ wtx.tx.vout, setting.isMine txout.scriptPubKey ≠ .no ∧
    context.extractDestination txout.scriptPubKey = some address

/-- The addresses of the owned inputs of a transaction and, where there is one, of its change. -/
def Joined (setting : WalletSetting) (context : BalanceContext) (node : WalletNode)
    (wtx : CWalletTx) (address : CTxDestination) : Prop :=
  SpentFrom setting context node wtx address ∨
    (∃ other, SpentFrom setting context node wtx other) ∧ ChangeOf setting context wtx address

theorem groupInputs_spec (vin : List CTxIn) (grouping : AddressSet) (any_mine : Bool) :
    (∀ address, address ∈ (node.groupInputs setting context vin grouping any_mine).1 ↔
      address ∈ grouping ∨ ∃ txin ∈ vin, ∃ txout, node.ownedPrevout setting txin = some txout ∧
        context.extractDestination txout.scriptPubKey = some address) ∧
    ((node.groupInputs setting context vin grouping any_mine).2 = true ↔
      any_mine = true ∨ ∃ address, ∃ txin ∈ vin, ∃ txout,
        node.ownedPrevout setting txin = some txout ∧
        context.extractDestination txout.scriptPubKey = some address) := by
  induction vin generalizing grouping any_mine with
  | nil => simp [groupInputs]
  | cons txin vin ih =>
      unfold groupInputs
      cases owned : node.ownedPrevout setting txin with
      | none => simp [ih, owned]
      | some txout =>
          cases extracted : context.extractDestination txout.scriptPubKey with
          | none => simp [ih, owned, extracted]
          | some address =>
              refine ⟨fun other => ?_, ?_⟩
              · simp only [ih, Finset.mem_insert, List.mem_cons, exists_eq_or_imp, owned,
                  Option.some.injEq, exists_eq_left', extracted]
                rw [eq_comm (a := other), or_comm (a := address = other), or_assoc]
              · simp [ih, owned, extracted]

theorem mem_groupChange (vout : List CTxOut) (grouping : AddressSet) (address : CTxDestination) :
    address ∈ groupChange setting context vout grouping ↔
      address ∈ grouping ∨ ∃ txout ∈ vout, isChange setting context txout = true ∧
        context.extractDestination txout.scriptPubKey = some address := by
  induction vout generalizing grouping with
  | nil => simp [groupChange]
  | cons txout vout ih =>
      unfold groupChange
      cases change : isChange setting context txout with
      | false => simp [ih, change]
      | true =>
          cases extracted : context.extractDestination txout.scriptPubKey with
          | none => simp [ih, change, extracted]
          | some txoutAddr =>
              simp only [if_true, ih, Finset.mem_insert, List.mem_cons, exists_eq_or_imp, change,
                true_and, extracted, Option.some.injEq]
              rw [eq_comm, or_comm (a := txoutAddr = address), or_assoc]

theorem mem_groupSpent (pcoin : CWalletTx) (address : CTxDestination) :
    address ∈ node.groupSpent setting context pcoin ↔
      Joined setting context node pcoin address := by
  have spec := @groupInputs_spec setting context node pcoin.tx.vin ∅ false
  simp only [Finset.notMem_empty, false_or, Bool.false_eq_true] at spec
  unfold groupSpent Joined
  by_cases some : pcoin.tx.vin.length > 0
  · rw [if_pos some]
    dsimp only
    by_cases any : (node.groupInputs setting context pcoin.tx.vin ∅ false).2 = true
    · rw [if_pos any, mem_groupChange, spec.1]
      have found := spec.2.1 any
      apply or_congr Iff.rfl
      exact ⟨fun change => ⟨found, change⟩, fun both => both.2⟩
    · rw [if_neg any, spec.1]
      constructor
      · exact Or.inl
      · rintro (spent | ⟨found, _⟩)
        · exact spent
        · exact absurd (spec.2.2 found) any
  · have empty : pcoin.tx.vin = [] := List.length_eq_zero_iff.1 (by omega)
    rw [if_neg some]
    simp [SpentFrom, empty]

theorem mem_groupLone (vout : List CTxOut) (groupings : Finset AddressSet)
    (grouping : AddressSet) :
    grouping ∈ groupLone setting context vout groupings ↔
      grouping ∈ groupings ∨ ∃ txout ∈ vout, setting.isMine txout.scriptPubKey ≠ .no ∧
        ∃ address, context.extractDestination txout.scriptPubKey = some address ∧
          grouping = {address} := by
  induction vout generalizing groupings with
  | nil => simp [groupLone]
  | cons txout vout ih =>
      unfold groupLone
      by_cases mine : setting.isMine txout.scriptPubKey ≠ .no
      · rw [if_pos mine]
        cases extracted : context.extractDestination txout.scriptPubKey with
        | none => simp [ih, extracted]
        | some address =>
            simp only [ih, Finset.mem_insert, List.mem_cons, exists_eq_or_imp, extracted,
              Option.some.injEq, exists_eq_left']
            rw [or_comm (a := grouping = {address}), or_assoc, and_iff_right mine]
      · rw [if_neg mine]
        simp only [ne_eq, not_not] at mine
        simp [ih, mine]

theorem mem_collectGroupings (items : List (Uint256 × CWalletTx)) (groupings : Finset AddressSet)
    (grouping : AddressSet) :
    grouping ∈ node.collectGroupings setting context items groupings ↔
      grouping ∈ groupings ∨ ∃ item ∈ items,
        (grouping.Nonempty ∧ grouping = node.groupSpent setting context item.2) ∨
        ∃ address, PaidTo setting context item.2 address ∧ grouping = {address} := by
  induction items generalizing groupings with
  | nil => simp [collectGroupings]
  | cons item items ih =>
      unfold collectGroupings
      have added : grouping ∈ (if (node.groupSpent setting context item.2).card > 0 then
          insert (node.groupSpent setting context item.2) groupings else groupings) ↔
          grouping ∈ groupings ∨
            (grouping.Nonempty ∧ grouping = node.groupSpent setting context item.2) := by
        split
        · next some =>
          rw [Finset.mem_insert]
          have nonempty := Finset.card_pos.1 some
          constructor
          · rintro (rfl | old)
            · exact Or.inr ⟨nonempty, rfl⟩
            · exact Or.inl old
          · rintro (old | ⟨_, rfl⟩)
            · exact Or.inr old
            · exact Or.inl rfl
        · next none =>
          have empty : node.groupSpent setting context item.2 = ∅ :=
            Finset.card_eq_zero.1 (by omega)
          constructor
          · exact Or.inl
          · rintro (old | ⟨nonempty, rfl⟩)
            · exact old
            · rw [empty] at nonempty
              exact absurd nonempty Finset.not_nonempty_empty
      have lone : (∃ txout ∈ item.2.tx.vout, setting.isMine txout.scriptPubKey ≠ .no ∧
          ∃ address, context.extractDestination txout.scriptPubKey = some address ∧
            grouping = {address}) ↔
          ∃ address, PaidTo setting context item.2 address ∧ grouping = {address} := by
        constructor
        · rintro ⟨txout, member, mine, address, extracted, eq⟩
          exact ⟨address, ⟨txout, member, mine, extracted⟩, eq⟩
        · rintro ⟨address, ⟨txout, member, mine, extracted⟩, eq⟩
          exact ⟨txout, member, mine, address, extracted, eq⟩
      rw [ih, mem_groupLone, added, lone, List.exists_mem_cons_iff]
      simp only [or_assoc]

/-- Two addresses are joined by a transaction of the wallet. -/
def JoinedBy (setting : WalletSetting) (context : BalanceContext) (node : WalletNode)
    (first second : CTxDestination) : Prop :=
  ∃ (wtxid : Uint256) (wtx : CWalletTx), node.mapWallet[wtxid]? = some wtx ∧ Joined setting context node wtx first ∧
    Joined setting context node wtx second

def GroupAddress (setting : WalletSetting) (context : BalanceContext) (node : WalletNode)
    (address : CTxDestination) : Prop :=
  ∃ (wtxid : Uint256) (wtx : CWalletTx), node.mapWallet[wtxid]? = some wtx ∧
    (PaidTo setting context wtx address ∨ Joined setting context node wtx address)

/-- What `GetAddressGroupings` gives: the connected components of being joined. -/
structure GroupedBy (setting : WalletSetting) (context : BalanceContext) (node : WalletNode)
    (groups : Finset AddressSet) : Prop where
  nonempty : ∀ group ∈ groups, group.Nonempty
  disjoint : ∀ first ∈ groups, ∀ second ∈ groups, first ≠ second → Disjoint first second
  covers : ∀ address, (∃ group ∈ groups, address ∈ group) ↔
    GroupAddress setting context node address
  linked : ∀ group ∈ groups, ∀ first ∈ group, ∀ second,
    second ∈ group ↔ Relation.ReflTransGen (JoinedBy setting context node) first second

theorem getAddressGroupings_groupedBy (choices : GroupChoices) :
    ∃ groups, node.getAddressGroupings setting context choices = some groups ∧
      GroupedBy setting context node groups := by
  let collected := node.collectGroupings setting context node.mapWallet.toList ∅
  have listed : ∀ grouping, grouping ∈ choices.order collected ↔
      ∃ (wtxid : Uint256) (wtx : CWalletTx), node.mapWallet[wtxid]? = some wtx ∧
        ((grouping.Nonempty ∧ grouping = node.groupSpent setting context wtx) ∨
          ∃ address, PaidTo setting context wtx address ∧ grouping = {address}) := by
    intro grouping
    rw [choices.mem_order, mem_collectGroupings]
    simp only [Finset.notMem_empty, false_or, Prod.exists,
      Std.ExtTreeMap.mem_toList_iff_getElem?_eq_some]
  have nonempty : ∀ grouping ∈ choices.order collected, grouping.Nonempty := by
    intro grouping member
    obtain ⟨_, _, _, ⟨some, _⟩ | ⟨address, _, rfl⟩⟩ := (listed grouping).1 member
    · exact some
    · exact Finset.singleton_nonempty address
  obtain ⟨after, groups, run, represents, components⟩ :=
    GroupState.Represents.start.mergeGroups choices Merging.Components.nil nonempty
  have components : Merging.Components (choices.order collected) groups :=
    components.congr (by simp)
  refine ⟨groups, ?_, components.nonempty, ?_, ?_, ?_⟩
  · unfold getAddressGroupings
    dsimp only
    rw [run]
    exact represents.result
  · intro first left second right different
    exact components.pairwiseDisjoint left right different
  · intro address
    rw [components.covers]
    constructor
    · rintro ⟨grouping, member, inGroup⟩
      obtain ⟨wtxid, wtx, found, ⟨_, rfl⟩ | ⟨other, paid, rfl⟩⟩ := (listed grouping).1 member
      · exact ⟨wtxid, wtx, found, Or.inr ((mem_groupSpent wtx address).1 inGroup)⟩
      · obtain rfl := Finset.mem_singleton.1 inGroup
        exact ⟨wtxid, wtx, found, Or.inl paid⟩
    · rintro ⟨wtxid, wtx, found, paid | joined⟩
      · exact ⟨{address}, (listed _).2 ⟨wtxid, wtx, found, Or.inr ⟨address, paid, rfl⟩⟩,
          Finset.mem_singleton_self address⟩
      · have inGroup := (mem_groupSpent wtx address).2 joined
        exact ⟨_, (listed _).2 ⟨wtxid, wtx, found, Or.inl ⟨⟨address, inGroup⟩, rfl⟩⟩, inGroup⟩
  · intro group member first inGroup second
    rw [components.linked group member first inGroup]
    constructor
    · intro linked
      induction linked with
      | refl => exact .refl
      | tail _ together ih =>
          obtain ⟨grouping, groupingIn, left, right⟩ := together
          obtain ⟨wtxid, wtx, found, ⟨_, rfl⟩ | ⟨address, _, rfl⟩⟩ := (listed grouping).1 groupingIn
          · exact ih.tail ⟨wtxid, wtx, found, (mem_groupSpent wtx _).1 left,
              (mem_groupSpent wtx _).1 right⟩
          · rw [Finset.mem_singleton.1 right, ← Finset.mem_singleton.1 left]
            exact ih
    · intro linked
      induction linked with
      | refl => exact .refl
      | tail _ joined ih =>
          obtain ⟨wtxid, wtx, found, left, right⟩ := joined
          have inLeft := (mem_groupSpent wtx _).2 left
          have inRight := (mem_groupSpent wtx _).2 right
          exact ih.tail ⟨_, (listed _).2 ⟨wtxid, wtx, found, Or.inl ⟨⟨_, inLeft⟩, rfl⟩⟩, inLeft,
            inRight⟩

/-- **Address groupings.**  No pointer to a deleted set is used, and the sets that are returned are
the connected components of the addresses under being joined by a transaction. -/
theorem getAddressGroupings_components (setting : WalletSetting) (context : BalanceContext)
    (node : WalletNode) (choices : GroupChoices) :
    ∃ groups, node.getAddressGroupings setting context choices = some groups ∧
      (∀ group ∈ groups, group.Nonempty) ∧
      (∀ first ∈ groups, ∀ second ∈ groups, first ≠ second → Disjoint first second) ∧
      (∀ address, (∃ group ∈ groups, address ∈ group) ↔
        GroupAddress setting context node address) ∧
      ∀ first second, GroupAddress setting context node first →
        ((∃ group ∈ groups, first ∈ group ∧ second ∈ group) ↔
          Relation.ReflTransGen (JoinedBy setting context node) first second) := by
  obtain ⟨groups, run, grouped⟩ := @getAddressGroupings_groupedBy setting context node choices
  refine ⟨groups, run, grouped.nonempty, grouped.disjoint, grouped.covers, ?_⟩
  intro first second known
  obtain ⟨group, member, inGroup⟩ := (grouped.covers first).2 known
  constructor
  · rintro ⟨other, otherIn, left, right⟩
    exact (grouped.linked other otherIn first left second).1 right
  · intro linked
    exact ⟨group, member, inGroup, (grouped.linked group member first inGroup second).2 linked⟩

/-- A wallet whose second transaction spends an owned output without an address of its own, as a
bare multisignature script has none, and has two change outputs. -/
def bareNode : WalletNode :=
  { genesis (plainSetting 0) true with
    mapWallet := ((∅ : WalletMap).insert 5
        ⟨⟨5, 1, [], [⟨10, [1]⟩], 0⟩, 0, [], 0, false⟩).insert 6
        ⟨⟨6, 1, [⟨⟨5, 0⟩, [], 0⟩], [⟨4, [2]⟩, ⟨5, [3]⟩], 0⟩, 0, [], 0, false⟩ }

def bareSetting : WalletSetting := { plainSetting 0 with isMine := fun _ => .spendable }

def bareContext : BalanceContext where
  nAdjustedTime := 0
  bSpendZeroConfChange := true
  extractDestination script := if script = [1] then none else some (.keyID script)
  mapAddressBook _ := none

/-- Some order of the sets, and the first place above those in use. -/
noncomputable def plainGroupChoices : GroupChoices where
  order := Finset.toList
  mem_order _ _ := Finset.mem_toList
  allocate live := live.sup id + 1
  allocate_fresh live member := by
    have below := Finset.le_sup (f := id) member
    simp only [id] at below
    omega

theorem not_joined_bareNode {wtxid : Uint256} {wtx : CWalletTx}
    (found : bareNode.mapWallet[wtxid]? = some wtx) (address : CTxDestination) :
    ¬Joined bareSetting bareContext bareNode wtx address := by
  have unspent : ∀ other, ¬SpentFrom bareSetting bareContext bareNode wtx other := by
    rintro other ⟨txin, member, txout, owned, extracted⟩
    simp only [bareNode, Std.ExtTreeMap.getElem?_insert] at found
    split at found
    · obtain rfl := Option.some.inj found
      obtain rfl := List.mem_singleton.1 member
      have prevout : bareNode.ownedPrevout bareSetting ⟨⟨5, 0⟩, [], 0⟩ = some ⟨10, [1]⟩ := by
        decide
      obtain rfl := Option.some.inj (prevout.symm.trans owned)
      simp [bareContext] at extracted
    · split at found
      · obtain rfl := Option.some.inj found
        simp at member
      · simp at found
  rintro (spent | ⟨⟨other, spent⟩, _⟩)
  · exact unspent address spent
  · exact unspent other spent

/-- The two change addresses belong to one transaction with an owned input, but no group has both. -/
theorem getAddressGroupings_leaves_change :
    ∃ wtx, bareNode.mapWallet[(6 : Uint256)]? = some wtx ∧
      (∃ txin ∈ wtx.tx.vin, (bareNode.ownedPrevout bareSetting txin).isSome) ∧
      ChangeOf bareSetting bareContext wtx (.keyID [2]) ∧
      ChangeOf bareSetting bareContext wtx (.keyID [3]) ∧
      ∃ groups, bareNode.getAddressGroupings bareSetting bareContext plainGroupChoices = some groups ∧
        ¬∃ group ∈ groups, CTxDestination.keyID [2] ∈ group ∧ CTxDestination.keyID [3] ∈ group := by
  refine ⟨⟨⟨6, 1, [⟨⟨5, 0⟩, [], 0⟩], [⟨4, [2]⟩, ⟨5, [3]⟩], 0⟩, 0, [], 0, false⟩, ?_, ?_, ?_, ?_, ?_⟩
  · decide
  · exact ⟨_, List.mem_singleton_self _, by decide⟩
  · exact ⟨⟨4, [2]⟩, by simp, by decide, by decide⟩
  · exact ⟨⟨5, [3]⟩, by simp, by decide, by decide⟩
  · obtain ⟨groups, run, grouped⟩ :=
      @getAddressGroupings_groupedBy bareSetting bareContext bareNode plainGroupChoices
    refine ⟨groups, run, ?_⟩
    rintro ⟨group, member, left, right⟩
    have linked := (grouped.linked group member _ left _).1 right
    rcases linked.cases_head with same | ⟨_, ⟨wtxid, wtx, found, joined, _⟩, _⟩
    · exact absurd same (by decide)
    · exact not_joined_bareNode found _ joined

end WalletNode

end Lycancoin
