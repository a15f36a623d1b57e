import Lycancoin.Mempool.OrphanPool
import Lycancoin.Data.KeyedTotal

namespace Lycancoin

open Std Lycancoin.Data

/-- A block that has been requested.  `pindex` names the entry by its hash. -/
structure QueuedBlock where
  hash : Uint256
  pindex : Option Uint256
  nTime : Int
  nValidatedQueuedBefore : Int
  fValidatedHeaders : Bool
deriving DecidableEq, Repr

/-- The part of a peer's state that block downloads use.  The elements of the
list stand with their addresses, which is what iterators hold. -/
structure CNodeState where
  fSyncStarted : Bool
  nStallingSince : Int
  vBlocksInFlight : List (Nat × QueuedBlock)
  nBlocksInFlight : Int
  fPreferredDownload : Bool
deriving DecidableEq, Repr

def CNodeState.new : CNodeState :=
  { fSyncStarted := false
    nStallingSince := 0
    vBlocksInFlight := []
    nBlocksInFlight := 0
    fPreferredDownload := false }

/-- The globals that the peers share.  `nextAddress` is where the next list
element is allocated. -/
structure Downloads where
  mapNodeState : ExtTreeMap NodeId CNodeState
  mapBlocksInFlight : ExtTreeMap Uint256 (NodeId × Nat)
  nQueuedValidatedHeaders : Int
  nSyncStarted : Int
  nPreferredDownload : Int
  nextAddress : Nat

namespace Downloads

def start : Downloads :=
  { mapNodeState := ∅
    mapBlocksInFlight := ∅
    nQueuedValidatedHeaders := 0
    nSyncStarted := 0
    nPreferredDownload := 0
    nextAddress := 0 }

variable (downloads : Downloads)

/-- `InitializeNode`, which leaves a known node as it is. -/
def initializeNode (nodeid : NodeId) : Downloads :=
  if nodeid ∈ downloads.mapNodeState then downloads
  else { downloads with mapNodeState := downloads.mapNodeState.insert nodeid CNodeState.new }

/-- `FinalizeNode`, up to the address book and the orphan transactions.  There
is no result when the node is unknown. -/
def finalizeNode (nodeid : NodeId) : Option Downloads :=
  match downloads.mapNodeState[nodeid]? with
  | none => none
  | some state =>
      some { downloads with
        nSyncStarted :=
          if state.fSyncStarted then downloads.nSyncStarted - 1 else downloads.nSyncStarted
        mapBlocksInFlight := state.vBlocksInFlight.foldl
          (fun inFlight element => inFlight.erase element.2.hash) downloads.mapBlocksInFlight
        nPreferredDownload := downloads.nPreferredDownload - state.fPreferredDownload.toNat
        mapNodeState := downloads.mapNodeState.erase nodeid }

/-- `MarkBlockAsReceived`.  There is no result when the node is unknown or the
iterator leads nowhere. -/
def markBlockAsReceived (hash : Uint256) : Option Downloads :=
  match downloads.mapBlocksInFlight[hash]? with
  | none => some downloads
  | some (nodeid, address) =>
      match downloads.mapNodeState[nodeid]? with
      | none => none
      | some state =>
          match state.vBlocksInFlight.find? fun element => element.1 == address with
          | none => none
          | some (_, queued) =>
              some { downloads with
                nQueuedValidatedHeaders :=
                  downloads.nQueuedValidatedHeaders - queued.fValidatedHeaders.toNat
                mapNodeState := downloads.mapNodeState.insert nodeid { state with
                  vBlocksInFlight :=
                    state.vBlocksInFlight.eraseP fun element => element.1 == address
                  nBlocksInFlight := state.nBlocksInFlight - 1
                  nStallingSince := 0 }
                mapBlocksInFlight := downloads.mapBlocksInFlight.erase hash }

/-- `MarkBlockAsInFlight`.  There is no result when the assertion fails. -/
def markBlockAsInFlight (nodeid : NodeId) (hash : Uint256) (pindex : Option Uint256) (now : Int) :
    Option Downloads := do
  if nodeid ∉ downloads.mapNodeState then none
  else
    let downloads ← downloads.markBlockAsReceived hash
    let state ← downloads.mapNodeState[nodeid]?
    let newentry : QueuedBlock :=
      { hash
        pindex
        nTime := now
        nValidatedQueuedBefore := downloads.nQueuedValidatedHeaders
        fValidatedHeaders := pindex.isSome }
    some { downloads with
      nQueuedValidatedHeaders :=
        downloads.nQueuedValidatedHeaders + newentry.fValidatedHeaders.toNat
      mapNodeState := downloads.mapNodeState.insert nodeid { state with
        vBlocksInFlight := state.vBlocksInFlight ++ [(downloads.nextAddress, newentry)]
        nBlocksInFlight := state.nBlocksInFlight + 1 }
      mapBlocksInFlight := downloads.mapBlocksInFlight.insert hash (nodeid, downloads.nextAddress)
      nextAddress := downloads.nextAddress + 1 }

end Downloads

/-- The calls that keep track of block downloads. -/
inductive DownloadCall where
  | initializeNode (nodeid : NodeId)
  | finalizeNode (nodeid : NodeId)
  | markBlockAsReceived (hash : Uint256)
  | markBlockAsInFlight (nodeid : NodeId) (hash : Uint256) (pindex : Option Uint256) (now : Int)

namespace Downloads

def call (downloads : Downloads) : DownloadCall → Option Downloads
  | .initializeNode nodeid => some (downloads.initializeNode nodeid)
  | .finalizeNode nodeid => downloads.finalizeNode nodeid
  | .markBlockAsReceived hash => downloads.markBlockAsReceived hash
  | .markBlockAsInFlight nodeid hash pindex now =>
      downloads.markBlockAsInFlight nodeid hash pindex now

def run (calls : List DownloadCall) : Option Downloads := calls.foldlM call start

def inFlightFrom (downloads : Downloads) (nodeid : NodeId) : List (Nat × QueuedBlock) :=
  (downloads.mapNodeState[nodeid]?.map CNodeState.vBlocksInFlight).getD []

/-- The number of blocks in flight whose headers were validated. -/
def validatedCount (state : CNodeState) : Nat :=
  state.vBlocksInFlight.countP fun element => element.2.fValidatedHeaders

def validatedInFlight (downloads : Downloads) : Int :=
  KeyedTotal.total (fun state => (validatedCount state : Int)) downloads.mapNodeState

/-- The map and the lists name the same elements, and the lists are as long as
they claim to be. -/
structure Linked (downloads : Downloads) : Prop where
  mapped : ∀ (hash : Uint256) (nodeid : NodeId) (address : Nat),
    downloads.mapBlocksInFlight[hash]? = some (nodeid, address) ↔
      ∃ queued, (address, queued) ∈ downloads.inFlightFrom nodeid ∧ queued.hash = hash
  addresses : ∀ nodeid, ((downloads.inFlightFrom nodeid).map Prod.fst).Nodup
  allocated : ∀ nodeid, ∀ element ∈ downloads.inFlightFrom nodeid,
    element.1 < downloads.nextAddress
  length : ∀ (nodeid : NodeId) (state : CNodeState), downloads.mapNodeState[nodeid]? = some state →
    state.nBlocksInFlight = state.vBlocksInFlight.length

section Lists

variable {elements : List (Nat × QueuedBlock)} {address : Nat} {queued : QueuedBlock}

theorem split_at_address (member : (address, queued) ∈ elements)
    (distinct : (elements.map Prod.fst).Nodup) :
    ∃ before after, elements = before ++ (address, queued) :: after ∧
      elements.find? (fun element => element.1 == address) = some (address, queued) ∧
      elements.eraseP (fun element => element.1 == address) = before ++ after ∧
      address ∉ (before ++ after).map Prod.fst := by
  obtain ⟨before, after, rfl⟩ := List.append_of_mem member
  have apart : address ∉ (before ++ after).map Prod.fst := by
    rw [List.map_append, List.map_cons, List.nodup_middle, List.nodup_cons] at distinct
    rw [List.map_append]
    exact distinct.1
  have passed : ∀ element ∈ before, ¬ (element.1 == address) = true := by
    intro element isBefore found
    rw [beq_iff_eq] at found
    exact apart (List.mem_map.mpr ⟨element, List.mem_append_left _ isBefore, found⟩)
  refine ⟨before, after, rfl, ?_, ?_, apart⟩
  · rw [List.find?_append, List.find?_eq_none.mpr passed, Option.none_or,
      List.find?_cons_of_pos (by simp)]
  · rw [List.eraseP_append_right _ passed, List.eraseP_cons_of_pos (by simp)]

end Lists

section Step

variable {downloads after : Downloads} {nodeid : NodeId} {state : CNodeState} {hash : Uint256}

theorem inFlightFrom_eq (known : downloads.mapNodeState[nodeid]? = some state) :
    downloads.inFlightFrom nodeid = state.vBlocksInFlight := by
  rw [inFlightFrom, known]
  rfl

theorem inFlightFrom_insert (other : NodeId)
    (nodes : after.mapNodeState = downloads.mapNodeState.insert nodeid state) :
    after.inFlightFrom other =
      if other = nodeid then state.vBlocksInFlight else downloads.inFlightFrom other := by
  rw [inFlightFrom, nodes, ExtTreeMap.getElem?_insert]
  by_cases same : other = nodeid
  · simp [same]
  · have different : ¬ nodeid = other := fun equal => same equal.symm
    simp [same, different, inFlightFrom]

theorem known_of_mem_inFlightFrom {element : Nat × QueuedBlock}
    (member : element ∈ downloads.inFlightFrom nodeid) :
    ∃ state, downloads.mapNodeState[nodeid]? = some state ∧ element ∈ state.vBlocksInFlight := by
  unfold inFlightFrom at member
  cases known : downloads.mapNodeState[nodeid]? with
  | none =>
      rw [known] at member
      contradiction
  | some state =>
      rw [known] at member
      exact ⟨state, rfl, member⟩

theorem Linked.single (linked : downloads.Linked) {left right : NodeId}
    {first second : Nat × QueuedBlock} (firstMember : first ∈ downloads.inFlightFrom left)
    (secondMember : second ∈ downloads.inFlightFrom right) (same : first.2.hash = second.2.hash) :
    left = right ∧ first = second := by
  have firstMapped := (linked.mapped first.2.hash left first.1).mpr ⟨first.2, firstMember, rfl⟩
  have secondMapped := (linked.mapped first.2.hash right second.1).mpr
    ⟨second.2, secondMember, same.symm⟩
  obtain ⟨nodes, addresses⟩ := Prod.mk.inj (Option.some.inj (firstMapped.symm.trans secondMapped))
  subst nodes
  refine ⟨rfl, ?_⟩
  exact List.inj_on_of_nodup_map (linked.addresses left) firstMember secondMember addresses

theorem Linked.initializeNode (linked : downloads.Linked) (nodeid : NodeId) :
    (downloads.initializeNode nodeid).Linked ∧
      (downloads.initializeNode nodeid).validatedInFlight = downloads.validatedInFlight := by
  unfold Downloads.initializeNode
  split
  · exact ⟨linked, rfl⟩
  · rename_i unknown
    have absent := ExtTreeMap.getElem?_eq_none unknown
    generalize isAfter : ({ downloads with
      mapNodeState := downloads.mapNodeState.insert nodeid CNodeState.new } : Downloads) = after
    have nodes : after.mapNodeState = downloads.mapNodeState.insert nodeid CNodeState.new := by
      rw [← isAfter]
    have lists : ∀ other, after.inFlightFrom other = downloads.inFlightFrom other := by
      intro other
      rw [inFlightFrom_insert other nodes]
      split
      · rename_i same
        rw [same, inFlightFrom, absent]
        rfl
      · rfl
    constructor
    · constructor
      · intro hash other address
        rw [lists, ← linked.mapped, ← isAfter]
      · intro other
        rw [lists]
        exact linked.addresses other
      · intro other element member
        rw [lists] at member
        rw [← isAfter]
        exact linked.allocated other element member
      · intro other state found
        rw [nodes, ExtTreeMap.getElem?_insert] at found
        split at found
        · rw [← Option.some.inj found]
          rfl
        · exact linked.length other state found
    · rw [validatedInFlight, nodes, KeyedTotal.total_insert, absent]
      simp [validatedInFlight, validatedCount, CNodeState.new]

theorem getElem?_foldl_erase (inFlight : ExtTreeMap Uint256 (NodeId × Nat))
    (elements : List (Nat × QueuedBlock)) (hash : Uint256) :
    (elements.foldl (fun inFlight element => inFlight.erase element.2.hash) inFlight)[hash]? =
      if ∃ element ∈ elements, element.2.hash = hash then none else inFlight[hash]? := by
  induction elements generalizing inFlight with
  | nil => simp
  | cons first rest ih =>
      rw [List.foldl_cons, ih, ExtTreeMap.getElem?_erase]
      by_cases own : first.2.hash = hash
      · simp [own]
      · simp only [Std.compare_eq_iff_eq, own, if_false, List.mem_cons, exists_eq_or_imp, false_or]

/-- `FinalizeNode` leaves the entries of its node in the count. -/
theorem Linked.finalizeNode (linked : downloads.Linked)
    (finalized : downloads.finalizeNode nodeid = some after) :
    after.Linked ∧ after.nQueuedValidatedHeaders = downloads.nQueuedValidatedHeaders ∧
      after.validatedInFlight = downloads.validatedInFlight -
        (downloads.inFlightFrom nodeid).countP fun element => element.2.fValidatedHeaders := by
  unfold Downloads.finalizeNode at finalized
  cases known : downloads.mapNodeState[nodeid]? with
  | none =>
      rw [known] at finalized
      contradiction
  | some state =>
      rw [known] at finalized
      have own := inFlightFrom_eq known
      have isAfter := Option.some.inj finalized
      have nodes : after.mapNodeState = downloads.mapNodeState.erase nodeid := by rw [← isAfter]
      have lists : ∀ other, after.inFlightFrom other =
          if other = nodeid then [] else downloads.inFlightFrom other := by
        intro other
        rw [inFlightFrom, nodes, ExtTreeMap.getElem?_erase]
        by_cases same : other = nodeid
        · simp [same]
        · have different : ¬ nodeid = other := fun equal => same equal.symm
          simp [same, different, inFlightFrom]
      refine ⟨?_, by rw [← isAfter], ?_⟩
      · constructor
        · intro hash other address
          have inFlight : after.mapBlocksInFlight[hash]? =
              if ∃ element ∈ state.vBlocksInFlight, element.2.hash = hash then none
              else downloads.mapBlocksInFlight[hash]? := by
            rw [← isAfter]
            exact getElem?_foldl_erase _ _ _
          rw [inFlight, lists]
          by_cases dropped : ∃ element ∈ state.vBlocksInFlight, element.2.hash = hash
          · rw [if_pos dropped]
            obtain ⟨element, member, sameHash⟩ := dropped
            rw [← own] at member
            constructor
            · intro found
              contradiction
            · intro ⟨queued, queuedMember, queuedHash⟩
              split at queuedMember
              · contradiction
              · rename_i different
                exact absurd (linked.single queuedMember member (queuedHash.trans sameHash.symm)).1
                  different
          · rw [if_neg dropped, linked.mapped]
            by_cases same : other = nodeid
            · rw [if_pos same, same, own]
              constructor
              · intro ⟨queued, member, queuedHash⟩
                exact absurd ⟨_, member, queuedHash⟩ dropped
              · intro ⟨_, member, _⟩
                contradiction
            · rw [if_neg same]
        · intro other
          rw [lists]
          split
          · exact List.nodup_nil
          · exact linked.addresses other
        · intro other element member
          rw [lists] at member
          split at member
          · contradiction
          · rw [← isAfter]
            exact linked.allocated other element member
        · intro other otherState found
          rw [nodes, ExtTreeMap.getElem?_erase] at found
          split at found
          · contradiction
          · exact linked.length other otherState found
      · rw [validatedInFlight, nodes, KeyedTotal.total_erase, known, own]
        rfl

theorem Linked.markBlockAsReceived (linked : downloads.Linked) (hash : Uint256) :
    ∃ after, downloads.markBlockAsReceived hash = some after ∧ after.Linked ∧
      after.nQueuedValidatedHeaders - after.validatedInFlight =
        downloads.nQueuedValidatedHeaders - downloads.validatedInFlight ∧
      after.mapBlocksInFlight[hash]? = none ∧ after.nextAddress = downloads.nextAddress ∧
      ∀ nodeid, nodeid ∈ after.mapNodeState ↔ nodeid ∈ downloads.mapNodeState := by
  unfold Downloads.markBlockAsReceived
  cases requested : downloads.mapBlocksInFlight[hash]? with
  | none => exact ⟨downloads, rfl, linked, rfl, requested, rfl, fun _ => Iff.rfl⟩
  | some place =>
      obtain ⟨nodeid, address⟩ := place
      obtain ⟨queued, member, queuedHash⟩ := (linked.mapped hash nodeid address).mp requested
      obtain ⟨state, known, _⟩ := known_of_mem_inFlightFrom member
      have own := inFlightFrom_eq known
      rw [own] at member
      have distinct := linked.addresses nodeid
      rw [own] at distinct
      obtain ⟨before, behind, split, found, erased, apart⟩ := split_at_address member distinct
      simp only [known, found]
      generalize isRest : ({ state with
        vBlocksInFlight := state.vBlocksInFlight.eraseP fun element => element.1 == address
        nBlocksInFlight := state.nBlocksInFlight - 1
        nStallingSince := 0 } : CNodeState) = rest
      have restList : rest.vBlocksInFlight = before ++ behind := by rw [← isRest, ← erased]
      refine ⟨_, rfl, ?_⟩
      generalize isAfter : ({ downloads with
        nQueuedValidatedHeaders :=
          downloads.nQueuedValidatedHeaders - queued.fValidatedHeaders.toNat
        mapNodeState := downloads.mapNodeState.insert nodeid rest
        mapBlocksInFlight := downloads.mapBlocksInFlight.erase hash } : Downloads) = after
      have nodes : after.mapNodeState = downloads.mapNodeState.insert nodeid rest := by
        rw [← isAfter]
      have lists := fun other => inFlightFrom_insert other nodes
      have inFlight : ∀ other : Uint256, after.mapBlocksInFlight[other]? =
          if other = hash then none else downloads.mapBlocksInFlight[other]? := by
        intro other
        rw [← isAfter, ExtTreeMap.getElem?_erase]
        by_cases same : other = hash
        · simp [same]
        · have different : ¬ hash = other := fun equal => same equal.symm
          simp [same, different]
      -- what is left of the list are the elements at other addresses
      have kept : ∀ element, element ∈ rest.vBlocksInFlight ↔
          element ∈ state.vBlocksInFlight ∧ element.1 ≠ address := by
        intro element
        rw [restList, split]
        constructor
        · intro isRest
          refine ⟨?_, fun same => apart (List.mem_map.mpr ⟨element, isRest, same⟩)⟩
          rcases List.mem_append.mp isRest with isBefore | isBehind
          · exact List.mem_append_left _ isBefore
          · exact List.mem_append_right _ (List.mem_cons_of_mem _ isBehind)
        · intro ⟨anywhere, different⟩
          rcases List.mem_append.mp anywhere with isBefore | isBehind
          · exact List.mem_append_left _ isBefore
          · rcases List.mem_cons.mp isBehind with same | isBehind
            · exact absurd (congrArg Prod.fst same) different
            · exact List.mem_append_right _ isBehind
      have smaller : ∀ other element, element ∈ after.inFlightFrom other →
          element ∈ downloads.inFlightFrom other ∧ element.2.hash ≠ hash := by
        intro other element isAfterMember
        rw [lists] at isAfterMember
        split at isAfterMember
        · rename_i same
          obtain ⟨stateMember, different⟩ := (kept element).mp isAfterMember
          rw [same, own]
          refine ⟨stateMember, fun sameHash => ?_⟩
          rw [← own] at stateMember member
          exact different (congrArg Prod.fst
            (linked.single stateMember member (sameHash.trans queuedHash.symm)).2)
        · rename_i different
          refine ⟨isAfterMember, fun sameHash => ?_⟩
          rw [← own] at member
          exact different (linked.single isAfterMember member (sameHash.trans queuedHash.symm)).1
      refine ⟨⟨?_, ?_, ?_, ?_⟩, ?_, ?_, by rw [← isAfter], ?_⟩
      · intro other node place
        rw [inFlight]
        by_cases same : other = hash
        · rw [if_pos same]
          constructor
          · intro none
            contradiction
          · intro ⟨element, elementMember, elementHash⟩
            exact absurd (elementHash.trans same) (smaller node _ elementMember).2
        · rw [if_neg same, linked.mapped]
          constructor
          · intro ⟨element, elementMember, elementHash⟩
            refine ⟨element, ?_, elementHash⟩
            rw [lists]
            split
            · rename_i sameNode
              rw [sameNode, own] at elementMember
              refine (kept _).mpr ⟨elementMember, fun samePlace => same ?_⟩
              rw [← own] at elementMember member
              have equal := List.inj_on_of_nodup_map (linked.addresses nodeid) elementMember member
                samePlace
              rw [← elementHash, ← queuedHash, (Prod.mk.inj equal).2]
            · exact elementMember
          · intro ⟨element, elementMember, elementHash⟩
            exact ⟨element, (smaller node _ elementMember).1, elementHash⟩
      · intro other
        rw [lists]
        split
        · rw [split, List.map_append, List.map_cons, List.nodup_middle, List.nodup_cons] at distinct
          rw [restList, List.map_append]
          exact distinct.2
        · exact linked.addresses other
      · intro other element elementMember
        rw [← isAfter]
        exact linked.allocated other element (smaller other element elementMember).1
      · intro other otherState isState
        rw [nodes, ExtTreeMap.getElem?_insert] at isState
        split at isState
        · have length := linked.length nodeid state known
          rw [split] at length
          rw [← Option.some.inj isState, restList, ← isRest, length]
          simp only [List.length_append, List.length_cons]
          omega
        · exact linked.length other otherState isState
      · have counted : (validatedCount state : Int) =
            validatedCount rest + queued.fValidatedHeaders.toNat := by
          rw [validatedCount, validatedCount, restList, split, List.countP_append, List.countP_cons,
            List.countP_append]
          cases queued.fValidatedHeaders with
          | false => simp
          | true =>
              simp only [if_true, Bool.toNat_true]
              omega
        have total : after.validatedInFlight =
            downloads.validatedInFlight - validatedCount state + validatedCount rest := by
          rw [validatedInFlight, nodes, KeyedTotal.total_insert, known]
          rfl
        rw [total, ← isAfter]
        simp only
        omega
      · rw [inFlight, if_pos rfl]
      · intro other
        rw [nodes, ExtTreeMap.mem_insert, Std.compare_eq_iff_eq]
        constructor
        · intro member
          rcases member with rfl | old
          · rw [ExtTreeMap.mem_iff_isSome_getElem?, known]
            rfl
          · exact old
        · exact Or.inr

/-- A requested block goes to the end of the list of its node. -/
theorem Linked.markBlockAsInFlight (linked : downloads.Linked) (known : nodeid ∈ downloads.mapNodeState)
    (hash : Uint256) (pindex : Option Uint256) (now : Int) :
    ∃ after, downloads.markBlockAsInFlight nodeid hash pindex now = some after ∧ after.Linked ∧
      after.nQueuedValidatedHeaders - after.validatedInFlight =
        downloads.nQueuedValidatedHeaders - downloads.validatedInFlight := by
  obtain ⟨received, isReceived, receivedLinked, balance, absent, _, sameNodes⟩ :=
    linked.markBlockAsReceived hash
  have stillKnown := (sameNodes nodeid).mpr known
  obtain ⟨state, isState⟩ : ∃ state, received.mapNodeState[nodeid]? = some state :=
    ⟨_, ExtTreeMap.getElem?_eq_some_getElem stillKnown⟩
  have own := inFlightFrom_eq isState
  unfold Downloads.markBlockAsInFlight
  rw [if_neg (not_not.mpr known), isReceived]
  simp only [Option.bind_eq_bind, Option.bind_some, isState]
  generalize isEntry : ({
    hash
    pindex
    nTime := now
    nValidatedQueuedBefore := received.nQueuedValidatedHeaders
    fValidatedHeaders := pindex.isSome } : QueuedBlock) = newentry
  have entryHash : newentry.hash = hash := by rw [← isEntry]
  generalize isNode : ({ state with
    vBlocksInFlight := state.vBlocksInFlight ++ [(received.nextAddress, newentry)]
    nBlocksInFlight := state.nBlocksInFlight + 1 } : CNodeState) = node
  have nodeList : node.vBlocksInFlight =
      state.vBlocksInFlight ++ [(received.nextAddress, newentry)] := by rw [← isNode]
  refine ⟨_, rfl, ?_⟩
  generalize isAfter : ({ received with
    nQueuedValidatedHeaders := received.nQueuedValidatedHeaders + pindex.isSome.toNat
    mapNodeState := received.mapNodeState.insert nodeid node
    mapBlocksInFlight := received.mapBlocksInFlight.insert hash (nodeid, received.nextAddress)
    nextAddress := received.nextAddress + 1 } : Downloads) = after
  have nodes : after.mapNodeState = received.mapNodeState.insert nodeid node := by rw [← isAfter]
  have lists := fun other => inFlightFrom_insert other nodes
  have added : ∀ other element, element ∈ after.inFlightFrom other ↔
      element ∈ received.inFlightFrom other ∨
        (other = nodeid ∧ element = (received.nextAddress, newentry)) := by
    intro other element
    rw [lists]
    split
    · rename_i same
      rw [same, own, nodeList, List.mem_append, List.mem_singleton]
      simp
    · rename_i different
      simp [different]
  have unrequested : ∀ other element, element ∈ received.inFlightFrom other →
      element.2.hash ≠ hash := by
    intro other element member sameHash
    have mapped := (receivedLinked.mapped hash other element.1).mpr ⟨element.2, member, sameHash⟩
    rw [absent] at mapped
    contradiction
  refine ⟨⟨?_, ?_, ?_, ?_⟩, ?_⟩
  · intro other node place
    have inFlight : after.mapBlocksInFlight[other]? =
        if other = hash then some (nodeid, received.nextAddress)
        else received.mapBlocksInFlight[other]? := by
      rw [← isAfter, ExtTreeMap.getElem?_insert]
      by_cases same : other = hash
      · simp [same]
      · have different : ¬ hash = other := fun equal => same equal.symm
        simp [same, different]
    rw [inFlight]
    by_cases same : other = hash
    · rw [if_pos same, Option.some.injEq, Prod.mk.injEq]
      constructor
      · intro ⟨sameNode, samePlace⟩
        exact ⟨newentry, (added _ _).mpr (Or.inr ⟨sameNode.symm, by rw [samePlace]⟩),
          entryHash.trans same.symm⟩
      · intro ⟨element, elementMember, elementHash⟩
        rcases (added _ _).mp elementMember with old | ⟨sameNode, equal⟩
        · exact absurd (elementHash.trans same) (unrequested _ _ old)
        · exact ⟨sameNode.symm, (congrArg Prod.fst equal).symm⟩
    · rw [if_neg same, receivedLinked.mapped]
      constructor
      · intro ⟨element, elementMember, elementHash⟩
        exact ⟨element, (added _ _).mpr (Or.inl elementMember), elementHash⟩
      · intro ⟨element, elementMember, elementHash⟩
        rcases (added _ _).mp elementMember with old | ⟨_, equal⟩
        · exact ⟨element, old, elementHash⟩
        · rw [(Prod.mk.inj equal).2, entryHash] at elementHash
          exact absurd elementHash.symm same
  · intro other
    rw [lists]
    split
    · rw [nodeList, List.map_append, List.nodup_append]
      refine ⟨own ▸ receivedLinked.addresses nodeid, List.nodup_singleton _, ?_⟩
      intro address member other isNew same
      obtain ⟨element, elementMember, isAddress⟩ := List.mem_map.mp member
      rw [← own] at elementMember
      have bound := receivedLinked.allocated nodeid element elementMember
      have new : other = received.nextAddress := by simpa using isNew
      omega
    · exact receivedLinked.addresses other
  · intro other element member
    have next : after.nextAddress = received.nextAddress + 1 := by rw [← isAfter]
    rw [next]
    rcases (added _ _).mp member with old | ⟨_, equal⟩
    · exact Nat.lt_succ_of_lt (receivedLinked.allocated other element old)
    · rw [equal]
      exact Nat.lt_succ_self _
  · intro other otherState isOther
    rw [nodes, ExtTreeMap.getElem?_insert] at isOther
    split at isOther
    · rw [← Option.some.inj isOther, nodeList, ← isNode, receivedLinked.length nodeid state isState]
      simp
    · exact receivedLinked.length other otherState isOther
  · have counted : (validatedCount node : Int) =
        validatedCount state + pindex.isSome.toNat := by
      have flag : newentry.fValidatedHeaders = pindex.isSome := by rw [← isEntry]
      rw [validatedCount, validatedCount, nodeList, List.countP_append, List.countP_singleton, flag]
      cases pindex.isSome <;> simp
    have total : after.validatedInFlight =
        received.validatedInFlight - validatedCount state + validatedCount node := by
      rw [validatedInFlight, nodes, KeyedTotal.total_insert, isState]
      rfl
    rw [total, ← balance, ← isAfter]
    simp only
    omega

end Step

/-- What the globals promise about blocks in flight. -/
structure Consistent (downloads : Downloads) : Prop where
  mapped : ∀ (hash : Uint256) (nodeid : NodeId) (address : Nat),
    downloads.mapBlocksInFlight[hash]? = some (nodeid, address) ↔
      ∃ queued, (address, queued) ∈ downloads.inFlightFrom nodeid ∧ queued.hash = hash
  single : ∀ left right, ∀ first ∈ downloads.inFlightFrom left,
    ∀ second ∈ downloads.inFlightFrom right, first.2.hash = second.2.hash →
      left = right ∧ first = second
  length : ∀ (nodeid : NodeId) (state : CNodeState), downloads.mapNodeState[nodeid]? = some state →
    state.nBlocksInFlight = state.vBlocksInFlight.length
  counter : downloads.nQueuedValidatedHeaders = downloads.validatedInFlight

/-- No node is finalized while a block with validated headers is in flight from it. -/
def FinalizesNoneValidated (calls : List DownloadCall) : Prop :=
  ∀ before nodeid after downloads, calls = before ++ .finalizeNode nodeid :: after →
    run before = some downloads →
    ∀ element ∈ downloads.inFlightFrom nodeid, element.2.fValidatedHeaders = false

def NodeKnown (downloads : Downloads) : DownloadCall → Prop
  | .initializeNode _ => True
  | .finalizeNode nodeid => nodeid ∈ downloads.mapNodeState
  | .markBlockAsReceived _ => True
  | .markBlockAsInFlight nodeid _ _ _ => nodeid ∈ downloads.mapNodeState

section Run

variable {downloads after : Downloads} {calls : List DownloadCall}

theorem linked_start : start.Linked ∧ start.nQueuedValidatedHeaders = start.validatedInFlight := by
  have lists : ∀ nodeid, start.inFlightFrom nodeid = [] := fun nodeid => by
    simp [inFlightFrom, start]
  refine ⟨⟨?_, ?_, ?_, ?_⟩, ?_⟩
  · intro hash nodeid address
    have unrequested : start.mapBlocksInFlight[hash]? = none := by simp [start]
    simp [lists, unrequested]
  · intro nodeid
    simp [lists]
  · intro nodeid element member
    simp [lists] at member
  · intro nodeid state found
    simp [start] at found
  · simp [validatedInFlight, start]

/-- The entries with validated headers that a call drops without counting them. -/
def forgotten (downloads : Downloads) : DownloadCall → Nat
  | .finalizeNode nodeid =>
      (downloads.inFlightFrom nodeid).countP fun element => element.2.fValidatedHeaders
  | _ => 0

/-- Each call keeps the lists linked, and drifts by what it forgets. -/
theorem Linked.call (linked : downloads.Linked) {call : DownloadCall}
    (called : downloads.call call = some after) :
    after.Linked ∧ after.nQueuedValidatedHeaders - after.validatedInFlight =
      downloads.nQueuedValidatedHeaders - downloads.validatedInFlight + downloads.forgotten call := by
  cases call with
  | initializeNode nodeid =>
      obtain ⟨next, count⟩ := linked.initializeNode nodeid
      have isAfter : downloads.initializeNode nodeid = after := Option.some.inj called
      have counter : after.nQueuedValidatedHeaders = downloads.nQueuedValidatedHeaders := by
        rw [← isAfter, Downloads.initializeNode]
        split <;> rfl
      rw [isAfter] at next count
      simp only [forgotten, counter, count]
      exact ⟨next, by omega⟩
  | finalizeNode nodeid =>
      obtain ⟨next, counter, count⟩ := linked.finalizeNode called
      simp only [forgotten, counter, count]
      exact ⟨next, by omega⟩
  | markBlockAsReceived hash =>
      obtain ⟨next, ran, nextLinked, balance, _⟩ := linked.markBlockAsReceived hash
      cases ran.symm.trans called
      simp only [forgotten]
      exact ⟨nextLinked, by omega⟩
  | markBlockAsInFlight nodeid hash pindex now =>
      have known : nodeid ∈ downloads.mapNodeState := by
        by_contra unknown
        simp [Downloads.call, Downloads.markBlockAsInFlight, unknown] at called
      obtain ⟨next, ran, nextLinked, balance⟩ := linked.markBlockAsInFlight known hash pindex now
      cases ran.symm.trans called
      simp only [forgotten]
      exact ⟨nextLinked, by omega⟩

theorem Linked.call_isSome_iff (linked : downloads.Linked) (call : DownloadCall) :
    (downloads.call call).isSome = true ↔ downloads.NodeKnown call := by
  cases call with
  | initializeNode nodeid => simp [Downloads.call, NodeKnown]
  | finalizeNode nodeid =>
      simp only [Downloads.call, Downloads.finalizeNode, NodeKnown,
        ExtTreeMap.mem_iff_isSome_getElem?]
      cases downloads.mapNodeState[nodeid]? <;> simp
  | markBlockAsReceived hash =>
      obtain ⟨next, ran, _⟩ := linked.markBlockAsReceived hash
      simp [Downloads.call, NodeKnown, ran]
  | markBlockAsInFlight nodeid hash pindex now =>
      by_cases known : nodeid ∈ downloads.mapNodeState
      · obtain ⟨next, ran, _⟩ := linked.markBlockAsInFlight known hash pindex now
        simp [Downloads.call, NodeKnown, ran, known]
      · simp [Downloads.call, Downloads.markBlockAsInFlight, NodeKnown, known]

theorem forgotten_eq_zero_iff (call : DownloadCall) :
    downloads.forgotten call = 0 ↔ ∀ nodeid, call = .finalizeNode nodeid →
      ∀ element ∈ downloads.inFlightFrom nodeid, element.2.fValidatedHeaders = false := by
  cases call with
  | finalizeNode nodeid => simp [forgotten, List.countP_eq_zero]
  | initializeNode nodeid => simp [forgotten]
  | markBlockAsReceived hash => simp [forgotten]
  | markBlockAsInFlight nodeid hash pindex now => simp [forgotten]

theorem finalizesNoneValidated_append (ran : run calls = some downloads) (call : DownloadCall) :
    FinalizesNoneValidated (calls ++ [call]) ↔
      FinalizesNoneValidated calls ∧ downloads.forgotten call = 0 := by
  rw [forgotten_eq_zero_iff]
  constructor
  · intro all
    constructor
    · intro before nodeid after earlier split ranBefore
      exact all before nodeid (after ++ [call]) earlier (by rw [split]; simp) ranBefore
    · intro nodeid isCall
      exact all calls nodeid [] downloads (by rw [isCall]) ran
  · intro ⟨earlierCalls, last⟩ before nodeid after earlier split ranBefore
    cases after using List.reverseRecOn with
    | nil =>
        obtain ⟨rfl, same⟩ := List.append_inj' split rfl
        cases ran.symm.trans ranBefore
        exact last nodeid (List.cons.inj same).1
    | append_singleton rest final =>
        rw [← List.cons_append, ← List.append_assoc] at split
        obtain ⟨rfl, _⟩ := List.append_inj' split rfl
        exact earlierCalls before nodeid rest earlier rfl ranBefore

/-- In every run the counter is off by the entries that were forgotten. -/
theorem linked_run (ran : run calls = some downloads) :
    downloads.Linked ∧ ∃ drift : Nat,
      downloads.nQueuedValidatedHeaders = downloads.validatedInFlight + drift ∧
        (drift = 0 ↔ FinalizesNoneValidated calls) := by
  induction calls using List.reverseRecOn generalizing downloads with
  | nil =>
      cases ran
      refine ⟨linked_start.1, 0, by simpa using linked_start.2, ?_⟩
      simp [FinalizesNoneValidated]
  | append_singleton calls call ih =>
      rw [run, List.foldlM_append] at ran
      obtain ⟨earlier, ranBefore, last⟩ := Option.bind_eq_some_iff.mp ran
      have called : earlier.call call = some downloads := by
        simpa using last
      obtain ⟨linked, drift, counter, exact⟩ := ih ranBefore
      obtain ⟨next, balance⟩ := linked.call called
      refine ⟨next, drift + earlier.forgotten call, by push_cast; omega, ?_⟩
      rw [finalizesNoneValidated_append ranBefore, ← exact]
      omega

/-- The globals agree exactly as long as no node is finalized with validated
blocks in flight, and only an unknown node makes a call fail. -/
theorem consistent_run_iff (calls : List DownloadCall) (downloads : Downloads)
    (ran : run calls = some downloads) :
    (downloads.Consistent ↔ FinalizesNoneValidated calls) ∧
      ∀ call, (downloads.call call).isSome = true ↔ downloads.NodeKnown call := by
  obtain ⟨linked, drift, counter, exact⟩ := linked_run ran
  refine ⟨?_, linked.call_isSome_iff⟩
  rw [← exact]
  constructor
  · intro consistent
    have same := consistent.counter
    omega
  · intro none
    refine ⟨linked.mapped, fun left right first firstMember second secondMember => ?_,
      linked.length, by rw [counter, none]; simp⟩
    exact linked.single firstMember secondMember

/-- Two nodes deliver: a block comes in, another one is asked for again from the second node, and
the first node goes with a block in flight whose header was not validated. -/
def deliveredCalls : List DownloadCall :=
  [.initializeNode 1, .initializeNode 2, .markBlockAsInFlight 1 7 (some 7) 0,
    .markBlockAsInFlight 1 8 (some 8) 1, .markBlockAsInFlight 1 9 none 2, .markBlockAsReceived 7,
    .markBlockAsInFlight 2 8 (some 8) 3]

/-- The second block is in flight from the other node by then. -/
theorem finalizesNoneValidated_delivered :
    FinalizesNoneValidated (deliveredCalls ++ [.finalizeNode 1]) := by
  obtain ⟨before, ranBefore⟩ : ∃ before, run deliveredCalls = some before :=
    Option.isSome_iff_exists.mp (by decide)
  refine (finalizesNoneValidated_append ranBefore _).mpr ⟨?_, ?_⟩
  · intro earlier nodeid after downloads split
    have member : DownloadCall.finalizeNode nodeid ∈ deliveredCalls := by
      rw [split]
      simp
    simp [deliveredCalls] at member
  · have none : (run deliveredCalls).map (fun downloads => downloads.forgotten (.finalizeNode 1)) =
        some 0 := by decide
    rw [ranBefore] at none
    exact Option.some.inj none

theorem consistent_run_delivered :
    ∃ downloads, run (deliveredCalls ++ [.finalizeNode 1]) = some downloads ∧
      downloads.Consistent ∧ downloads.nQueuedValidatedHeaders = 1 := by
  have counter : (run (deliveredCalls ++ [.finalizeNode 1])).map
      Downloads.nQueuedValidatedHeaders = some 1 := by decide
  obtain ⟨downloads, ran, one⟩ := Option.map_eq_some_iff.mp counter
  exact ⟨downloads, ran, (consistent_run_iff _ downloads ran).1.mpr
    finalizesNoneValidated_delivered, one⟩

/-- A node that is finalized while it delivers a block. -/
def finalizedCalls : List DownloadCall :=
  [.initializeNode 1, .markBlockAsInFlight 1 7 (some 7) 0, .finalizeNode 1]

/-- Nothing is in flight any more, but the counter stays at one. -/
theorem finalizeNode_forgets_validated :
    (run finalizedCalls).map Downloads.nQueuedValidatedHeaders = some 1 ∧
      (run finalizedCalls).map (fun downloads => downloads.mapBlocksInFlight.isEmpty) = some true ∧
      ¬ ∀ calls downloads, run calls = some downloads → downloads.Consistent := by
  have counter : (run finalizedCalls).map Downloads.nQueuedValidatedHeaders = some 1 := by decide
  refine ⟨counter, by decide, fun all => ?_⟩
  obtain ⟨downloads, ran, one⟩ := Option.map_eq_some_iff.mp counter
  have nodes : (run finalizedCalls).map (fun downloads => downloads.mapNodeState.isEmpty) =
      some true := by decide
  rw [ran, Option.map_some, Option.some.injEq, ExtTreeMap.isEmpty_iff] at nodes
  have same := (all finalizedCalls downloads ran).counter
  rw [one, validatedInFlight, nodes, KeyedTotal.total_empty] at same
  contradiction

end Run

end Downloads

end Lycancoin
