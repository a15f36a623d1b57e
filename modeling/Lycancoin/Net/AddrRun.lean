import Lycancoin.Net.AddrCalls
import Lycancoin.Net.AddrHistory

namespace Lycancoin

open Lycancoin.Data

namespace CAddrMan

variable {hashes : AddrHashes} {man after : CAddrMan} {nId id : Nat} {info : CAddrInfo}

theorem Linked.empty (nKey : Uint256) : Linked hashes [] 0 (empty nKey) where
  toIndexed := Indexed.empty nKey
  newSlot slot id held := by contradiction
  triedSlot slot id := by simp [CAddrMan.empty]
  references id info present := by simp [CAddrMan.empty] at present
  ranged id info present := by simp [CAddrMan.empty] at present
  nNew := by
    rw [KeyedTotal.total_eq_sum (CAddrMan.empty nKey).mapInfo (Finset.Subset.refl _)]
    simp [CAddrMan.empty]
  nTried := by
    rw [KeyedTotal.total_eq_sum (CAddrMan.empty nKey).mapInfo (Finset.Subset.refl _)]
    simp [CAddrMan.empty]

/-- A change of an entry's times, services and attempts. -/
theorem Linked.good (linked : Linked hashes [] 0 man) (addr : CService) {nTime : Int}
    (positive : 0 < nTime) (nRnd : Nat) :
    ∃ after, man.good hashes addr nTime nRnd = some after ∧ Linked hashes [] 0 after := by
  rw [CAddrMan.good]
  cases found : man.find addr.toCNetAddr with
  | none => exact ⟨man, rfl, linked⟩
  | some pair =>
      obtain ⟨nId, info⟩ := pair
      have present := Indexed.of_find found
      have touched := linked.touch nId
        (fun info => { info with nLastSuccess := nTime, nLastTry := nTime, nAttempts := 0 })
        (fun _ _ => rfl) (fun _ _ => rfl) (fun _ _ => ⟨rfl, rfl⟩)
        (fun _ _ ranged => ⟨fun tried => ⟨(ranged.tried tried).1, positive⟩, ranged.new⟩)
      simp only
      split_ifs with other tried
      · exact ⟨man, rfl, linked⟩
      · exact ⟨_, rfl, touched⟩
      · cases findBucket hashes nRnd nId addr _ with
        | none => exact ⟨_, rfl, touched⟩
        | some bucket =>
            have new : info.fInTried = false := Bool.eq_false_iff.mpr tried
            exact touched.makeTried (modifyInfo_self present) new positive

theorem Linked.attempt (linked : Linked hashes [] 0 man) (addr : CService) (nTime : Int)
    (few : ∀ (id : Nat) (info : CAddrInfo), man.mapInfo[id]? = some info →
      info.nAttempts + 1 < 2 ^ 31) :
    ∃ after, man.attempt addr nTime = some after ∧ Linked hashes [] 0 after := by
  rw [CAddrMan.attempt]
  cases found : man.find addr.toCNetAddr with
  | none => exact ⟨man, rfl, linked⟩
  | some pair =>
      obtain ⟨nId, info⟩ := pair
      simp only
      rw [if_pos (few nId info (Indexed.of_find found))]
      split_ifs
      · exact ⟨man, rfl, linked⟩
      · exact ⟨_, rfl, linked.touch _ _ (fun _ _ => rfl) (fun _ _ => rfl) (fun _ _ => ⟨rfl, rfl⟩)
          fun _ _ ranged => ⟨ranged.tried, ranged.new⟩⟩

theorem Linked.connected (linked : Linked hashes [] 0 man) (addr : CService) (nTime : Int) :
    Linked hashes [] 0 (man.connected addr nTime) := by
  rw [CAddrMan.connected]
  cases man.find addr.toCNetAddr with
  | none => exact linked
  | some pair =>
      simp only
      split_ifs
      · exact linked
      · exact linked.touch _ _ (fun _ _ => rfl) (fun _ _ => rfl) (fun _ _ => ⟨rfl, rfl⟩)
          fun _ _ ranged => ⟨ranged.tried, ranged.new⟩
      · exact linked

theorem Linked.withEntry (linked : Linked hashes [] 0 man) {addr : CAddress} (source : CNetAddr)
    (absent : man.mapAddr[addr.toCNetAddr]? = none) :
    Linked hashes [man.nIdCount] 1 (man.withEntry addr source) := by
  have unused : man.mapInfo[man.nIdCount]? = none := by
    cases present : man.mapInfo[man.nIdCount]? with
    | none => rfl
    | some info => exact absurd (linked.fresh _ _ present) (lt_irrefl _)
  have stored : ∀ id : Nat, (man.withEntry addr source).mapInfo[id]? =
      if id = man.nIdCount then some (CAddrInfo.ofAddress addr source man.vRandom.length)
      else man.mapInfo[id]? := fun id => KeyedBatch.getElem?_insert_eq ..
  have old : ∀ {id : Nat} {info : CAddrInfo}, man.mapInfo[id]? = some info →
      (man.withEntry addr source).mapInfo[id]? = some info := by
    intro id info present
    rw [stored, if_neg, present]
    rintro rfl
    rw [unused] at present
    contradiction
  have total : ∀ weight : CAddrInfo → Int,
      KeyedTotal.total weight (man.withEntry addr source).mapInfo =
        KeyedTotal.total weight man.mapInfo - man.mapInfo[man.nIdCount]?.elim 0 weight +
          weight (CAddrInfo.ofAddress addr source man.vRandom.length) :=
    fun weight => KeyedTotal.total_insert ..
  refine ⟨linked.toIndexed.withEntry source absent, ⟨?_, ?_, ?_⟩, ?_, ?_, ?_⟩
  · intro slot id held
    obtain ⟨service, known, standing⟩ := linked.newSlot slot id held
    obtain ⟨info, present, same⟩ := Option.map_eq_some_iff.mp known
    refine ⟨service, ?_, standing⟩
    rw [CAddrMan.service, old present, Option.map_some, same]
  · intro slot id
    refine (linked.triedSlot slot id).trans ?_
    constructor
    · rintro ⟨info, present, tried, standing⟩
      exact ⟨info, old present, tried, standing⟩
    · rintro ⟨info, present, tried, standing⟩
      rw [stored] at present
      split at present
      · cases present
        contradiction
      · exact ⟨info, present, tried, standing⟩
  · intro id info present
    rw [stored] at present
    split at present
    · rename_i isNew
      cases present
      have nowhere : occupied man.vvNew id = ∅ := by
        rw [occupied_eq_empty_iff]
        intro slot held
        obtain ⟨_, known, _⟩ := linked.newSlot slot id held
        rw [CAddrMan.service, isNew, unused] at known
        contradiction
      show (0 : Int) = (occupied man.vvNew id).card
      rw [nowhere]
      rfl
    · exact linked.references id info present
  · intro id info present tight
    rw [stored] at present
    split at present
    · rename_i isNew
      exact absurd (List.mem_singleton.mpr isNew) tight
    · exact linked.ranged id info present List.not_mem_nil
  · rw [total, unused, Option.elim_none, ← linked.nNew]
    show man.nNew + 1 = man.nNew + 0 - 0 + 1
    omega
  · rw [total, unused, Option.elim_none, ← linked.nTried]
    show man.nTried = man.nTried - 0 + 0
    omega

theorem wantsReference_spec {addr : CAddress} {getRandInt : Nat → Nat}
    (wanted : wantsReference addr getRandInt info = true) :
    info.fInTried = false ∧ info.nRefCount ≠ ADDRMAN_NEW_BUCKETS_PER_ADDRESS := by
  rw [wantsReference] at wanted
  split at wanted
  · contradiction
  · split at wanted
    · contradiction
    · rename_i new
      split at wanted
      · contradiction
      · rename_i room
        exact ⟨Bool.eq_false_iff.mpr new, room⟩

theorem Linked.add (linked : Linked hashes [] 0 man) (few : man.nIdCount + 1 < 2 ^ 31)
    (addr : CAddress) (source : CNetAddr) (nTimePenalty : Int) (context : AddContext) :
    ∃ fNew after, man.add hashes addr source nTimePenalty context = some (fNew, after) ∧
      Linked hashes [] 0 after := by
  rw [CAddrMan.add]
  split_ifs
  · exact ⟨false, man, rfl, linked⟩
  · cases found : man.find addr.toCNetAddr with
    | some pair =>
        obtain ⟨nId, info⟩ := pair
        have present := Indexed.of_find found
        have touched := linked.touch nId
          (refresh addr nTimePenalty context.nNow)
          (fun _ _ => rfl) (fun _ _ => rfl) (fun _ _ => ⟨rfl, rfl⟩)
          (fun _ _ ranged => ⟨ranged.tried, ranged.new⟩)
        simp only
        split_ifs with wanted
        · obtain ⟨new, room⟩ := wantsReference_spec wanted
          have ranged := linked.ranged nId info present List.not_mem_nil
          obtain ⟨after, returned, linkedAfter⟩ :=
            (touched.loosen nId).enterNew (modifyInfo_self present) new
              (lt_of_le_of_ne (ranged.new new).2 room) source context.nLater
          exact ⟨false, after, by rw [returned]; rfl, linkedAfter⟩
        · exact ⟨false, _, rfl, touched⟩
    | none =>
        have absent := linked.toIndexed.of_find_none found
        have stored : (man.withEntry addr source).mapInfo[man.nIdCount]? =
            some (CAddrInfo.ofAddress addr source man.vRandom.length) := by
          show (man.mapInfo.insert _ _)[_]? = _
          exact Std.ExtTreeMap.getElem?_insert_self
        have created := (linked.withEntry source absent).touch man.nIdCount
          (fun info => { info with nTime := penalized info.nTime nTimePenalty })
          (fun _ _ => rfl) (fun _ _ => rfl) (fun _ _ => ⟨rfl, rfl⟩)
          (fun _ _ ranged => ⟨ranged.tried, ranged.new⟩)
        obtain ⟨after, returned, linkedAfter⟩ :=
          (created.count 1).enterNew (modifyInfo_self stored) rfl
            (by decide : (0 : Int) < ADDRMAN_NEW_BUCKETS_PER_ADDRESS) source context.nLater
        refine ⟨true, after, ?_, linkedAfter⟩
        simp only [CAddrMan.create, if_pos few, Option.bind_eq_bind, Option.bind_some]
        exact congrArg (Option.map (true, ·)) returned

theorem Linked.gatherAddr (linked : Linked hashes [] 0 man) (context : GetAddrContext)
    (nNodes rounds : Nat) (inside : rounds ≤ man.vRandom.length) (vAddr : List CAddress) :
    ∃ gathered after, man.gatherAddr context nNodes rounds vAddr = some (gathered, after) ∧
      Linked hashes [] 0 after := by
  induction rounds generalizing man vAddr with
  | zero => exact ⟨vAddr, man, rfl, linked⟩
  | succ rounds ih =>
      rw [CAddrMan.gatherAddr]
      split_ifs
      · exact ⟨vAddr, man, rfl, linked⟩
      · have drawn := Nat.mod_lt (context.random (man.vRandom.length - (rounds + 1)))
          (by omega : 0 < man.vRandom.length - (man.vRandom.length - (rounds + 1)))
        generalize isPlace : context.random (man.vRandom.length - (rounds + 1)) %
          (man.vRandom.length - (man.vRandom.length - (rounds + 1))) +
          (man.vRandom.length - (rounds + 1)) = nRndPos
        have atFirst := List.getElem?_eq_getElem
          (by omega : man.vRandom.length - (rounds + 1) < man.vRandom.length)
        have atSecond := List.getElem?_eq_getElem (by omega : nRndPos < man.vRandom.length)
        obtain ⟨swapped, returned, indexed, reordered, _⟩ :=
          swapRandom_spec linked.toIndexed atFirst atSecond
        have sameLength := reordered.length
        have atPlace := List.getElem?_eq_getElem
          (by omega : man.vRandom.length - (rounds + 1) < swapped.vRandom.length)
        obtain ⟨ai, present, _⟩ :=
          Option.map_eq_some_iff.mp ((indexed.placed _ _).mp atPlace)
        simp only [isPlace, returned, atPlace, present, Option.bind_eq_bind, Option.bind_some]
        exact ih (linked.reordered indexed reordered) (by omega) _

/-- Each call succeeds, keeps all linked and ages the entries by one call. -/
theorem Linked.step {calls : Nat} (linked : Linked hashes [] 0 man) (dated : Dated calls man)
    (few : calls + 1 < 2 ^ 31) (call : AddrCall) (sound : SoundTimes call) :
    ∃ after, man.step hashes call = some after ∧ Linked hashes [] 0 after ∧
      Dated (calls + 1) after ∧ after.nKey = man.nKey := by
  cases call with
  | add addr source nTimePenalty context =>
      have room : man.nIdCount + 1 < 2 ^ 31 := lt_of_le_of_lt (Nat.succ_le_succ dated.nIdCount) few
      obtain ⟨fNew, after, returned, linkedAfter⟩ :=
        linked.add room addr source nTimePenalty context
      exact ⟨after, by rw [CAddrMan.step, returned]; rfl, linkedAfter, dated.add returned⟩
  | good addr nTime nRnd =>
      obtain ⟨after, returned, linkedAfter⟩ := linked.good addr sound nRnd
      exact ⟨after, returned, linkedAfter, dated.good sound returned⟩
  | attempt addr nTime =>
      obtain ⟨after, returned, linkedAfter⟩ := linked.attempt addr nTime fun id info present => by
        have attempts := (dated.entries id info present).1
        omega
      exact ⟨after, returned, linkedAfter, dated.attempt sound returned⟩
  | connected addr nTime =>
      have kept := Inherits.connected addr nTime man
      exact ⟨_, rfl, linked.connected addr nTime, (dated.inherits kept).later, kept.nKey⟩
  | getAddr context =>
      obtain ⟨gathered, after, returned, linkedAfter⟩ :=
        linked.gatherAddr context
          (min (ADDRMAN_GETADDR_MAX_PCT * man.vRandom.length / 100) ADDRMAN_GETADDR_MAX)
          man.vRandom.length le_rfl []
      have kept := Inherits.gatherAddr returned
      exact ⟨after, by rw [CAddrMan.step, getAddr, returned]; rfl, linkedAfter,
        (dated.inherits kept).later, kept.nKey⟩

theorem Linked.run {before : Nat} (linked : Linked hashes [] 0 man) (dated : Dated before man)
    (calls : List AddrCall) (few : before + calls.length < 2 ^ 31)
    (sound : ∀ call ∈ calls, SoundTimes call) :
    ∃ after, man.run hashes calls = some after ∧ Linked hashes [] 0 after ∧
      Dated (before + calls.length) after ∧ after.nKey = man.nKey := by
  induction calls generalizing man before with
  | nil => exact ⟨man, rfl, linked, dated, rfl⟩
  | cons call calls ih =>
      rw [List.length_cons] at few ⊢
      obtain ⟨ofCall, ofRest⟩ := List.forall_mem_cons.mp sound
      obtain ⟨next, returned, linkedNext, datedNext, firstKey⟩ :=
        linked.step dated (by omega) call ofCall
      obtain ⟨after, rest, linkedAfter, datedAfter, restKey⟩ :=
        ih linkedNext datedNext (by omega) ofRest
      rw [Nat.add_assoc, Nat.add_comm 1] at datedAfter
      refine ⟨after, ?_, linkedAfter, datedAfter, restKey.trans firstKey⟩
      rw [CAddrMan.run, List.foldlM_cons, returned]
      exact rest

end CAddrMan

/-- What `Check_` looks for. -/
structure CAddrMan.Consistent (hashes : AddrHashes) (man : CAddrMan) : Prop where
  mapAddr : ∀ (addr : CNetAddr) (id : Nat),
    man.mapAddr[addr]? = some id ↔ ∃ info, man.mapInfo[id]? = some info ∧ info.toCNetAddr = addr
  nodup : man.vRandom.Nodup
  vRandom : ∀ id : Nat, id ∈ man.vRandom ↔ id ∈ man.mapInfo
  nRandomPos : ∀ (id : Nat) (info : CAddrInfo), man.mapInfo[id]? = some info →
    man.vRandom[info.nRandomPos]? = some id
  size : (man.vRandom.length : Int) = man.nTried + man.nNew
  tried : ∀ (id : Nat) (info : CAddrInfo), man.mapInfo[id]? = some info → info.fInTried = true →
    info.nRefCount = 0 ∧ 0 < info.nLastSuccess ∧
      ∀ slot, man.vvTried slot = some id ↔ slot = hashes.triedSlot man.nKey info.toCService
  triedSlot : ∀ slot id, man.vvTried slot = some id →
    ∃ info, man.mapInfo[id]? = some info ∧ info.fInTried = true
  new : ∀ (id : Nat) (info : CAddrInfo), man.mapInfo[id]? = some info → info.fInTried = false →
    1 ≤ info.nRefCount ∧ info.nRefCount ≤ ADDRMAN_NEW_BUCKETS_PER_ADDRESS ∧
      info.nRefCount = ({slot | man.vvNew slot = some id} : Set _).ncard
  newSlot : ∀ slot id, man.vvNew slot = some id →
    ∃ info, man.mapInfo[id]? = some info ∧ info.fInTried = false ∧
      slot.2 = hashes.getBucketPosition man.nKey true slot.1 info.toCService
  nNew : man.nNew =
    ({id | ∃ info, man.mapInfo[id]? = some info ∧ info.fInTried = false} : Set Nat).ncard
  nTried : man.nTried =
    ({id | ∃ info, man.mapInfo[id]? = some info ∧ info.fInTried = true} : Set Nat).ncard
  times : ∀ (id : Nat) (info : CAddrInfo), man.mapInfo[id]? = some info →
    0 ≤ info.nLastTry ∧ 0 ≤ info.nLastSuccess
  nKey : man.nKey ≠ Uint256.null

namespace CAddrMan

variable {hashes : AddrHashes} {man : CAddrMan}

theorem Linked.consistent {calls : Nat} (linked : Linked hashes [] 0 man)
    (dated : Dated calls man) (key : man.nKey ≠ Uint256.null) : Consistent hashes man := by
  have ranged : ∀ (id : Nat) (info : CAddrInfo), man.mapInfo[id]? = some info → info.Ranged :=
    fun id info present => linked.ranged id info present List.not_mem_nil
  have new := KeyedTotal.total_indicator (fun info : CAddrInfo => !info.fInTried) man.mapInfo
  have tried := KeyedTotal.total_indicator CAddrInfo.fInTried man.mapInfo
  have listed : ∀ id : Nat, id ∈ man.vRandom ↔ id ∈ man.mapInfo := by
    intro id
    rw [linked.placed.mem_iff, Option.isSome_map]
    exact Std.ExtTreeMap.isSome_getElem?_iff_mem
  refine ⟨linked.address, linked.placed.nodup, listed, ?_, ?_, ?_, ?_, ?_, ?_, ?_, ?_,
    fun id info present => (dated.entries id info present).2, key⟩
  · intro id info present
    apply (linked.placed _ id).mpr
    show man.mapInfo[id]?.map _ = _
    rw [present]
    rfl
  · have sameMembers : man.vRandom.toFinset = man.mapInfo.keys.toFinset := by
      ext id
      rw [List.mem_toFinset, List.mem_toFinset, Std.ExtTreeMap.mem_keys, listed]
    have unit : ∀ info, newWeight info + triedWeight info = 1 := by
      intro info
      rw [newWeight, triedWeight]
      cases info.fInTried <;> rfl
    have counted := KeyedTotal.total_add_total unit man.mapInfo
    rw [← linked.nNew, ← linked.nTried, ← sameMembers,
      List.toFinset_card_of_nodup linked.placed.nodup] at counted
    omega
  · intro id info present triedHere
    obtain ⟨unused, success⟩ := (ranged id info present).tried triedHere
    refine ⟨unused, success, fun slot => (linked.triedSlot slot id).trans ?_⟩
    constructor
    · rintro ⟨found, stored, _, standing⟩
      rw [present] at stored
      cases stored
      exact standing.symm
    · intro standing
      exact ⟨info, present, triedHere, standing.symm⟩
  · intro slot id held
    obtain ⟨info, present, triedHere, _⟩ := (linked.triedSlot slot id).mp held
    exact ⟨info, present, triedHere⟩
  · intro id info present newHere
    obtain ⟨least, most⟩ := (ranged id info present).new newHere
    refine ⟨least, most, ?_⟩
    have holding : ({slot | man.vvNew slot = some id} : Set _) = occupied man.vvNew id := by
      ext slot
      rw [Finset.mem_coe, mem_occupied]
      rfl
    rw [holding, Set.ncard_coe_finset]
    exact linked.references id info present
  · intro slot id held
    obtain ⟨addr, known, standing⟩ := linked.newSlot slot id held
    obtain ⟨info, present, rfl⟩ := Option.map_eq_some_iff.mp known
    have referenced := linked.toSlotted.referenced present held
    refine ⟨info, present, ?_, congrArg Prod.snd standing⟩
    cases triedHere : info.fInTried with
    | false => rfl
    | true =>
        have unused := ((ranged id info present).tried triedHere).1
        omega
  · have counted := linked.nNew
    rw [Int.add_zero] at counted
    rw [counted]
    refine Eq.trans new ?_
    simp only [Bool.not_eq_true']
  · rw [linked.nTried]
    exact tried

/-- Fewer than `2 ^ 31` calls on an empty address manager, with times that are
not negative, neither fail nor leave it inconsistent. -/
theorem consistent_run (hashes : AddrHashes) (nKey : Uint256) (key : nKey ≠ Uint256.null)
    (calls : List AddrCall) (few : calls.length < 2 ^ 31)
    (sound : ∀ call ∈ calls, SoundTimes call) :
    ∃ man, (empty nKey).run hashes calls = some man ∧ Consistent hashes man := by
  obtain ⟨man, returned, linked, dated, sameKey⟩ :=
    (Linked.empty nKey).run (Dated.empty nKey) calls (by omega) sound
  exact ⟨man, returned, linked.consistent dated (by rwa [sameKey])⟩

section Samples

/-- Bucket functions that send every address to one slot. -/
def oneSlot : AddrHashes :=
  ⟨fun _ _ => ⟨7, by decide⟩, fun _ _ _ => ⟨9, by decide⟩, fun _ _ _ _ => ⟨11, by decide⟩⟩

def sampleAddress : CAddress := ⟨⟨⟨0x00000000000000000000FFFF08080808⟩, 8333⟩, 1, 1000⟩

def otherAddress : CAddress := ⟨⟨⟨0x00000000000000000000FFFF08080909⟩, 8333⟩, 1, 1000⟩

def addCall (addr : CAddress) : AddrCall :=
  .add addr addr.toCNetAddr 0 ⟨1000, 1000, fun _ => 0⟩

/-- Two addresses that want the same slot; the first one turns out to be good, and
then the second one gets the slot. -/
theorem consistent_run_twoAddresses :
    ∃ man, (empty 1).run oneSlot
        [addCall sampleAddress, addCall otherAddress, .attempt sampleAddress.toCService 1500,
          .good sampleAddress.toCService 2000 5, addCall otherAddress] =
      some man ∧ Consistent oneSlot man :=
  consistent_run oneSlot 1 (by decide) _ (by decide) fun call member => by
    simp only [List.mem_cons, List.not_mem_nil, or_false] at member
    rcases member with rfl | rfl | rfl | rfl | rfl
    · trivial
    · trivial
    · exact (by decide : (0 : Int) ≤ 1500)
    · exact (by decide : (0 : Int) < 2000)
    · trivial

/-- The state in which one address holds the slot. -/
def crowded (nIdCount : Nat) : CAddrMan where
  nKey := 1
  nIdCount
  mapInfo := (∅ : Std.ExtTreeMap Nat CAddrInfo).insert 0
    { CAddrInfo.ofAddress sampleAddress sampleAddress.toCNetAddr 0 with nRefCount := 1 }
  mapAddr := (∅ : Std.ExtTreeMap CNetAddr Nat).insert sampleAddress.toCNetAddr 0
  vRandom := [0]
  nTried := 0
  vvTried _ := none
  nNew := 1
  vvNew := Function.update (fun _ => none) (⟨9, by decide⟩, ⟨11, by decide⟩) (some 0)

/-- The state in which `Add_` has made an entry for an address. -/
def firstSeen (addr : CAddress) (man : CAddrMan) : CAddrMan :=
  let made := (man.withEntry addr addr.toCNetAddr).modifyInfo man.nIdCount fun info =>
    { info with nTime := penalized info.nTime 0 }
  { made with nNew := made.nNew + 1 }

theorem getElem?_firstSeen {addr : CAddress} (dated : penalized addr.nTime 0 = addr.nTime)
    (man : CAddrMan) (id : Nat) :
    (man.firstSeen addr).mapInfo[id]? =
      if id = man.nIdCount then
        some (CAddrInfo.ofAddress addr addr.toCNetAddr man.vRandom.length)
      else man.mapInfo[id]? := by
  have stored : ∀ id : Nat, (man.withEntry addr addr.toCNetAddr).mapInfo[id]? =
      if id = man.nIdCount then
        some (CAddrInfo.ofAddress addr addr.toCNetAddr man.vRandom.length)
      else man.mapInfo[id]? := fun id => KeyedBatch.getElem?_insert_eq ..
  refine (getElem?_modifyInfo man.nIdCount id _ _).trans ?_
  rw [stored, stored, if_pos rfl]
  split_ifs
  · rw [Option.map_some]
    simp only [CAddrInfo.ofAddress, dated]
  · rfl

theorem step_addCall {addr : CAddress} (routable : addr.isRoutable = true)
    (absent : man.mapAddr[addr.toCNetAddr]? = none) :
    man.step oneSlot (addCall addr) =
      if man.nIdCount + 1 < 2 ^ 31 then
        (man.firstSeen addr).enterNew oneSlot addr.toCNetAddr 1000 man.nIdCount
      else none := by
  have unknown : man.find addr.toCNetAddr = none := by
    rw [find, absent]
    rfl
  change (man.add oneSlot addr addr.toCNetAddr 0 ⟨1000, 1000, fun _ => 0⟩).map Prod.snd = _
  rw [add, routable, unknown, create]
  change (Option.bind (if man.nIdCount + 1 < 2 ^ 31 then _ else none) _).map _ = _
  split_ifs
  · change ((enterNew oneSlot addr.toCNetAddr 1000 man.nIdCount (man.firstSeen addr)).map
      (true, ·)).map Prod.snd = _
    rw [Option.map_map]
    exact congrFun Option.map_id _
  · rfl

theorem enterNew_of_free {nId : Nat} {info : CAddrInfo} {source : CNetAddr} {nLater : Int}
    (present : man.mapInfo[nId]? = some info)
    (free : man.vvNew (hashes.newSlot man.nKey info.toCService source) = none) :
    man.enterNew hashes source nLater nId =
      some (man.occupy (hashes.newSlot man.nKey info.toCService source) nId
        fun info => { info with nRefCount := info.nRefCount + 1 }) := by
  simp only [enterNew, mayInsert, clearNew, present, free, Option.bind_eq_bind, Option.bind_some,
    reduceCtorEq, if_false, if_true]

/-- A fresh entry whose slot is taken goes again. -/
theorem enterNew_of_taken {nId id : Nat} {info existing : CAddrInfo} {source : CNetAddr}
    {nLater : Int} (present : man.mapInfo[nId]? = some info) (unused : info.nRefCount = 0)
    (held : man.vvNew (hashes.newSlot man.nKey info.toCService source) = some id)
    (different : id ≠ nId) (stored : man.mapInfo[id]? = some existing)
    (kept : existing.isTerrible nLater = false) (single : existing.nRefCount ≤ 1) :
    man.enterNew hashes source nLater nId = man.delete nId := by
  have elsewhere : ¬some id = some nId := fun same => different (Option.some.inj same)
  have refused : ¬existing.nRefCount > 1 := not_lt.mpr single
  simp only [enterNew, mayInsert, present, held, stored, kept, unused, elsewhere, refused,
    Option.bind_eq_bind, Option.bind_some, decide_false, Bool.false_and, Bool.or_false, if_false,
    if_true, Bool.false_eq_true]

theorem mapInfo_crowded {nIdCount id : Nat} (other : id ≠ 0) :
    (crowded nIdCount).mapInfo[id]? = none := (KeyedBatch.getElem?_insert_eq ..).trans (if_neg other)

theorem mapAddr_crowded (nIdCount : Nat) :
    (crowded nIdCount).mapAddr[otherAddress.toCNetAddr]? = none := by
  have different : otherAddress.toCNetAddr ≠ sampleAddress.toCNetAddr := by decide
  exact (KeyedBatch.getElem?_insert_eq ..).trans (if_neg different)

theorem step_empty_sampleAddress :
    (empty 1).step oneSlot (addCall sampleAddress) = some (crowded 1) := by
  have stored := @getElem?_firstSeen sampleAddress (by decide) (empty 1)
  have entered := @enterNew_of_free oneSlot ((empty 1).firstSeen sampleAddress) 0 _
    sampleAddress.toCNetAddr 1000 ((stored 0).trans (if_pos rfl)) rfl
  have entries : (((empty 1).firstSeen sampleAddress).modifyInfo 0 fun info =>
      { info with nRefCount := info.nRefCount + 1 }).mapInfo = (crowded 1).mapInfo := by
    apply Std.ExtTreeMap.ext_getElem?
    intro id
    rw [getElem?_modifyInfo]
    split_ifs with here
    · rw [here, stored]
      exact Std.ExtTreeMap.getElem?_insert_self.symm
    · rw [stored, mapInfo_crowded here]
      exact (if_neg here).trans (by simp [CAddrMan.empty])
  rw [step_addCall (by decide) (by simp [CAddrMan.empty]), if_pos (by decide)]
  refine entered.trans (congrArg some ?_)
  rw [occupy, entries]
  rfl

/-- The second address goes, and only its id is used up. -/
theorem delete_crowded {nIdCount : Nat} (positive : 0 < nIdCount) :
    ((crowded nIdCount).firstSeen otherAddress).delete nIdCount =
      some (crowded (nIdCount + 1)) := by
  have stored := @getElem?_firstSeen otherAddress (by decide) (crowded nIdCount)
  have own := (stored nIdCount).trans (if_pos rfl)
  generalize isMade : (crowded nIdCount).firstSeen otherAddress = made at stored own
  have unmoved : made.swapRandom 1 1 = some made := by
    rw [swapRandom, if_pos rfl]
  have length : made.vRandom.length - 1 = 1 := by
    rw [← isMade]
    rfl
  have erased : made.mapInfo.erase nIdCount = (crowded nIdCount).mapInfo := by
    apply Std.ExtTreeMap.ext_getElem?
    intro id
    rw [KeyedBatch.getElem?_erase_eq, stored]
    by_cases here : id = nIdCount
    · rw [if_pos here, here, mapInfo_crowded positive.ne']
    · rw [if_neg here]
      exact if_neg here
  have forgotten : made.mapAddr.erase otherAddress.toCNetAddr = (crowded nIdCount).mapAddr := by
    apply Std.ExtTreeMap.ext_getElem?
    intro addr
    rw [← isMade]
    change (((crowded nIdCount).mapAddr.insert otherAddress.toCNetAddr nIdCount).erase _)[addr]? = _
    rw [KeyedBatch.getElem?_erase_eq, KeyedBatch.getElem?_insert_eq]
    split_ifs with here
    · rw [here, mapAddr_crowded]
    · rfl
  have free : ¬((CAddrInfo.ofAddress otherAddress otherAddress.toCNetAddr 1).fInTried = true ∨
      (CAddrInfo.ofAddress otherAddress otherAddress.toCNetAddr 1).nRefCount ≠ 0) := by decide
  have last : (CAddrInfo.ofAddress otherAddress otherAddress.toCNetAddr 1).nRandomPos = 1 := rfl
  have address : (CAddrInfo.ofAddress otherAddress otherAddress.toCNetAddr 1).toCNetAddr =
    otherAddress.toCNetAddr := rfl
  change made.mapInfo[nIdCount]? =
    some (CAddrInfo.ofAddress otherAddress otherAddress.toCNetAddr 1) at own
  rw [delete, own]
  simp only [Option.bind_eq_bind, Option.bind_some, if_neg free, last, length, unmoved, address,
    erased, forgotten]
  rw [← isMade]
  rfl

/-- Every further address takes an id and goes again. -/
theorem step_crowded {nIdCount : Nat} (positive : 0 < nIdCount) :
    (crowded nIdCount).step oneSlot (addCall otherAddress) =
      if nIdCount + 1 < 2 ^ 31 then some (crowded (nIdCount + 1)) else none := by
  have stored := @getElem?_firstSeen otherAddress (by decide) (crowded nIdCount)
  have taken := @enterNew_of_taken oneSlot ((crowded nIdCount).firstSeen otherAddress) nIdCount 0
    _ _ otherAddress.toCNetAddr 1000 ((stored nIdCount).trans (if_pos rfl)) rfl rfl positive.ne
    ((stored 0).trans (if_neg positive.ne)) rfl (by decide)
  rw [step_addCall (by decide) (mapAddr_crowded nIdCount)]
  change (if nIdCount + 1 < 2 ^ 31 then enterNew oneSlot otherAddress.toCNetAddr 1000 nIdCount
    ((crowded nIdCount).firstSeen otherAddress) else none) = _
  rw [taken, delete_crowded positive]

theorem run_crowded {nIdCount : Nat} (positive : 0 < nIdCount) (below : nIdCount < 2 ^ 31)
    (rounds : Nat) (many : 2 ^ 31 ≤ nIdCount + rounds) :
    (crowded nIdCount).run oneSlot (List.replicate rounds (addCall otherAddress)) = none := by
  induction rounds generalizing nIdCount with
  | zero => omega
  | succ rounds ih =>
      rw [List.replicate_succ, CAddrMan.run, List.foldlM_cons, step_crowded positive]
      split_ifs with room
      · exact ih (by omega) room (by omega)
      · rfl

/-- Whether the times given to `Good_` are positive. -/
def PositiveTimes (calls : List AddrCall) : Prop :=
  ∀ addr nTime nRnd, AddrCall.good addr nTime nRnd ∈ calls → 0 < nTime

/-- Each of the three bounds is needed: an attempt before 1970, a key of zeros, and
`2 ^ 31` addresses. -/
theorem consistent_run_limits :
    (¬∀ (hashes : AddrHashes) (nKey : Uint256) (calls : List AddrCall), nKey ≠ Uint256.null →
      calls.length < 2 ^ 31 → PositiveTimes calls →
        ∃ man, (empty nKey).run hashes calls = some man ∧ Consistent hashes man) ∧
    (¬∀ (hashes : AddrHashes) (nKey : Uint256) (calls : List AddrCall),
      calls.length < 2 ^ 31 → (∀ call ∈ calls, SoundTimes call) →
        ∃ man, (empty nKey).run hashes calls = some man ∧ Consistent hashes man) ∧
    ¬∀ (hashes : AddrHashes) (nKey : Uint256) (calls : List AddrCall), nKey ≠ Uint256.null →
      (∀ call ∈ calls, SoundTimes call) →
        ∃ man, (empty nKey).run hashes calls = some man ∧ Consistent hashes man := by
  refine ⟨fun always => ?_, fun always => ?_, fun always => ?_⟩
  · obtain ⟨man, returned, consistent⟩ := always oneSlot 1
      [addCall sampleAddress, .attempt sampleAddress.toCService (-1)] (by decide) (by decide) (by
        intro addr nTime nRnd member
        simp [addCall] at member)
    have present : (crowded 1).mapInfo[0]? = some { CAddrInfo.ofAddress sampleAddress
        sampleAddress.toCNetAddr 0 with nRefCount := 1 } := Std.ExtTreeMap.getElem?_insert_self
    have listed : (crowded 1).mapAddr[sampleAddress.toCNetAddr]? = some 0 :=
      Std.ExtTreeMap.getElem?_insert_self
    have attempted : (crowded 1).attempt sampleAddress.toCService (-1) = some ((crowded 1).modifyInfo
        0 fun info => { info with nLastTry := -1, nAttempts := info.nAttempts + 1 }) := by
      rw [attempt, find, listed, Option.bind_eq_bind, Option.bind_some, present]
      rfl
    rw [CAddrMan.run, List.foldlM_cons, step_empty_sampleAddress] at returned
    change ((crowded 1).attempt sampleAddress.toCService (-1)).bind pure = _ at returned
    rw [attempted] at returned
    cases returned
    have times := (consistent.times 0 _ (modifyInfo_self present)).1
    contradiction
  · obtain ⟨man, returned, consistent⟩ := always oneSlot Uint256.null [] (by decide) (by
      intro call member
      contradiction)
    cases returned
    exact consistent.nKey rfl
  · have fails := @run_crowded 1 Nat.one_pos (by decide) (2 ^ 31) (by decide)
    generalize (2 ^ 31 : Nat) = rounds at fails
    obtain ⟨man, returned, consistent⟩ := always oneSlot 1
      (addCall sampleAddress :: List.replicate rounds (addCall otherAddress)) (by decide) (by
        intro call member
        rcases List.mem_cons.mp member with rfl | member
        · trivial
        · rw [List.eq_of_mem_replicate member]
          trivial)
    rw [CAddrMan.run, List.foldlM_cons, step_empty_sampleAddress] at returned
    rw [CAddrMan.run] at fails
    rw [Option.bind_eq_bind, Option.bind_some, fails] at returned
    contradiction

end Samples

end CAddrMan

end Lycancoin
