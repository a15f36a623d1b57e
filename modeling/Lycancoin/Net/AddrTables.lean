import Lycancoin.Data.KeyedBatch
import Lycancoin.Data.KeyedTotal
import Lycancoin.Data.Placement
import Lycancoin.Net.AddrMan

namespace Lycancoin

open Lycancoin.Data

namespace CAddrMan

variable {hashes : AddrHashes} {man after : CAddrMan} {nId id : Nat} {info found : CAddrInfo}
  {edit : CAddrInfo → CAddrInfo}

section ModifyInfo

theorem mapInfo_modifyInfo (present : man.mapInfo[nId]? = some info) :
    (man.modifyInfo nId edit).mapInfo = man.mapInfo.insert nId (edit info) := by
  simp only [modifyInfo, present]

theorem getElem?_modifyInfo (nId id : Nat) (edit : CAddrInfo → CAddrInfo) (man : CAddrMan) :
    (man.modifyInfo nId edit).mapInfo[id]? =
      if id = nId then man.mapInfo[nId]?.map edit else man.mapInfo[id]? := by
  cases present : man.mapInfo[nId]? with
  | none =>
      have same : (man.modifyInfo nId edit).mapInfo = man.mapInfo := by
        simp only [modifyInfo, present]
      rw [same]
      split_ifs with here
      · rw [here, present]
        rfl
      · rfl
  | some info =>
      rw [mapInfo_modifyInfo present, KeyedBatch.getElem?_insert_eq]
      rfl

theorem modifyInfo_self (present : man.mapInfo[nId]? = some info) :
    (man.modifyInfo nId edit).mapInfo[nId]? = some (edit info) := by
  rw [getElem?_modifyInfo, if_pos rfl, present, Option.map_some]

theorem modifyInfo_of_ne (different : id ≠ nId) :
    (man.modifyInfo nId edit).mapInfo[id]? = man.mapInfo[id]? := by
  rw [getElem?_modifyInfo, if_neg different]

/-- An entry of the map after a change of one entry. -/
theorem of_modifyInfo (stored : (man.modifyInfo nId edit).mapInfo[id]? = some found) :
    (id = nId ∧ ∃ info, man.mapInfo[nId]? = some info ∧ found = edit info) ∨
      (id ≠ nId ∧ man.mapInfo[id]? = some found) := by
  rw [getElem?_modifyInfo] at stored
  split at stored
  · rename_i here
    obtain ⟨info, present, rfl⟩ := Option.map_eq_some_iff.mp stored
    exact Or.inl ⟨here, info, present, rfl⟩
  · rename_i different
    exact Or.inr ⟨different, stored⟩

theorem map_modifyInfo {α : Type} (read : CAddrInfo → α) (nId : Nat)
    (edit : CAddrInfo → CAddrInfo) (man : CAddrMan)
    (keeps : ∀ info, man.mapInfo[nId]? = some info → read (edit info) = read info) (id : Nat) :
    (man.modifyInfo nId edit).mapInfo[id]?.map read = man.mapInfo[id]?.map read := by
  rw [getElem?_modifyInfo]
  split_ifs with here
  · rw [here]
    cases present : man.mapInfo[nId]? with
    | none => rfl
    | some info =>
        rw [Option.map_some, Option.map_some, Option.map_some, keeps info present]
  · rfl

end ModifyInfo

/-- The address book: `mapAddr` is the inverse of `mapInfo`, `vRandom` lists the
ids at their places, and the next id is a new one. -/
structure Indexed (man : CAddrMan) : Prop where
  fresh : ∀ (id : Nat) (info : CAddrInfo), man.mapInfo[id]? = some info → id < man.nIdCount
  address : ∀ (addr : CNetAddr) (id : Nat),
    man.mapAddr[addr]? = some id ↔ ∃ info, man.mapInfo[id]? = some info ∧ info.toCNetAddr = addr
  placed : Placed man.vRandom fun id => man.mapInfo[id]?.map CAddrInfo.nRandomPos

namespace Indexed

theorem empty (nKey : Uint256) : Indexed (empty nKey) where
  fresh id info stored := by simp [CAddrMan.empty] at stored
  address addr id := by simp [CAddrMan.empty]
  placed := Placed.nil.congr fun id => by simp [CAddrMan.empty]

theorem modifyInfo (indexed : Indexed man) (nId : Nat) (edit : CAddrInfo → CAddrInfo)
    (keeps : ∀ info, man.mapInfo[nId]? = some info →
      (edit info).toCNetAddr = info.toCNetAddr ∧ (edit info).nRandomPos = info.nRandomPos) :
    Indexed (man.modifyInfo nId edit) where
  fresh id info stored := by
    rcases of_modifyInfo stored with ⟨rfl, before, present, _⟩ | ⟨_, present⟩
    · exact indexed.fresh id before present
    · exact indexed.fresh id info present
  address addr id := by
    have same := map_modifyInfo (fun info : CAddrInfo => info.toCNetAddr) nId edit man
      (fun info present => (keeps info present).1) id
    rw [show (man.modifyInfo nId edit).mapAddr = man.mapAddr from rfl, indexed.address addr id,
      ← Option.map_eq_some_iff, ← Option.map_eq_some_iff, same]
  placed := indexed.placed.congr fun id =>
    map_modifyInfo CAddrInfo.nRandomPos nId edit man (fun info present => (keeps info present).2) id

theorem of_find {addr : CNetAddr} (returned : man.find addr = some (nId, info)) :
    man.mapInfo[nId]? = some info := by
  obtain ⟨stored, _, returned⟩ := Option.bind_eq_some_iff.mp returned
  obtain ⟨entry, present, returned⟩ := Option.bind_eq_some_iff.mp returned
  cases returned
  exact present

theorem of_find_none (indexed : Indexed man) {addr : CNetAddr} (absent : man.find addr = none) :
    man.mapAddr[addr]? = none := by
  cases stored : man.mapAddr[addr]? with
  | none => rfl
  | some id =>
      obtain ⟨info, present, _⟩ := (indexed.address addr id).mp stored
      rw [find, stored, Option.bind_eq_bind, Option.bind_some, present] at absent
      contradiction

theorem withEntry (indexed : Indexed man) {addr : CAddress} (addrSource : CNetAddr)
    (absent : man.mapAddr[addr.toCNetAddr]? = none) : Indexed (man.withEntry addr addrSource) := by
  have unused : man.mapInfo[man.nIdCount]? = none := by
    cases present : man.mapInfo[man.nIdCount]? with
    | none => rfl
    | some info => exact absurd (indexed.fresh _ _ present) (lt_irrefl _)
  have stored : ∀ id : Nat, (man.withEntry addr addrSource).mapInfo[id]? =
      if id = man.nIdCount then some (CAddrInfo.ofAddress addr addrSource man.vRandom.length)
      else man.mapInfo[id]? := fun id => KeyedBatch.getElem?_insert_eq ..
  refine ⟨fun id info present => ?_, fun other id => ?_, ?_⟩
  · rw [stored] at present
    change id < man.nIdCount + 1
    split at present
    · omega
    · exact Nat.lt_succ_of_lt (indexed.fresh id info present)
  · have listed : (man.withEntry addr addrSource).mapAddr[other]? =
        if other = addr.toCNetAddr then some man.nIdCount else man.mapAddr[other]? :=
      KeyedBatch.getElem?_insert_eq ..
    rw [listed, stored]
    by_cases isNew : id = man.nIdCount
    · subst isNew
      rw [if_pos rfl]
      constructor
      · intro mapped
        split at mapped
        · rename_i same
          exact ⟨_, rfl, same.symm⟩
        · obtain ⟨info, present, _⟩ := (indexed.address other _).mp mapped
          rw [unused] at present
          contradiction
      · intro ⟨info, isInfo, same⟩
        cases isInfo
        exact if_pos same.symm
    · rw [if_neg isNew]
      by_cases same : other = addr.toCNetAddr
      · rw [if_pos same, Option.some.injEq]
        constructor
        · intro impossible
          exact absurd impossible.symm isNew
        · intro known
          have mapped := (indexed.address other id).mpr known
          rw [same, absent] at mapped
          contradiction
      · rw [if_neg same]
        exact indexed.address other id
  · have nowhere : man.mapInfo[man.nIdCount]?.map CAddrInfo.nRandomPos = none := by
      rw [unused, Option.map_none]
    apply (indexed.placed.append nowhere).congr
    intro id
    rw [stored, Function.update_apply]
    split_ifs
    · rfl
    · rfl

end Indexed

end CAddrMan

/-- An entry without its place in `vRandom`. -/
def CAddrInfo.unplaced (info : CAddrInfo) : CAddrInfo := { info with nRandomPos := 0 }

namespace CAddrMan

variable {hashes : AddrHashes} {man after : CAddrMan} {nId id : Nat} {info found : CAddrInfo}
  {edit : CAddrInfo → CAddrInfo}

/-- Nothing but the order of `vRandom` differs. -/
structure Reordered (man after : CAddrMan) : Prop where
  others : after = { man with mapInfo := after.mapInfo, vRandom := after.vRandom }
  entries : ∀ id : Nat,
    after.mapInfo[id]?.map CAddrInfo.unplaced = man.mapInfo[id]?.map CAddrInfo.unplaced
  length : after.vRandom.length = man.vRandom.length

namespace Reordered

theorem refl (man : CAddrMan) : Reordered man man := ⟨rfl, fun _ => rfl, rfl⟩

/-- What does not read the place of an entry is unchanged. -/
theorem map_eq {α : Type} (reordered : Reordered man after) (read : CAddrInfo → α)
    (blind : ∀ info : CAddrInfo, read info.unplaced = read info) (id : Nat) :
    after.mapInfo[id]?.map read = man.mapInfo[id]?.map read := by
  have same := congrArg (Option.map read) (reordered.entries id)
  have through : read ∘ CAddrInfo.unplaced = read := funext blind
  rwa [Option.map_map, Option.map_map, through] at same

theorem entry (reordered : Reordered man after) (present : after.mapInfo[id]? = some found) :
    ∃ info, man.mapInfo[id]? = some info ∧ info.unplaced = found.unplaced := by
  have same := reordered.entries id
  rw [present, Option.map_some] at same
  exact Option.map_eq_some_iff.mp same.symm

theorem entry' (reordered : Reordered man after) (present : man.mapInfo[id]? = some info) :
    ∃ found, after.mapInfo[id]? = some found ∧ found.unplaced = info.unplaced := by
  have same := reordered.entries id
  rw [present, Option.map_some] at same
  exact Option.map_eq_some_iff.mp same

end Reordered

/-- `SwapRandom` of two places of the list succeeds. -/
theorem swapRandom_spec (indexed : Indexed man) {p q first second : Nat}
    (atFirst : man.vRandom[p]? = some first) (atSecond : man.vRandom[q]? = some second) :
    ∃ after, man.swapRandom p q = some after ∧ Indexed after ∧ Reordered man after ∧
      after.vRandom[q]? = some first := by
  obtain ⟨info1, present1, place1⟩ := Option.map_eq_some_iff.mp ((indexed.placed p first).mp atFirst)
  obtain ⟨info2, present2, place2⟩ :=
    Option.map_eq_some_iff.mp ((indexed.placed q second).mp atSecond)
  by_cases same : p = q
  · subst same
    refine ⟨man, ?_, indexed, Reordered.refl man, atFirst⟩
    rw [swapRandom, if_pos rfl]
  · have different : first ≠ second := by
      intro equal
      rw [equal, present2] at present1
      cases present1
      exact same (place1.symm.trans place2)
    have stored : ∀ id : Nat, ((man.mapInfo.insert first { info1 with nRandomPos := q }).insert second
        { info2 with nRandomPos := p })[id]? =
          if id = second then some { info2 with nRandomPos := p }
          else if id = first then some { info1 with nRandomPos := q } else man.mapInfo[id]? := by
      intro id
      rw [KeyedBatch.getElem?_insert_eq, KeyedBatch.getElem?_insert_eq]
    have swapped : man.swapRandom p q = some { man with
        mapInfo := (man.mapInfo.insert first { info1 with nRandomPos := q }).insert second
          { info2 with nRandomPos := p }
        vRandom := (man.vRandom.set p second).set q first } := by
      simp only [swapRandom, if_neg same, atFirst, atSecond, present1, present2,
        Option.bind_eq_bind, Option.bind_some]
    have kept : ∀ {α : Type} (read : CAddrInfo → α),
        (∀ info : CAddrInfo, ∀ place, read { info with nRandomPos := place } = read info) →
        ∀ id : Nat, ((man.mapInfo.insert first { info1 with nRandomPos := q }).insert second
          { info2 with nRandomPos := p })[id]?.map read = man.mapInfo[id]?.map read := by
      intro α read blind id
      rw [stored]
      split_ifs with isSecond isFirst
      · rw [isSecond, present2, Option.map_some, Option.map_some, blind]
      · rw [isFirst, present1, Option.map_some, Option.map_some, blind]
      · rfl
    refine ⟨_, swapped, ⟨?_, ?_, ?_⟩, ⟨rfl, ?_, ?_⟩, ?_⟩
    · intro id info present
      have known := kept (fun _ => ()) (fun _ _ => rfl) id
      rw [present, Option.map_some] at known
      obtain ⟨before, old, _⟩ := Option.map_eq_some_iff.mp known.symm
      exact indexed.fresh id before old
    · intro addr id
      have known := kept (fun info => info.toCNetAddr) (fun _ _ => rfl) id
      rw [← Option.map_eq_some_iff (f := fun info : CAddrInfo => info.toCNetAddr), known,
        Option.map_eq_some_iff]
      exact indexed.address addr id
    · apply (indexed.placed.swap atFirst atSecond).congr
      intro id
      rw [stored, Function.update_apply, Function.update_apply]
      split_ifs
      · rfl
      · rfl
      · rfl
    · exact kept CAddrInfo.unplaced fun _ _ => rfl
    · simp only [List.length_set]
    · have inside : q < man.vRandom.length := (List.getElem?_eq_some_iff.mp atSecond).1
      simp [inside]

end CAddrMan

/-- The rule for an entry on its own. -/
structure CAddrInfo.Ranged (info : CAddrInfo) : Prop where
  tried : info.fInTried = true → info.nRefCount = 0 ∧ 0 < info.nLastSuccess
  new : info.fInTried = false →
    1 ≤ info.nRefCount ∧ info.nRefCount ≤ ADDRMAN_NEW_BUCKETS_PER_ADDRESS

namespace CAddrMan

/-- The service of an entry, on which its slots depend. -/
def service (man : CAddrMan) (id : Nat) : Option CService :=
  man.mapInfo[id]?.map fun info => info.toCService

structure Slotted (hashes : AddrHashes) (man : CAddrMan) : Prop where
  newSlot : ∀ (slot : Slot ADDRMAN_NEW_BUCKET_COUNT) (id : Nat), man.vvNew slot = some id →
    ∃ addr, man.service id = some addr ∧ slot = hashes.slotIn man.nKey addr slot.1
  triedSlot : ∀ (slot : Slot ADDRMAN_TRIED_BUCKET_COUNT) (id : Nat), man.vvTried slot = some id ↔
    ∃ info, man.mapInfo[id]? = some info ∧ info.fInTried = true ∧
      hashes.triedSlot man.nKey info.toCService = slot
  references : ∀ (id : Nat) (info : CAddrInfo), man.mapInfo[id]? = some info →
    info.nRefCount = (occupied man.vvNew id).card

def newWeight (info : CAddrInfo) : Int := if !info.fInTried then 1 else 0

def triedWeight (info : CAddrInfo) : Int := if info.fInTried then 1 else 0

/-- What holds between the steps of a call: all is linked, but the loose entries
may break the rule for single entries, and `nNew` may be short by a gap. -/
structure Linked (hashes : AddrHashes) (loose : List Nat) (gap : Int) (man : CAddrMan) : Prop
    extends Indexed man, Slotted hashes man where
  ranged : ∀ (id : Nat) (info : CAddrInfo), man.mapInfo[id]? = some info → id ∉ loose → info.Ranged
  nNew : man.nNew + gap = KeyedTotal.total newWeight man.mapInfo
  nTried : man.nTried = KeyedTotal.total triedWeight man.mapInfo

variable {hashes : AddrHashes} {man after : CAddrMan} {nId id : Nat} {info found : CAddrInfo}
  {edit : CAddrInfo → CAddrInfo} {loose : List Nat} {gap : Int}

theorem service_modifyInfo (nId : Nat) (edit : CAddrInfo → CAddrInfo) (man : CAddrMan)
    (keeps : ∀ info, man.mapInfo[nId]? = some info → (edit info).toCService = info.toCService)
    (id : Nat) : (man.modifyInfo nId edit).service id = man.service id :=
  map_modifyInfo (fun info : CAddrInfo => info.toCService) nId edit man keeps id

theorem total_modifyInfo (weight : CAddrInfo → Int) (edit : CAddrInfo → CAddrInfo)
    (present : man.mapInfo[nId]? = some info) :
    KeyedTotal.total weight (man.modifyInfo nId edit).mapInfo =
      KeyedTotal.total weight man.mapInfo - weight info + weight (edit info) := by
  rw [mapInfo_modifyInfo present, KeyedTotal.total_insert, present, Option.elim_some]

theorem Slotted.reordered (slotted : Slotted hashes man) (reordered : Reordered man after) :
    Slotted hashes after := by
  have services : ∀ id, after.service id = man.service id :=
    reordered.map_eq (fun info => info.toCService) fun _ => rfl
  have others := reordered.others
  refine ⟨fun slot id held => ?_, fun slot id => ?_, fun id found present => ?_⟩
  · rw [others] at held
    obtain ⟨addr, known, place⟩ := slotted.newSlot slot id held
    refine ⟨addr, by rw [services, known], ?_⟩
    rw [others]
    exact place
  · have sameKey : after.nKey = man.nKey := by rw [others]
    have sameTable : after.vvTried = man.vvTried := by rw [others]
    rw [sameKey, sameTable, slotted.triedSlot slot id]
    constructor
    · intro ⟨info, present, tried, place⟩
      obtain ⟨found, present', same⟩ := reordered.entry' present
      cases found
      cases info
      cases same
      exact ⟨_, present', tried, place⟩
    · intro ⟨found, present, tried, place⟩
      obtain ⟨info, present', same⟩ := reordered.entry present
      cases found
      cases info
      cases same
      exact ⟨_, present', tried, place⟩
  · have sameTable : after.vvNew = man.vvNew := by rw [others]
    obtain ⟨info, present', same⟩ := reordered.entry present
    have counted := slotted.references id info present'
    rw [sameTable, ← counted]
    exact (congrArg CAddrInfo.nRefCount same).symm

/-- Entries that are equal but for their places are both in range or both not. -/
theorem ranged_of_unplaced (ranged : info.Ranged) (same : info.unplaced = found.unplaced) :
    found.Ranged := by
  cases found
  cases info
  cases same
  exact ⟨ranged.tried, ranged.new⟩

theorem Linked.reordered (linked : Linked hashes loose gap man) (indexed : Indexed after)
    (reordered : Reordered man after) : Linked hashes loose gap after := by
  have others := reordered.others
  refine ⟨indexed, linked.toSlotted.reordered reordered, fun id found present tight => ?_, ?_, ?_⟩
  · obtain ⟨info, present', same⟩ := reordered.entry present
    exact ranged_of_unplaced (linked.ranged id info present' tight) same
  · have sameCount : after.nNew = man.nNew := by rw [others]
    rw [sameCount, linked.nNew]
    exact (KeyedTotal.total_congr (reordered.map_eq newWeight fun _ => rfl)).symm
  · have sameCount : after.nTried = man.nTried := by rw [others]
    rw [sameCount, linked.nTried]
    exact (KeyedTotal.total_congr (reordered.map_eq triedWeight fun _ => rfl)).symm

theorem Linked.tighten (linked : Linked hashes (nId :: loose) gap man)
    (ranged : ∀ info, man.mapInfo[nId]? = some info → info.Ranged) :
    Linked hashes loose gap man where
  toIndexed := linked.toIndexed
  toSlotted := linked.toSlotted
  ranged id info present tight := by
    by_cases here : id = nId
    · subst here
      exact ranged info present
    · apply linked.ranged id info present
      rw [List.mem_cons, not_or]
      exact ⟨here, tight⟩
  nNew := linked.nNew
  nTried := linked.nTried

theorem Linked.loosen (linked : Linked hashes loose gap man) (nId : Nat) :
    Linked hashes (nId :: loose) gap man where
  toIndexed := linked.toIndexed
  toSlotted := linked.toSlotted
  ranged id info present tight :=
    linked.ranged id info present fun member => tight (List.mem_cons_of_mem _ member)
  nNew := linked.nNew
  nTried := linked.nTried

theorem Linked.touch (linked : Linked hashes loose gap man) (nId : Nat)
    (edit : CAddrInfo → CAddrInfo)
    (service : ∀ info, man.mapInfo[nId]? = some info → (edit info).toCService = info.toCService)
    (place : ∀ info, man.mapInfo[nId]? = some info → (edit info).nRandomPos = info.nRandomPos)
    (table : ∀ info, man.mapInfo[nId]? = some info →
      (edit info).nRefCount = info.nRefCount ∧ (edit info).fInTried = info.fInTried)
    (ranged : ∀ info, man.mapInfo[nId]? = some info → info.Ranged → (edit info).Ranged) :
    Linked hashes loose gap (man.modifyInfo nId edit) where
  toIndexed := linked.toIndexed.modifyInfo nId edit fun info present =>
    ⟨congrArg CService.toCNetAddr (service info present), place info present⟩
  newSlot slot id held := by
    rw [service_modifyInfo nId edit man service]
    exact linked.newSlot slot id held
  triedSlot slot id := by
    refine (linked.triedSlot slot id).trans ?_
    have same := map_modifyInfo (fun info : CAddrInfo => (info.fInTried, info.toCService)) nId
      edit man
      (fun info present => Prod.ext (table info present).2 (service info present)) id
    have read : ∀ other : CAddrMan, (∃ info, other.mapInfo[id]? = some info ∧
        info.fInTried = true ∧ hashes.triedSlot man.nKey info.toCService = slot) ↔
        ∃ fields, other.mapInfo[id]?.map (fun info => (info.fInTried, info.toCService)) =
          some fields ∧ fields.1 = true ∧ hashes.triedSlot man.nKey fields.2 = slot := by
      intro other
      cases other.mapInfo[id]? with
      | none => simp
      | some info => simp
    rw [read man]
    refine Iff.trans ?_ (read (man.modifyInfo nId edit)).symm
    rw [same]
  references id found present := by
    rcases of_modifyInfo present with ⟨rfl, info, before, rfl⟩ | ⟨_, before⟩
    · rw [(table info before).1]
      exact linked.references id info before
    · exact linked.references id found before
  ranged id found present tight := by
    rcases of_modifyInfo present with ⟨rfl, info, before, rfl⟩ | ⟨_, before⟩
    · exact ranged info before (linked.ranged id info before tight)
    · exact linked.ranged id found before tight
  nNew := by
    refine linked.nNew.trans (KeyedTotal.total_congr (map_modifyInfo newWeight nId edit man ?_)).symm
    intro info present
    rw [newWeight, newWeight, (table info present).2]
  nTried := by
    refine linked.nTried.trans (KeyedTotal.total_congr (map_modifyInfo triedWeight nId edit man ?_)).symm
    intro info present
    rw [triedWeight, triedWeight, (table info present).2]

section Tables

variable {slot : Slot ADDRMAN_NEW_BUCKET_COUNT} {place : Slot ADDRMAN_TRIED_BUCKET_COUNT}

/-- The tried slots of the entries, where an edit changes neither table nor service. -/
theorem triedSlot_modifyInfo (slotted : Slotted hashes man) (nId : Nat)
    (edit : CAddrInfo → CAddrInfo)
    (service : ∀ info, man.mapInfo[nId]? = some info → (edit info).toCService = info.toCService)
    (table : ∀ info, man.mapInfo[nId]? = some info → (edit info).fInTried = info.fInTried)
    (place : Slot ADDRMAN_TRIED_BUCKET_COUNT) (id : Nat) :
    man.vvTried place = some id ↔ ∃ info, (man.modifyInfo nId edit).mapInfo[id]? = some info ∧
      info.fInTried = true ∧ hashes.triedSlot man.nKey info.toCService = place := by
  rw [slotted.triedSlot place id]
  by_cases here : id = nId
  · subst here
    cases present : man.mapInfo[id]? with
    | none => simp [getElem?_modifyInfo, present]
    | some info =>
        rw [modifyInfo_self present]
        simp [table info present, service info present]
  · rw [modifyInfo_of_ne here]

theorem Linked.release (linked : Linked hashes loose gap man) (held : man.vvNew slot = some nId) :
    Linked hashes (nId :: loose) gap (man.release slot nId) where
  toIndexed :=
    have kept := linked.toIndexed.modifyInfo nId
      (fun info => { info with nRefCount := info.nRefCount - 1 }) fun _ _ => ⟨rfl, rfl⟩
    ⟨kept.fresh, kept.address, kept.placed⟩
  newSlot other id holds := by
    change Function.update man.vvNew slot none other = some id at holds
    rw [Function.update_apply] at holds
    split at holds
    · contradiction
    · have same : (man.release slot nId).service id = man.service id :=
        service_modifyInfo nId (fun info => { info with nRefCount := info.nRefCount - 1 }) man
          (fun _ _ => rfl) id
      rw [same]
      exact linked.newSlot other id holds
  triedSlot place id :=
    triedSlot_modifyInfo linked.toSlotted nId
      (fun info => { info with nRefCount := info.nRefCount - 1 }) (fun _ _ => rfl) (fun _ _ => rfl)
      place id
  references id found present := by
    have counted := card_occupied_clear held id
    change found.nRefCount = ((occupied (Function.update man.vvNew slot none) id).card : Int)
    rcases of_modifyInfo present with ⟨rfl, info, before, rfl⟩ | ⟨different, before⟩
    · have references := linked.references id info before
      rw [if_pos rfl] at counted
      change info.nRefCount - 1 = _
      omega
    · have references := linked.references id found before
      rw [if_neg different] at counted
      omega
  ranged id found present tight := by
    rw [List.mem_cons, not_or] at tight
    rcases of_modifyInfo present with ⟨same, _⟩ | ⟨_, before⟩
    · exact absurd same tight.1
    · exact linked.ranged id found before tight.2
  nNew :=
    have same := map_modifyInfo newWeight nId
      (fun info => { info with nRefCount := info.nRefCount - 1 }) man fun _ _ => rfl
    linked.nNew.trans (KeyedTotal.total_congr same).symm
  nTried :=
    have same := map_modifyInfo triedWeight nId
      (fun info => { info with nRefCount := info.nRefCount - 1 }) man fun _ _ => rfl
    linked.nTried.trans (KeyedTotal.total_congr same).symm

theorem Linked.occupy (linked : Linked hashes loose gap man) (edit : CAddrInfo → CAddrInfo)
    (free : man.vvNew slot = none)
    (present : man.mapInfo[nId]? = some info)
    (standing : slot = hashes.slotIn man.nKey info.toCService slot.1)
    (edited : edit info = { info with nRefCount := info.nRefCount + 1 }) :
    Linked hashes (nId :: loose) gap (man.occupy slot nId edit) := by
  have only : ∀ other, man.mapInfo[nId]? = some other →
      edit other = { other with nRefCount := other.nRefCount + 1 } := by
    intro other known
    rw [present] at known
    cases known
    exact edited
  have service : ∀ other, man.mapInfo[nId]? = some other →
      (edit other).toCService = other.toCService := fun other known => by rw [only other known]
  have table : ∀ other, man.mapInfo[nId]? = some other →
      (edit other).fInTried = other.fInTried := fun other known => by rw [only other known]
  have indexed := linked.toIndexed.modifyInfo nId edit fun other known => by
    rw [only other known]
    exact ⟨rfl, rfl⟩
  refine ⟨⟨indexed.fresh, indexed.address, indexed.placed⟩, ⟨?_, ?_, ?_⟩, ?_, ?_, ?_⟩
  · intro other id holds
    change Function.update man.vvNew slot (some nId) other = some id at holds
    have same : (man.occupy slot nId edit).service id = man.service id :=
      service_modifyInfo nId edit man service id
    rw [same]
    rw [Function.update_apply] at holds
    split at holds
    · rename_i here
      cases holds
      rw [here]
      exact ⟨info.toCService, by rw [CAddrMan.service, present]; rfl, standing⟩
    · exact linked.newSlot other id holds
  · exact triedSlot_modifyInfo linked.toSlotted nId edit service table
  · intro id found known
    have counted := card_occupied_place free nId id
    change found.nRefCount = ((occupied (Function.update man.vvNew slot (some nId)) id).card : Int)
    rcases of_modifyInfo known with ⟨rfl, other, before, rfl⟩ | ⟨different, before⟩
    · have references := linked.references id other before
      rw [if_pos rfl] at counted
      rw [only other before]
      change other.nRefCount + 1 = _
      omega
    · have references := linked.references id found before
      rw [if_neg different] at counted
      omega
  · intro id found known tight
    rw [List.mem_cons, not_or] at tight
    rcases of_modifyInfo known with ⟨same, _⟩ | ⟨_, before⟩
    · exact absurd same tight.1
    · exact linked.ranged id found before tight.2
  · refine linked.nNew.trans (KeyedTotal.total_congr (map_modifyInfo newWeight nId edit man ?_)).symm
    intro other known
    rw [newWeight, newWeight, table other known]
  · refine linked.nTried.trans (KeyedTotal.total_congr (map_modifyInfo triedWeight nId edit man ?_)).symm
    intro other known
    rw [triedWeight, triedWeight, table other known]

/-- An entry leaves its tried slot and counts as a new one. -/
theorem Linked.demote (linked : Linked hashes loose gap man)
    (held : man.vvTried place = some nId) :
    Linked hashes (nId :: loose) (gap + 1) (man.demote place nId) := by
  obtain ⟨info, present, tried, standing⟩ := (linked.triedSlot place nId).mp held
  have indexed := linked.toIndexed.modifyInfo nId
    (fun info => { info with fInTried := false }) fun _ _ => ⟨rfl, rfl⟩
  refine ⟨⟨indexed.fresh, indexed.address, indexed.placed⟩, ⟨?_, ?_, ?_⟩, ?_, ?_, ?_⟩
  · intro slot id holds
    have same : (man.demote place nId).service id = man.service id :=
      service_modifyInfo nId (fun info => { info with fInTried := false }) man (fun _ _ => rfl) id
    rw [same]
    exact linked.newSlot slot id holds
  · intro other id
    change Function.update man.vvTried place none other = some id ↔ _
    rw [Function.update_apply]
    split_ifs with here
    · constructor
      · intro impossible
        contradiction
      · intro ⟨found, known, foundTried, foundPlace⟩
        rcases of_modifyInfo known with ⟨_, other, _, rfl⟩ | ⟨different, before⟩
        · contradiction
        · have holds := (linked.triedSlot other id).mpr ⟨found, before, foundTried, foundPlace⟩
          rw [here, held] at holds
          exact absurd (Option.some.inj holds).symm different
    · rw [linked.triedSlot other id]
      constructor
      · intro ⟨found, before, foundTried, foundPlace⟩
        have different : id ≠ nId := by
          rintro rfl
          rw [present] at before
          cases before
          exact here (foundPlace.symm.trans standing)
        exact ⟨found, (modifyInfo_of_ne different).trans before, foundTried, foundPlace⟩
      · intro ⟨found, known, foundTried, foundPlace⟩
        rcases of_modifyInfo known with ⟨_, other, _, rfl⟩ | ⟨_, before⟩
        · contradiction
        · exact ⟨found, before, foundTried, foundPlace⟩
  · intro id found known
    rcases of_modifyInfo known with ⟨rfl, other, before, rfl⟩ | ⟨_, before⟩
    · exact linked.references id other before
    · exact linked.references id found before
  · intro id found known tight
    rw [List.mem_cons, not_or] at tight
    rcases of_modifyInfo known with ⟨same, _⟩ | ⟨_, before⟩
    · exact absurd same tight.1
    · exact linked.ranged id found before tight.2
  · have counted := total_modifyInfo newWeight
      (fun info : CAddrInfo => { info with fInTried := false }) present
    have weights : newWeight info = 0 := by rw [newWeight, tried]; rfl
    rw [weights] at counted
    refine Eq.trans ?_ counted.symm
    rw [← linked.nNew]
    change man.nNew + (gap + 1) = man.nNew + gap - 0 + 1
    omega
  · have counted := total_modifyInfo triedWeight
      (fun info : CAddrInfo => { info with fInTried := false }) present
    have weights : triedWeight info = 1 := by rw [triedWeight, tried]; rfl
    rw [weights] at counted
    refine Eq.trans ?_ counted.symm
    rw [← linked.nTried]
    change man.nTried - 1 = man.nTried - 1 + 0
    omega

theorem Linked.promote (linked : Linked hashes loose gap man) (free : man.vvTried place = none)
    (present : man.mapInfo[nId]? = some info) (new : info.fInTried = false)
    (standing : hashes.triedSlot man.nKey info.toCService = place) :
    Linked hashes (nId :: loose) (gap - 1) (man.promote place nId) := by
  have indexed := linked.toIndexed.modifyInfo nId
    (fun info => { info with fInTried := true }) fun _ _ => ⟨rfl, rfl⟩
  refine ⟨⟨indexed.fresh, indexed.address, indexed.placed⟩, ⟨?_, ?_, ?_⟩, ?_, ?_, ?_⟩
  · intro slot id holds
    have same : (man.promote place nId).service id = man.service id :=
      service_modifyInfo nId (fun info => { info with fInTried := true }) man (fun _ _ => rfl) id
    rw [same]
    exact linked.newSlot slot id holds
  · intro other id
    change Function.update man.vvTried place (some nId) other = some id ↔ _
    have promoted : (man.promote place nId).mapInfo[nId]? =
        some { info with fInTried := true } := modifyInfo_self present
    rw [Function.update_apply]
    split_ifs with here
    · subst here
      constructor
      · intro same
        cases same
        exact ⟨_, promoted, rfl, standing⟩
      · intro ⟨found, known, foundTried, foundPlace⟩
        rcases of_modifyInfo known with ⟨same, _⟩ | ⟨_, before⟩
        · rw [same]
        · have holds := (linked.triedSlot other id).mpr ⟨found, before, foundTried, foundPlace⟩
          rw [free] at holds
          contradiction
    · rw [linked.triedSlot other id]
      constructor
      · intro ⟨found, before, foundTried, foundPlace⟩
        have different : id ≠ nId := by
          rintro rfl
          rw [present] at before
          cases before
          rw [new] at foundTried
          contradiction
        exact ⟨found, (modifyInfo_of_ne different).trans before, foundTried, foundPlace⟩
      · intro ⟨found, known, foundTried, foundPlace⟩
        rcases of_modifyInfo known with ⟨rfl, before, stored, rfl⟩ | ⟨_, before⟩
        · rw [present] at stored
          cases stored
          exact absurd (foundPlace.symm.trans standing) here
        · exact ⟨found, before, foundTried, foundPlace⟩
  · intro id found known
    rcases of_modifyInfo known with ⟨rfl, other, before, rfl⟩ | ⟨_, before⟩
    · exact linked.references id other before
    · exact linked.references id found before
  · intro id found known tight
    rw [List.mem_cons, not_or] at tight
    rcases of_modifyInfo known with ⟨same, _⟩ | ⟨_, before⟩
    · exact absurd same tight.1
    · exact linked.ranged id found before tight.2
  · have counted := total_modifyInfo newWeight
      (fun info : CAddrInfo => { info with fInTried := true }) present
    have weights : newWeight info = 1 := by rw [newWeight, new]; rfl
    rw [weights] at counted
    refine Eq.trans ?_ counted.symm
    rw [← linked.nNew]
    change man.nNew + (gap - 1) = man.nNew + gap - 1 + 0
    omega
  · have counted := total_modifyInfo triedWeight
      (fun info : CAddrInfo => { info with fInTried := true }) present
    have weights : triedWeight info = 0 := by rw [triedWeight, new]; rfl
    rw [weights] at counted
    refine Eq.trans ?_ counted.symm
    rw [← linked.nTried]
    change man.nTried + 1 = man.nTried - 0 + 1
    omega

end Tables

end CAddrMan

end Lycancoin
