import Lycancoin.Net.AddrTables

namespace Lycancoin

open Lycancoin.Data

namespace CAddrMan

variable {hashes : AddrHashes} {man after : CAddrMan} {nId id : Nat} {info found : CAddrInfo}
  {loose : List Nat} {gap : Int} {slot : Slot ADDRMAN_NEW_BUCKET_COUNT}

/-- What a step that works on the entries of `touched` leaves as it was. -/
structure Frame (touched : Nat → Prop) (man after : CAddrMan) : Prop where
  nKey : after.nKey = man.nKey
  vvTried : after.vvTried = man.vvTried
  entries : ∀ id : Nat, ¬touched id →
    after.mapInfo[id]?.map CAddrInfo.unplaced = man.mapInfo[id]?.map CAddrInfo.unplaced

theorem Frame.entry {touched : Nat → Prop} (frame : Frame touched man after)
    (present : man.mapInfo[id]? = some info) (outside : ¬touched id) :
    ∃ found, after.mapInfo[id]? = some found ∧ found.unplaced = info.unplaced := by
  have same := frame.entries id outside
  rw [present, Option.map_some] at same
  exact Option.map_eq_some_iff.mp same

/-- An entry that is in no slot stands in no reference either. -/
theorem Slotted.free (slotted : Slotted hashes man) (present : man.mapInfo[id]? = some info)
    (unused : info.nRefCount = 0) (slot : Slot ADDRMAN_NEW_BUCKET_COUNT) :
    man.vvNew slot ≠ some id := by
  have references := slotted.references id info present
  rw [unused] at references
  have empty : occupied man.vvNew id = ∅ := Finset.card_eq_zero.mp (by exact_mod_cast references.symm)
  exact occupied_eq_empty_iff.mp empty slot

theorem Slotted.referenced (slotted : Slotted hashes man) (present : man.mapInfo[id]? = some info)
    (held : man.vvNew slot = some id) : 0 < info.nRefCount := by
  rw [slotted.references id info present]
  exact_mod_cast Finset.card_pos.mpr ⟨slot, mem_occupied.mpr held⟩

/-- An entry in no table that stands last in `vRandom` is erased. -/
theorem Linked.erase (linked : Linked hashes loose gap man)
    (present : man.mapInfo[nId]? = some info) (new : info.fInTried = false)
    (unused : info.nRefCount = 0) (last : man.vRandom[man.vRandom.length - 1]? = some nId) :
    Linked hashes loose gap { man with
      vRandom := man.vRandom.dropLast
      mapAddr := man.mapAddr.erase info.toCNetAddr
      mapInfo := man.mapInfo.erase nId
      nNew := man.nNew - 1 } := by
  have stored : ∀ id : Nat, (man.mapInfo.erase nId)[id]? =
      if id = nId then none else man.mapInfo[id]? := KeyedBatch.getElem?_erase_eq _ _
  have kept : ∀ {id : Nat} {found : CAddrInfo}, (man.mapInfo.erase nId)[id]? = some found →
      id ≠ nId ∧ man.mapInfo[id]? = some found := by
    intro id found known
    rw [stored] at known
    split at known
    · contradiction
    · rename_i different
      exact ⟨different, known⟩
  refine ⟨⟨?_, ?_, ?_⟩, ⟨?_, ?_, ?_⟩, ?_, ?_, ?_⟩
  · intro id found known
    exact linked.fresh id found (kept known).2
  · intro addr id
    have listed : (man.mapAddr.erase info.toCNetAddr)[addr]? =
        if addr = info.toCNetAddr then none else man.mapAddr[addr]? :=
      KeyedBatch.getElem?_erase_eq ..
    have own := (linked.address info.toCNetAddr nId).mpr ⟨info, present, rfl⟩
    change (man.mapAddr.erase info.toCNetAddr)[addr]? = some id ↔
      ∃ found, (man.mapInfo.erase nId)[id]? = some found ∧ found.toCNetAddr = addr
    rw [listed, stored]
    by_cases isOwn : addr = info.toCNetAddr
    · rw [if_pos isOwn]
      constructor
      · intro impossible
        contradiction
      · intro ⟨found, known, same⟩
        split at known
        · contradiction
        · rename_i different
          have mapped := (linked.address addr id).mpr ⟨found, known, same⟩
          rw [isOwn, own] at mapped
          exact absurd (Option.some.inj mapped).symm different
    · rw [if_neg isOwn, linked.address addr id]
      by_cases here : id = nId
      · rw [if_pos here]
        constructor
        · intro ⟨found, known, same⟩
          rw [here, present] at known
          cases known
          exact absurd same.symm isOwn
        · intro ⟨found, known, _⟩
          contradiction
      · rw [if_neg here]
  · have place : man.mapInfo[nId]?.map CAddrInfo.nRandomPos = some (man.vRandom.length - 1) :=
      (linked.placed _ nId).mp last
    apply (linked.placed.dropLast place).congr
    intro id
    change (man.mapInfo.erase nId)[id]?.map CAddrInfo.nRandomPos = _
    rw [stored, Function.update_apply]
    split_ifs
    · rfl
    · rfl
  · intro slot id held
    have different : id ≠ nId := by
      rintro rfl
      exact linked.toSlotted.free present unused slot held
    obtain ⟨addr, known, standing⟩ := linked.newSlot slot id held
    refine ⟨addr, ?_, standing⟩
    change (man.mapInfo.erase nId)[id]?.map _ = _
    rw [stored, if_neg different]
    exact known
  · intro place id
    refine (linked.triedSlot place id).trans ?_
    constructor
    · intro ⟨found, known, tried, standing⟩
      have different : id ≠ nId := by
        rintro rfl
        rw [present] at known
        cases known
        rw [new] at tried
        contradiction
      exact ⟨found, (stored id).trans ((if_neg different).trans known), tried, standing⟩
    · intro ⟨found, known, tried, standing⟩
      exact ⟨found, (kept known).2, tried, standing⟩
  · intro id found known
    exact linked.references id found (kept known).2
  · intro id found known tight
    exact linked.ranged id found (kept known).2 tight
  · have counted : KeyedTotal.total newWeight (man.mapInfo.erase nId) =
        KeyedTotal.total newWeight man.mapInfo - man.mapInfo[nId]?.elim 0 newWeight :=
      KeyedTotal.total_erase ..
    have weight : newWeight info = 1 := by rw [newWeight, new]; rfl
    rw [present, Option.elim_some, weight, ← linked.nNew] at counted
    refine Eq.trans ?_ counted.symm
    change man.nNew - 1 + gap = man.nNew + gap - 1
    omega
  · have counted : KeyedTotal.total triedWeight (man.mapInfo.erase nId) =
        KeyedTotal.total triedWeight man.mapInfo - man.mapInfo[nId]?.elim 0 triedWeight :=
      KeyedTotal.total_erase ..
    have weight : triedWeight info = 0 := by rw [triedWeight, new]; rfl
    rw [present, Option.elim_some, weight, ← linked.nTried] at counted
    refine Eq.trans ?_ counted.symm
    exact (Int.sub_zero _).symm

/-- `Delete` of an entry in no table succeeds. -/
theorem Linked.delete (linked : Linked hashes loose gap man)
    (present : man.mapInfo[nId]? = some info) (new : info.fInTried = false)
    (unused : info.nRefCount = 0) :
    ∃ after, man.delete nId = some after ∧ Linked hashes loose gap after ∧
      after.mapInfo[nId]? = none ∧ after.vvNew = man.vvNew ∧ Frame (· = nId) man after := by
  have place : man.vRandom[info.nRandomPos]? = some nId := by
    apply (linked.placed _ nId).mpr
    change man.mapInfo[nId]?.map _ = _
    rw [present]
    rfl
  have inside := (List.getElem?_eq_some_iff.mp place).1
  obtain ⟨other, final⟩ : ∃ other, man.vRandom[man.vRandom.length - 1]? = some other :=
    ⟨_, List.getElem?_eq_getElem (by omega)⟩
  obtain ⟨swapped, returned, indexed, reordered, last⟩ :=
    swapRandom_spec linked.toIndexed place final
  have linkedSwapped := linked.reordered indexed reordered
  obtain ⟨entry, presentSwapped, same⟩ := reordered.entry' present
  have fields : entry.fInTried = false ∧ entry.nRefCount = 0 ∧
      entry.toCNetAddr = info.toCNetAddr := by
    refine ⟨?_, ?_, ?_⟩
    · exact (congrArg CAddrInfo.fInTried same).trans new
    · exact (congrArg CAddrInfo.nRefCount same).trans unused
    · show entry.unplaced.toCNetAddr = info.unplaced.toCNetAddr
      rw [same]
  rw [← reordered.length] at last
  have erased := linkedSwapped.erase presentSwapped fields.1 fields.2.1 last
  rw [fields.2.2] at erased
  have others := reordered.others
  refine ⟨_, ?_, erased, ?_, ?_, ?_, ?_, ?_⟩
  · rw [CAddrMan.delete, present, Option.bind_eq_bind, Option.bind_some,
      if_neg (by rw [new, unused]; decide), returned]
    rfl
  · exact Std.ExtTreeMap.getElem?_erase_self
  · rw [others]
  · rw [others]
  · rw [others]
  · intro id outside
    change (swapped.mapInfo.erase nId)[id]?.map _ = _
    rw [KeyedBatch.getElem?_erase_eq, if_neg outside]
    exact reordered.entries id

/-- `ClearNew` empties a slot, unless a loose entry stands in it. -/
theorem Linked.clearNew (linked : Linked hashes loose gap man)
    (slot : Slot ADDRMAN_NEW_BUCKET_COUNT)
    (tight : ∀ id, man.vvNew slot = some id → id ∉ loose) :
    ∃ after, man.clearNew slot = some after ∧ Linked hashes loose gap after ∧
      after.vvNew = Function.update man.vvNew slot none ∧
      Frame (fun id => man.vvNew slot = some id) man after := by
  cases held : man.vvNew slot with
  | none =>
      refine ⟨man, ?_, linked, ?_, rfl, rfl, fun _ _ => rfl⟩
      · rw [CAddrMan.clearNew, held]
      · rw [← held, Function.update_eq_self]
  | some nIdDelete =>
      obtain ⟨addr, known, _⟩ := linked.newSlot slot nIdDelete held
      obtain ⟨infoDelete, present, _⟩ := Option.map_eq_some_iff.mp known
      have referenced := linked.toSlotted.referenced present held
      have ranged := linked.ranged nIdDelete infoDelete present (tight nIdDelete held)
      have new : infoDelete.fInTried = false := by
        cases tried : infoDelete.fInTried with
        | false => rfl
        | true =>
            have none := (ranged.tried tried).1
            omega
      have released := linked.release held
      have presentReleased : (man.release slot nIdDelete).mapInfo[nIdDelete]? =
          some { infoDelete with nRefCount := infoDelete.nRefCount - 1 } := modifyInfo_self present
      have frame : Frame (fun id => some nIdDelete = some id) man (man.release slot nIdDelete) := by
        refine ⟨rfl, rfl, fun id outside => ?_⟩
        have different : id ≠ nIdDelete := fun same => outside (by rw [same])
        exact congrArg _ (modifyInfo_of_ne different)
      by_cases last : infoDelete.nRefCount - 1 = 0
      · obtain ⟨after, returned, deleted, gone, table, rest⟩ :=
          released.delete presentReleased new last
        refine ⟨after, ?_, deleted.tighten fun found known => ?_, table, ?_, ?_, ?_⟩
        · rw [CAddrMan.clearNew, held]
          simp only [present, Option.bind_eq_bind, Option.bind_some]
          rw [if_neg (by omega), if_pos last]
          exact returned
        · rw [gone] at known
          contradiction
        · exact rest.nKey.trans frame.nKey
        · exact rest.vvTried.trans frame.vvTried
        · intro id outside
          have different : id ≠ nIdDelete := fun same => outside (by rw [same])
          exact (rest.entries id different).trans (frame.entries id outside)
      · refine ⟨_, ?_, released.tighten fun found known => ?_, rfl, frame⟩
        · rw [CAddrMan.clearNew, held]
          simp only [present, Option.bind_eq_bind, Option.bind_some]
          rw [if_neg (by omega), if_neg last]
        · rw [presentReleased] at known
          cases known
          have most := (ranged.new new).2
          refine ⟨fun tried => ?_, fun _ => ⟨?_, ?_⟩⟩
          · rw [new] at tried
            contradiction
          · change 1 ≤ infoDelete.nRefCount - 1
            omega
          · change infoDelete.nRefCount - 1 ≤ _
            omega

theorem Linked.count (linked : Linked hashes loose gap man) (change : Int) :
    Linked hashes loose (gap - change) { man with nNew := man.nNew + change } where
  toIndexed := ⟨linked.fresh, linked.address, linked.placed⟩
  toSlotted := ⟨linked.newSlot, linked.triedSlot, linked.references⟩
  ranged := linked.ranged
  nNew := by
    rw [← linked.nNew]
    show man.nNew + change + (gap - change) = man.nNew + gap
    omega
  nTried := linked.nTried

theorem Linked.once (linked : Linked hashes (nId :: nId :: loose) gap man) :
    Linked hashes (nId :: loose) gap man where
  toIndexed := linked.toIndexed
  toSlotted := linked.toSlotted
  ranged id info present tight := by
    apply linked.ranged id info present
    rw [List.mem_cons]
    rintro (rfl | member)
    · exact tight List.mem_cons_self
    · exact tight member
  nNew := linked.nNew
  nTried := linked.nTried

section MakeTried

variable {place : Slot ADDRMAN_TRIED_BUCKET_COUNT}

theorem Linked.evict (linked : Linked hashes [nId] 1 man)
    (place : Slot ADDRMAN_TRIED_BUCKET_COUNT) (present : man.mapInfo[nId]? = some info)
    (new : info.fInTried = false) (unused : info.nRefCount = 0) :
    ∃ after found, man.evict hashes place = some after ∧ Linked hashes [nId] 1 after ∧
      after.nKey = man.nKey ∧ after.vvTried place = none ∧
      after.mapInfo[nId]? = some found ∧ found.unplaced = info.unplaced := by
  cases held : man.vvTried place with
  | none =>
      refine ⟨man, info, ?_, linked, rfl, held, present, rfl⟩
      rw [CAddrMan.evict, held]
  | some nIdEvict =>
      obtain ⟨infoOld, stored, tried, _⟩ := (linked.triedSlot place nIdEvict).mp held
      have different : nIdEvict ≠ nId := by
        rintro rfl
        rw [stored] at present
        cases present
        rw [new] at tried
        contradiction
      have ranged := linked.ranged nIdEvict infoOld stored (by simpa using different)
      have demoted := linked.demote held
      have storedDemoted : (man.demote place nIdEvict).mapInfo[nIdEvict]? =
          some { infoOld with fInTried := false } := modifyInfo_self stored
      have presentDemoted : (man.demote place nIdEvict).mapInfo[nId]? = some info :=
        (modifyInfo_of_ne different.symm).trans present
      -- neither entry is in a new slot, so `ClearNew` meets a third one
      have freeOld := demoted.toSlotted.free storedDemoted (ranged.tried tried).1
      have freeNew := demoted.toSlotted.free presentDemoted unused
      obtain ⟨cleared, returned, linkedCleared, table, frame⟩ :=
        demoted.clearNew (hashes.newSlot man.nKey infoOld.toCService infoOld.source)
          fun id holds => by
            rw [List.mem_cons, List.mem_singleton]
            rintro (rfl | rfl)
            · exact freeOld _ holds
            · exact freeNew _ holds
      obtain ⟨entryOld, storedCleared, sameOld⟩ := frame.entry storedDemoted (freeOld _)
      obtain ⟨entryNew, presentCleared, sameNew⟩ := frame.entry presentDemoted (freeNew _)
      have fieldsOld : entryOld.fInTried = false ∧ entryOld.nRefCount = 0 ∧
          entryOld.toCService = infoOld.toCService := by
        refine ⟨?_, ?_, ?_⟩
        · exact congrArg CAddrInfo.fInTried sameOld
        · exact (congrArg CAddrInfo.nRefCount sameOld).trans (ranged.tried tried).1
        · show entryOld.unplaced.toCService = _
          rw [sameOld]
          rfl
      have emptied : cleared.vvNew (hashes.newSlot man.nKey infoOld.toCService infoOld.source) =
          none := by
        rw [table, Function.update_self]
      have sameKey : cleared.nKey = man.nKey := frame.nKey
      have entered := linkedCleared.occupy (fun info => { info with nRefCount := 1 })
        emptied storedCleared (by rw [fieldsOld.2.2, sameKey]; rfl)
        (by rw [fieldsOld.2.1]; rfl)
      have storedEntered : (cleared.occupy (hashes.newSlot man.nKey infoOld.toCService
          infoOld.source) nIdEvict fun info => { info with nRefCount := 1 }).mapInfo[nIdEvict]? =
          some { entryOld with nRefCount := 1 } := modifyInfo_self storedCleared
      have rangedOld : CAddrInfo.Ranged { entryOld with nRefCount := 1 } := by
        constructor
        · intro stillTried
          rw [fieldsOld.1] at stillTried
          contradiction
        · intro _
          exact ⟨le_refl 1, (by decide : (1 : Int) ≤ ADDRMAN_NEW_BUCKETS_PER_ADDRESS)⟩
      have rangedEntered : ∀ info, (cleared.occupy (hashes.newSlot man.nKey infoOld.toCService
          infoOld.source) nIdEvict fun info => { info with nRefCount := 1 }).mapInfo[nIdEvict]? =
          some info → info.Ranged := by
        intro info known
        rw [storedEntered] at known
        cases known
        exact rangedOld
      refine ⟨_, entryNew, ?_, ((entered.count 1).tighten rangedEntered).tighten rangedEntered,
        sameKey, ?_, ?_, sameNew⟩
      · rw [CAddrMan.evict, held]
        simp only [stored, Option.bind_eq_bind, Option.bind_some, returned, emptied]
        rfl
      · show cleared.vvTried place = none
        rw [frame.vvTried]
        exact Function.update_self ..
      · exact (modifyInfo_of_ne different.symm).trans presentCleared

/-- What the loop of `MakeTried` keeps, once the buckets of `left` are done. -/
structure Leaving (hashes : AddrHashes) (nId : Nat) (info : CAddrInfo)
    (left : Fin ADDRMAN_NEW_BUCKET_COUNT → Prop) (before man : CAddrMan) : Prop where
  linked : Linked hashes [nId] 0 man
  nKey : man.nKey = before.nKey
  entry : ∃ found, man.mapInfo[nId]? = some found ∧
    found.fInTried = info.fInTried ∧ found.nLastSuccess = info.nLastSuccess ∧
    found.toCService = info.toCService
  left : ∀ bucket, left bucket →
    man.vvNew (hashes.slotIn before.nKey info.toCService bucket) ≠ some nId

theorem Leaving.step {before : CAddrMan} {left : Fin ADDRMAN_NEW_BUCKET_COUNT → Prop}
    (leaving : Leaving hashes nId info left before man) (bucket : Fin ADDRMAN_NEW_BUCKET_COUNT) :
    Leaving hashes nId info (fun other => other = bucket ∨ left other) before
      (man.leaveBucket hashes nId bucket) := by
  obtain ⟨found, present, tried, success, service⟩ := leaving.entry
  have unfolded : man.leaveBucket hashes nId bucket =
      if man.vvNew (hashes.slotIn before.nKey info.toCService bucket) = some nId then
        man.release (hashes.slotIn before.nKey info.toCService bucket) nId
      else man := by
    simp only [leaveBucket, present, leaving.nKey, service]
  rw [unfolded]
  split_ifs with held
  · refine ⟨(leaving.linked.release held).once, leaving.nKey, ⟨_, modifyInfo_self present, tried,
      success, service⟩, fun other done => ?_⟩
    show Function.update man.vvNew _ none _ ≠ some nId
    rw [Function.update_apply]
    split_ifs with here
    · exact Option.some_ne_none _ |>.symm
    · rcases done with rfl | done
      · exact absurd rfl here
      · exact leaving.left other done
  · refine ⟨leaving.linked, leaving.nKey, leaving.entry, fun other done => ?_⟩
    rcases done with rfl | done
    · exact held
    · exact leaving.left other done

theorem Leaving.foldl {before : CAddrMan} {left : Fin ADDRMAN_NEW_BUCKET_COUNT → Prop}
    (buckets : List (Fin ADDRMAN_NEW_BUCKET_COUNT))
    (leaving : Leaving hashes nId info left before man) :
    Leaving hashes nId info (fun other => other ∈ buckets ∨ left other) before
      (buckets.foldl (leaveBucket hashes nId) man) := by
  induction buckets generalizing man left with
  | nil =>
      refine ⟨leaving.linked, leaving.nKey, leaving.entry, fun other done => ?_⟩
      rcases done with member | done
      · contradiction
      · exact leaving.left other done
  | cons bucket buckets ih =>
      have rest := ih (leaving.step bucket)
      refine ⟨rest.linked, rest.nKey, rest.entry, fun other done => rest.left other ?_⟩
      rcases done with member | done
      · rcases List.mem_cons.mp member with here | member
        · exact Or.inr (Or.inl here)
        · exact Or.inl member
      · exact Or.inr (Or.inr done)

/-- After the loop of `MakeTried` the entry is in no slot. -/
theorem Linked.leaveBuckets (linked : Linked hashes [nId] 0 man)
    (present : man.mapInfo[nId]? = some info) :
    ∃ found, Linked hashes [nId] 0 (man.leaveBuckets hashes nId) ∧
      (man.leaveBuckets hashes nId).mapInfo[nId]? = some found ∧
      found.fInTried = info.fInTried ∧ found.nLastSuccess = info.nLastSuccess ∧
      found.nRefCount = 0 := by
  have start : Leaving hashes nId info (fun _ => False) man man :=
    ⟨linked, rfl, ⟨info, present, rfl, rfl, rfl⟩, fun _ impossible => absurd impossible id⟩
  have done : Leaving hashes nId info (fun _ => True) man (man.leaveBuckets hashes nId) := by
    rw [CAddrMan.leaveBuckets]
    have every := List.mem_finRange (n := ADDRMAN_NEW_BUCKET_COUNT)
    generalize List.finRange ADDRMAN_NEW_BUCKET_COUNT = buckets at every ⊢
    have rest := start.foldl buckets
    exact ⟨rest.linked, rest.nKey, rest.entry, fun other _ => rest.left other (Or.inl (every other))⟩
  generalize man.leaveBuckets hashes nId = after at done ⊢
  obtain ⟨found, stored, tried, success, service⟩ := done.entry
  refine ⟨found, done.linked, stored, tried, success, ?_⟩
  have nowhere : occupied after.vvNew nId = ∅ := by
    rw [occupied_eq_empty_iff]
    intro slot held
    obtain ⟨addr, known, standing⟩ := done.linked.newSlot slot nId held
    rw [CAddrMan.service, stored, Option.map_some, service] at known
    cases known
    rw [done.nKey] at standing
    apply done.left slot.1 trivial
    rw [← standing]
    exact held
  rw [done.linked.references nId found stored]
  exact_mod_cast Finset.card_eq_zero.mpr nowhere

/-- The part of `MakeTried` behind the loop succeeds. -/
theorem Linked.enterTried (linked : Linked hashes [nId] 1 man)
    (present : man.mapInfo[nId]? = some info) (new : info.fInTried = false)
    (unused : info.nRefCount = 0) (success : 0 < info.nLastSuccess) :
    ∃ after, man.enterTried hashes nId = some after ∧ Linked hashes [] 0 after := by
  obtain ⟨evicted, found, returned, linkedEvicted, sameKey, free, presentEvicted, same⟩ :=
    linked.evict (hashes.triedSlot man.nKey info.toCService) present new unused
  have fields : found.fInTried = false ∧ found.nRefCount = 0 ∧
      found.nLastSuccess = info.nLastSuccess ∧ found.toCService = info.toCService := by
    refine ⟨?_, ?_, ?_, ?_⟩
    · exact (congrArg CAddrInfo.fInTried same).trans new
    · exact (congrArg CAddrInfo.nRefCount same).trans unused
    · show found.unplaced.nLastSuccess = info.unplaced.nLastSuccess
      rw [same]
    · show found.unplaced.toCService = info.unplaced.toCService
      rw [same]
  have promoted := linkedEvicted.promote free presentEvicted fields.1 (by
    rw [fields.2.2.2, sameKey])
  have stored : (evicted.promote (hashes.triedSlot man.nKey info.toCService)
      nId).mapInfo[nId]? = some { found with fInTried := true } := modifyInfo_self presentEvicted
  have ranged : ∀ info', (evicted.promote (hashes.triedSlot man.nKey info.toCService)
      nId).mapInfo[nId]? = some info' → info'.Ranged := by
    intro entry known
    rw [stored] at known
    cases known
    constructor
    · intro _
      exact ⟨fields.2.1, lt_of_lt_of_eq success fields.2.2.1.symm⟩
    · intro impossible
      contradiction
  refine ⟨_, ?_, (promoted.tighten ranged).tighten ranged⟩
  rw [CAddrMan.enterTried]
  simp only [present, Option.bind_eq_bind, Option.bind_some, unused, returned, free]
  rfl

theorem Linked.makeTried (linked : Linked hashes [] 0 man)
    (present : man.mapInfo[nId]? = some info) (new : info.fInTried = false)
    (success : 0 < info.nLastSuccess) :
    ∃ after, man.makeTried hashes nId = some after ∧ Linked hashes [] 0 after := by
  obtain ⟨left, linkedLeft, presentLeft, triedLeft, successLeft, unused⟩ :=
    (linked.loosen nId).leaveBuckets present
  have entered : ∀ before : CAddrMan, Linked hashes [nId] 0 before →
      before.mapInfo[nId]? = some left → ∃ after,
        CAddrMan.enterTried hashes nId { before with nNew := before.nNew - 1 } = some after ∧
          Linked hashes [] 0 after := by
    intro before linkedBefore presentBefore
    have counted := linkedBefore.count (-1)
    rw [← sub_eq_add_neg] at counted
    exact counted.enterTried presentBefore (triedLeft.trans new) unused
      (lt_of_lt_of_eq success successLeft.symm)
  exact entered _ linkedLeft presentLeft

end MakeTried

/-- An entry below the limit takes one slot more, or goes if it has none. -/
theorem Linked.enterNew (linked : Linked hashes [nId] 0 man)
    (present : man.mapInfo[nId]? = some info) (new : info.fInTried = false)
    (room : info.nRefCount < ADDRMAN_NEW_BUCKETS_PER_ADDRESS) (source : CNetAddr) (nLater : Int) :
    ∃ after, man.enterNew hashes source nLater nId = some after ∧ Linked hashes [] 0 after := by
  have counted : 0 ≤ info.nRefCount := by
    rw [linked.references nId info present]
    exact Int.natCast_nonneg _
  have rangedIf : info.nRefCount ≠ 0 → Linked hashes [] 0 man := by
    intro used
    apply linked.tighten
    intro other known
    rw [present] at known
    cases known
    refine ⟨fun tried => ?_, fun _ => ⟨?_, ?_⟩⟩
    · rw [new] at tried
      contradiction
    · omega
    · exact le_of_lt room
  rw [CAddrMan.enterNew]
  simp only [present, Option.bind_eq_bind, Option.bind_some]
  generalize isSlot : hashes.newSlot man.nKey info.toCService source = slot
  have standing : slot = hashes.slotIn man.nKey info.toCService slot.1 := by
    rw [← isSlot]
    rfl
  by_cases held : man.vvNew slot = some nId
  · have referenced := linked.toSlotted.referenced present held
    rw [if_pos held]
    exact ⟨man, rfl, rangedIf (by omega)⟩
  · rw [if_neg held]
    obtain ⟨fInsert, decided⟩ : ∃ fInsert, man.mayInsert slot nLater info = some fInsert := by
      rw [mayInsert]
      cases occupant : man.vvNew slot with
      | none => exact ⟨true, rfl⟩
      | some nIdExisting =>
          obtain ⟨_, known, _⟩ := linked.newSlot slot nIdExisting occupant
          obtain ⟨infoExisting, stored, _⟩ := Option.map_eq_some_iff.mp known
          simp only [stored, Option.bind_eq_bind, Option.bind_some]
          exact ⟨_, rfl⟩
    rw [decided, Option.bind_some]
    cases fInsert with
    | true =>
        obtain ⟨cleared, returned, linkedCleared, table, frame⟩ :=
          linked.clearNew slot fun id holds member => by
            rw [List.mem_singleton] at member
            rw [member] at holds
            exact held holds
        obtain ⟨found, stored, same⟩ := frame.entry present held
        have fields : found.fInTried = false ∧ found.nRefCount = info.nRefCount ∧
            found.toCService = info.toCService := by
          refine ⟨?_, ?_, ?_⟩
          · exact (congrArg CAddrInfo.fInTried same).trans new
          · show found.unplaced.nRefCount = info.unplaced.nRefCount
            rw [same]
          · show found.unplaced.toCService = info.unplaced.toCService
            rw [same]
        have entered := linkedCleared.occupy
          (fun info => { info with nRefCount := info.nRefCount + 1 })
          (by rw [table, Function.update_self]) stored
          (by rw [fields.2.2, frame.nKey]; exact standing) rfl
        have storedEntered : (cleared.occupy slot nId fun info =>
            { info with nRefCount := info.nRefCount + 1 }).mapInfo[nId]? =
              some { found with nRefCount := found.nRefCount + 1 } := modifyInfo_self stored
        refine ⟨cleared.occupy slot nId fun info =>
          { info with nRefCount := info.nRefCount + 1 }, ?_, entered.once.tighten fun other known => ?_⟩
        · rw [if_pos rfl, returned, Option.bind_some]
        · rw [storedEntered] at known
          cases known
          refine ⟨fun tried => ?_, fun _ => ⟨?_, ?_⟩⟩
          · rw [fields.1] at tried
            contradiction
          · show 1 ≤ found.nRefCount + 1
            rw [fields.2.1]
            omega
          · show found.nRefCount + 1 ≤ _
            rw [fields.2.1]
            omega
    | false =>
        rw [if_neg Bool.false_ne_true]
        split_ifs with unused
        · obtain ⟨after, returned, deleted, gone, _, _⟩ := linked.delete present new unused
          refine ⟨after, returned, deleted.tighten fun other known => ?_⟩
          rw [gone] at known
          contradiction
        · exact ⟨man, rfl, rangedIf unused⟩

end CAddrMan

end Lycancoin
