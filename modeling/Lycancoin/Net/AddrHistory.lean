import Lycancoin.Net.AddrTables

namespace Lycancoin

open Lycancoin.Data

/-- What an entry remembers of the attempts to reach it. -/
def CAddrInfo.history (info : CAddrInfo) : Int × Int × Int :=
  (info.nLastTry, info.nLastSuccess, info.nAttempts)

namespace CAddrMan

variable {hashes : AddrHashes} {man next after : CAddrMan} {nId : Nat}
  {slot : Slot ADDRMAN_NEW_BUCKET_COUNT} {place : Slot ADDRMAN_TRIED_BUCKET_COUNT}

/-- No entry is new, and each one left remembers what it did. -/
structure Inherits (man after : CAddrMan) : Prop where
  nKey : after.nKey = man.nKey
  nIdCount : after.nIdCount = man.nIdCount
  entries : ∀ (id : Nat) (found : CAddrInfo), after.mapInfo[id]? = some found →
    ∃ info, man.mapInfo[id]? = some info ∧ found.history = info.history

namespace Inherits

theorem refl (man : CAddrMan) : Inherits man man :=
  ⟨rfl, rfl, fun _ found present => ⟨found, present, rfl⟩⟩

theorem trans (first : Inherits man next) (second : Inherits next after) : Inherits man after := by
  refine ⟨second.nKey.trans first.nKey, second.nIdCount.trans first.nIdCount, ?_⟩
  intro id found present
  obtain ⟨middle, stored, sameSecond⟩ := second.entries id found present
  obtain ⟨info, known, sameFirst⟩ := first.entries id middle stored
  exact ⟨info, known, sameSecond.trans sameFirst⟩

theorem modifyInfo (nId : Nat) (edit : CAddrInfo → CAddrInfo) (man : CAddrMan)
    (keeps : ∀ info, (edit info).history = info.history) :
    Inherits man (man.modifyInfo nId edit) := by
  refine ⟨rfl, rfl, fun id found present => ?_⟩
  rcases of_modifyInfo present with ⟨rfl, info, before, rfl⟩ | ⟨_, before⟩
  · exact ⟨info, before, keeps info⟩
  · exact ⟨found, before, rfl⟩

theorem release (slot : Slot ADDRMAN_NEW_BUCKET_COUNT) (nId : Nat) (man : CAddrMan) :
    Inherits man (man.release slot nId) := by
  have kept := modifyInfo nId (fun info => { info with nRefCount := info.nRefCount - 1 }) man
    fun _ => rfl
  exact ⟨kept.nKey, kept.nIdCount, kept.entries⟩

theorem occupy (slot : Slot ADDRMAN_NEW_BUCKET_COUNT) (nId : Nat) (edit : CAddrInfo → CAddrInfo)
    (man : CAddrMan) (keeps : ∀ info, (edit info).history = info.history) :
    Inherits man (man.occupy slot nId edit) := by
  have kept := modifyInfo nId edit man keeps
  exact ⟨kept.nKey, kept.nIdCount, kept.entries⟩

theorem demote (place : Slot ADDRMAN_TRIED_BUCKET_COUNT) (nId : Nat) (man : CAddrMan) :
    Inherits man (man.demote place nId) := by
  have kept := modifyInfo nId (fun info => { info with fInTried := false }) man fun _ => rfl
  exact ⟨kept.nKey, kept.nIdCount, kept.entries⟩

theorem promote (place : Slot ADDRMAN_TRIED_BUCKET_COUNT) (nId : Nat) (man : CAddrMan) :
    Inherits man (man.promote place nId) := by
  have kept := modifyInfo nId (fun info => { info with fInTried := true }) man fun _ => rfl
  exact ⟨kept.nKey, kept.nIdCount, kept.entries⟩

theorem swapRandom {nRndPos1 nRndPos2 : Nat}
    (returned : man.swapRandom nRndPos1 nRndPos2 = some after) : Inherits man after := by
  rw [CAddrMan.swapRandom] at returned
  split at returned
  · cases returned
    exact refl man
  · obtain ⟨nId1, _, returned⟩ := Option.bind_eq_some_iff.mp returned
    obtain ⟨nId2, _, returned⟩ := Option.bind_eq_some_iff.mp returned
    obtain ⟨info1, present1, returned⟩ := Option.bind_eq_some_iff.mp returned
    obtain ⟨info2, present2, returned⟩ := Option.bind_eq_some_iff.mp returned
    cases returned
    refine ⟨rfl, rfl, fun id found present => ?_⟩
    dsimp only at present
    rw [KeyedBatch.getElem?_insert_eq, KeyedBatch.getElem?_insert_eq] at present
    split at present
    · rename_i isSecond
      cases present
      exact ⟨info2, by rw [isSecond, present2], rfl⟩
    · split at present
      · rename_i isFirst
        cases present
        exact ⟨info1, by rw [isFirst, present1], rfl⟩
      · exact ⟨found, present, rfl⟩

theorem delete (returned : man.delete nId = some after) : Inherits man after := by
  obtain ⟨info, _, returned⟩ := Option.bind_eq_some_iff.mp returned
  split at returned
  · contradiction
  · obtain ⟨swapped, swaps, returned⟩ := Option.bind_eq_some_iff.mp returned
    cases returned
    have kept := swapRandom swaps
    refine ⟨kept.nKey, kept.nIdCount, fun id found present => ?_⟩
    dsimp only at present
    rw [KeyedBatch.getElem?_erase_eq] at present
    split at present
    · contradiction
    · exact kept.entries id found present

theorem clearNew (returned : man.clearNew slot = some after) : Inherits man after := by
  rw [CAddrMan.clearNew] at returned
  split at returned
  · cases returned
    exact refl man
  · rename_i nIdDelete held
    obtain ⟨infoDelete, _, returned⟩ := Option.bind_eq_some_iff.mp returned
    have released := release slot nIdDelete man
    split at returned
    · contradiction
    · split at returned
      · exact released.trans (delete returned)
      · cases returned
        exact released

theorem leaveBucket (nId : Nat) (man : CAddrMan) (bucket : Fin ADDRMAN_NEW_BUCKET_COUNT) :
    Inherits man (man.leaveBucket hashes nId bucket) := by
  rw [CAddrMan.leaveBucket]
  split
  · exact refl man
  · dsimp only
    split
    · exact release _ nId man
    · exact refl man

theorem foldl_leaveBucket (buckets : List (Fin ADDRMAN_NEW_BUCKET_COUNT)) (nId : Nat)
    (man : CAddrMan) :
    Inherits man (buckets.foldl (CAddrMan.leaveBucket hashes nId) man) := by
  induction buckets generalizing man with
  | nil => exact refl man
  | cons bucket rest ih => exact (leaveBucket nId man bucket).trans (ih _)

theorem leaveBuckets (nId : Nat) (man : CAddrMan) :
    Inherits man (man.leaveBuckets hashes nId) := by
  rw [CAddrMan.leaveBuckets]
  generalize List.finRange ADDRMAN_NEW_BUCKET_COUNT = buckets
  exact foldl_leaveBucket buckets nId man

theorem evict (returned : man.evict hashes place = some after) : Inherits man after := by
  rw [CAddrMan.evict] at returned
  split at returned
  · cases returned
    exact refl man
  · rename_i nIdEvict held
    obtain ⟨infoOld, _, returned⟩ := Option.bind_eq_some_iff.mp returned
    obtain ⟨cleared, clears, returned⟩ := Option.bind_eq_some_iff.mp returned
    split at returned
    · contradiction
    · cases returned
      have entered := ((demote place nIdEvict man).trans (clearNew clears)).trans
        (occupy (hashes.newSlot man.nKey infoOld.toCService infoOld.source) nIdEvict
          (fun info => { info with nRefCount := 1 }) cleared fun _ => rfl)
      exact ⟨entered.nKey, entered.nIdCount, entered.entries⟩

theorem enterTried (returned : man.enterTried hashes nId = some after) : Inherits man after := by
  obtain ⟨info, _, returned⟩ := Option.bind_eq_some_iff.mp returned
  split at returned
  · contradiction
  · obtain ⟨evicted, evicts, returned⟩ := Option.bind_eq_some_iff.mp returned
    split at returned
    · contradiction
    · cases returned
      exact (evict evicts).trans (promote _ nId evicted)

theorem makeTried (returned : man.makeTried hashes nId = some after) : Inherits man after := by
  have enters : ∀ before : CAddrMan, Inherits man before →
      CAddrMan.enterTried hashes nId { before with nNew := before.nNew - 1 } = some after →
        Inherits man after := by
    intro before left returned
    have entered := enterTried returned
    exact left.trans ⟨entered.nKey, entered.nIdCount, entered.entries⟩
  exact enters _ (leaveBuckets nId man) returned

theorem enterNew {source : CNetAddr} {nLater : Int}
    (returned : man.enterNew hashes source nLater nId = some after) : Inherits man after := by
  obtain ⟨info, _, returned⟩ := Option.bind_eq_some_iff.mp returned
  dsimp only at returned
  split at returned
  · cases returned
    exact refl man
  · obtain ⟨fInsert, _, returned⟩ := Option.bind_eq_some_iff.mp returned
    split at returned
    · obtain ⟨cleared, clears, returned⟩ := Option.bind_eq_some_iff.mp returned
      cases returned
      exact (clearNew clears).trans (occupy _ nId _ cleared fun _ => rfl)
    · split at returned
      · exact delete returned
      · cases returned
        exact refl man

theorem gatherAddr {context : GetAddrContext} {nNodes rounds : Nat} {vAddr gathered : List CAddress}
    (returned : man.gatherAddr context nNodes rounds vAddr = some (gathered, after)) :
    Inherits man after := by
  induction rounds generalizing man vAddr with
  | zero =>
      cases returned
      exact refl _
  | succ rounds ih =>
      rw [CAddrMan.gatherAddr] at returned
      split at returned
      · cases returned
        exact refl _
      · obtain ⟨swapped, swaps, returned⟩ := Option.bind_eq_some_iff.mp returned
        obtain ⟨nId, _, returned⟩ := Option.bind_eq_some_iff.mp returned
        obtain ⟨ai, _, returned⟩ := Option.bind_eq_some_iff.mp returned
        exact (swapRandom swaps).trans (ih returned)

theorem connected (addr : CService) (nTime : Int) (man : CAddrMan) :
    Inherits man (man.connected addr nTime) := by
  rw [CAddrMan.connected]
  split
  · exact refl man
  · split
    · exact refl man
    · dsimp only
      split
      · exact modifyInfo _ _ man fun _ => rfl
      · exact refl man

end Inherits

/-- What a number of calls leaves of counters and times. -/
structure Dated (calls : Nat) (man : CAddrMan) : Prop where
  nIdCount : man.nIdCount ≤ calls
  entries : ∀ (id : Nat) (info : CAddrInfo), man.mapInfo[id]? = some info →
    info.nAttempts ≤ calls ∧ 0 ≤ info.nLastTry ∧ 0 ≤ info.nLastSuccess

theorem Dated.empty (nKey : Uint256) : Dated 0 (empty nKey) where
  nIdCount := Nat.le_refl 0
  entries id info present := by simp [CAddrMan.empty] at present

theorem Dated.inherits {calls : Nat} (dated : Dated calls man) (kept : Inherits man after) :
    Dated calls after := by
  refine ⟨kept.nIdCount.trans_le dated.nIdCount, fun id found present => ?_⟩
  obtain ⟨info, before, same⟩ := kept.entries id found present
  have known := dated.entries id info before
  obtain ⟨tries, others⟩ := Prod.ext_iff.mp same
  obtain ⟨successes, attempts⟩ := Prod.ext_iff.mp others
  dsimp only [CAddrInfo.history] at tries successes attempts
  rwa [tries, successes, attempts]

theorem Dated.later {calls : Nat} (dated : Dated calls man) : Dated (calls + 1) man where
  nIdCount := dated.nIdCount.trans (Nat.le_succ calls)
  entries id info present := by
    obtain ⟨attempts, times⟩ := dated.entries id info present
    exact ⟨by push_cast; omega, times⟩

/-- One call changes the history of one entry at most. -/
theorem Dated.modifyInfo {calls : Nat} (dated : Dated calls man) (nId : Nat)
    (edit : CAddrInfo → CAddrInfo)
    (edited : ∀ info : CAddrInfo,
      info.nAttempts ≤ (calls : Int) ∧ 0 ≤ info.nLastTry ∧ 0 ≤ info.nLastSuccess →
        (edit info).nAttempts ≤ ((calls + 1 : Nat) : Int) ∧ 0 ≤ (edit info).nLastTry ∧
          0 ≤ (edit info).nLastSuccess) :
    Dated (calls + 1) (man.modifyInfo nId edit) := by
  refine ⟨dated.later.nIdCount, fun id found present => ?_⟩
  rcases of_modifyInfo present with ⟨rfl, info, before, rfl⟩ | ⟨_, before⟩
  · exact edited info (dated.entries id info before)
  · exact dated.later.entries id found before

theorem Dated.withEntry {calls : Nat} (dated : Dated calls man) (addr : CAddress)
    (source : CNetAddr) : Dated (calls + 1) (man.withEntry addr source) := by
  refine ⟨Nat.succ_le_succ dated.nIdCount, fun id found present => ?_⟩
  have stored : (man.withEntry addr source).mapInfo[id]? =
      if id = man.nIdCount then some (CAddrInfo.ofAddress addr source man.vRandom.length)
      else man.mapInfo[id]? := KeyedBatch.getElem?_insert_eq ..
  rw [stored] at present
  split at present
  · cases present
    exact ⟨Int.natCast_nonneg _, le_rfl, le_rfl⟩
  · exact dated.later.entries id found present

theorem Dated.add {calls : Nat} {addr : CAddress} {source : CNetAddr} {nTimePenalty : Int}
    {context : AddContext} {fNew : Bool} (dated : Dated calls man)
    (returned : man.add hashes addr source nTimePenalty context = some (fNew, after)) :
    Dated (calls + 1) after ∧ after.nKey = man.nKey := by
  rw [CAddrMan.add] at returned
  split at returned
  · cases returned
    exact ⟨dated.later, rfl⟩
  · split at returned
    · rename_i nId info found
      have refreshed := Inherits.modifyInfo nId (refresh addr nTimePenalty context.nNow) man
        fun _ => rfl
      dsimp only at returned
      split at returned
      · obtain ⟨_, entered, same⟩ := Option.map_eq_some_iff.mp returned
        cases same
        have kept := refreshed.trans (Inherits.enterNew entered)
        exact ⟨(dated.inherits kept).later, kept.nKey⟩
      · cases returned
        exact ⟨(dated.inherits refreshed).later, refreshed.nKey⟩
    · obtain ⟨created, creates, returned⟩ := Option.bind_eq_some_iff.mp returned
      rw [CAddrMan.create] at creates
      split at creates
      · cases creates
        obtain ⟨_, entered, same⟩ := Option.map_eq_some_iff.mp returned
        cases same
        have rest := Inherits.enterNew entered
        have kept := (Inherits.modifyInfo man.nIdCount
          (fun info : CAddrInfo => { info with nTime := penalized info.nTime nTimePenalty })
          (man.withEntry addr source) fun _ => rfl).trans
          ⟨rest.nKey, rest.nIdCount, rest.entries⟩
        exact ⟨(dated.withEntry addr source).inherits kept, kept.nKey⟩
      · contradiction

theorem Dated.good {calls : Nat} {addr : CService} {nTime : Int} {nRnd : Nat}
    (dated : Dated calls man) (positive : 0 < nTime)
    (returned : man.good hashes addr nTime nRnd = some after) :
    Dated (calls + 1) after ∧ after.nKey = man.nKey := by
  rw [CAddrMan.good] at returned
  split at returned
  · cases returned
    exact ⟨dated.later, rfl⟩
  · rename_i nId info found
    have updated := dated.modifyInfo nId
      (fun info => { info with nLastSuccess := nTime, nLastTry := nTime, nAttempts := 0 })
      fun _ _ => ⟨Int.natCast_nonneg _, positive.le, positive.le⟩
    split at returned
    · cases returned
      exact ⟨dated.later, rfl⟩
    · dsimp only at returned
      split at returned
      · cases returned
        exact ⟨updated, rfl⟩
      · split at returned
        · cases returned
          exact ⟨updated, rfl⟩
        · have kept := Inherits.makeTried returned
          exact ⟨updated.inherits kept, kept.nKey⟩

theorem Dated.attempt {calls : Nat} {addr : CService} {nTime : Int} (dated : Dated calls man)
    (nonneg : 0 ≤ nTime) (returned : man.attempt addr nTime = some after) :
    Dated (calls + 1) after ∧ after.nKey = man.nKey := by
  rw [CAddrMan.attempt] at returned
  split at returned
  · cases returned
    exact ⟨dated.later, rfl⟩
  · rename_i nId info found
    split at returned
    · cases returned
      exact ⟨dated.later, rfl⟩
    · split at returned
      · cases returned
        refine ⟨dated.modifyInfo nId _ fun info known => ⟨?_, nonneg, known.2.2⟩, rfl⟩
        push_cast
        exact Int.add_le_add_right known.1 1
      · contradiction

def SoundTimes : AddrCall → Prop
  | .good _ nTime _ => 0 < nTime
  | .attempt _ nTime => 0 ≤ nTime
  | _ => True

end CAddrMan

end Lycancoin
