import Lycancoin.Data.StepRuns
import Lycancoin.Primitives.RoundTrip
import Lycancoin.Wallet.AccountingEntry

namespace Lycancoin

open Std Lycancoin.Data

structure CUnsignedAlert where
  nVersion : Int
  nRelayUntil : Int
  nExpiration : Int
  nID : Int
  nCancel : Int
  setCancel : Finset Int
  nMinVer : Int
  nMaxVer : Int
  setSubVer : Finset StdString
  nPriority : Int
  strComment : StdString
  strStatusBar : StdString
  strReserved : StdString
deriving DecidableEq

/-- `CAlert`: what was signed, and what is read from it. -/
structure CAlert extends CUnsignedAlert where
  vchMsg : List UInt8
  vchSig : List UInt8
deriving DecidableEq

def unserializeSet {α : Type} [DecidableEq α] (unserialize : ByteReader α) :
    ByteReader (Finset α) := do
  let nSize ← readCompactSize
  let keys ← Reader.many unserialize nSize
  pure keys.toFinset

/-- The fields in front of the texts. -/
def CUnsignedAlert.unserializeNumbers : ByteReader CUnsignedAlert := do
  let nVersion ← unserializeInt32
  let nRelayUntil ← unserializeInt64
  let nExpiration ← unserializeInt64
  let nID ← unserializeInt32
  let nCancel ← unserializeInt32
  let setCancel ← unserializeSet unserializeInt32
  let nMinVer ← unserializeInt32
  let nMaxVer ← unserializeInt32
  let setSubVer ← unserializeSet unserializeString
  let nPriority ← unserializeInt32
  pure {
    nVersion, nRelayUntil, nExpiration, nID, nCancel, setCancel, nMinVer, nMaxVer, setSubVer
    nPriority
    strComment := []
    strStatusBar := []
    strReserved := [] }

def CUnsignedAlert.unserialize : RecordReader CUnsignedAlert := do
  let alert ← CUnsignedAlert.unserializeNumbers.mapError .stream
  let strComment ← unserializeLimited 65536
  let strStatusBar ← unserializeLimited 256
  let strReserved ← unserializeLimited 256
  pure { alert with strComment, strStatusBar, strReserved }

/-- `Hash`, and `CPubKey::Verify` with the bytes of a key. -/
structure AlertKeys where
  hash : List UInt8 → Uint256
  verify : List UInt8 → Uint256 → List UInt8 → Bool

/-- `mapAlerts`. -/
abbrev AlertMap := ExtTreeMap Uint256 CAlert

/-- Why `ProcessAlert` returns false, or what it throws. -/
inductive AlertFailure where
  | verifyFailed
  | unreadable (failure : RecordFailure)
  | notInEffect
  | reservedID
  | alreadyCancelled (nID : Int)
deriving DecidableEq, Repr

/-- `std::numeric_limits<int>::max()`. -/
def maxInt : Int := 2 ^ 31 - 1

namespace CAlert

/-- `IsInEffect`, where `now` is `GetAdjustedTime()`. -/
def isInEffect (now : Int) (alert : CAlert) : Bool := decide (now < alert.nExpiration)

def cancels (now : Int) (canceller alert : CAlert) : Bool :=
  if !canceller.isInEffect now then false
  else decide (alert.nID ≤ canceller.nCancel) || decide (alert.nID ∈ canceller.setCancel)

/-- `CheckSignature`, which reads the alert from the message. -/
def checkSignature (keys : AlertKeys) (alertKey vchMsg vchSig : List UInt8) :
    Except AlertFailure CAlert :=
  if !keys.verify alertKey (keys.hash vchMsg) vchSig then .error .verifyFailed
  else
    match CUnsignedAlert.unserialize.run vchMsg with
    | .error failure => .error (.unreadable failure)
    | .ok (alert, _) => .ok { toCUnsignedAlert := alert, vchMsg, vchSig }

/-- What an alert with the largest ID must say. -/
def isKeyCompromised (alert : CAlert) : Bool :=
  decide (alert.nExpiration = maxInt) && decide (alert.nCancel = maxInt - 1) &&
    decide (alert.nMinVer = 0) && decide (alert.nMaxVer = maxInt) &&
    decide (alert.setSubVer = ∅) && decide (alert.nPriority = maxInt) &&
    decide (alert.strStatusBar = stdString "URGENT: Alert key compromised, upgrade required")

def cancelPrevious (now : Int) (alert : CAlert) (mapAlerts : AlertMap) : AlertMap :=
  mapAlerts.filter fun _ previous =>
    if alert.cancels now previous then false else previous.isInEffect now

/-- The loop that looks for an alert by which this one has been cancelled. -/
def cancelledBy (now : Int) (alert : CAlert) (mapAlerts : AlertMap) : Option CAlert :=
  (mapAlerts.toList.find? fun item => item.2.cancels now alert).map Prod.snd

/-- `ProcessAlert` of an alert that was read. -/
def processRead (keys : AlertKeys) (now : Int) (alert : CAlert) (mapAlerts : AlertMap) :
    AlertMap × Except AlertFailure Unit :=
  if !alert.isInEffect now then (mapAlerts, .error .notInEffect)
  else if alert.nID = maxInt ∧ alert.isKeyCompromised = false then (mapAlerts, .error .reservedID)
  else
    let mapAlerts := alert.cancelPrevious now mapAlerts
    match alert.cancelledBy now mapAlerts with
    | some canceller => (mapAlerts, .error (.alreadyCancelled canceller.nID))
    | none => (mapAlerts.insertIfNew (keys.hash alert.vchMsg) alert, .ok ())

def processAlert (keys : AlertKeys) (alertKey vchMsg vchSig : List UInt8) (now : Int)
    (mapAlerts : AlertMap) : AlertMap × Except AlertFailure Unit :=
  match checkSignature keys alertKey vchMsg vchSig with
  | .error failure => (mapAlerts, .error failure)
  | .ok alert => alert.processRead keys now mapAlerts

end CAlert

structure AlertCall where
  vchMsg : List UInt8
  vchSig : List UInt8
  now : Int

namespace AlertCall

open CAlert

variable (keys : AlertKeys) (alertKey : List UInt8)

def call (mapAlerts : AlertMap) (arrival : AlertCall) : Option AlertMap :=
  some (processAlert keys alertKey arrival.vchMsg arrival.vchSig arrival.now mapAlerts).1

/-- An alert that turns out to be cancelled takes away no more than the time did. -/
def Spares (mapAlerts : AlertMap) (arrival : AlertCall) : Prop :=
  ∀ after nID, processAlert keys alertKey arrival.vchMsg arrival.vchSig arrival.now mapAlerts =
      (after, .error (.alreadyCancelled nID)) →
    after = mapAlerts.filter fun _ alert => alert.isInEffect arrival.now

/-- An alert that may be processed, and that an alert of the map cancels which it does not itself
cancel, cancels no alert of the map. -/
def Harmless (mapAlerts : AlertMap) (arrival : AlertCall) : Prop :=
  ∀ alert, checkSignature keys alertKey arrival.vchMsg arrival.vchSig = .ok alert →
    (alert.nID = maxInt → alert.isKeyCompromised = true) →
    (∃ (hash : Uint256) (canceller : CAlert), mapAlerts[hash]? = some canceller ∧
      canceller.cancels arrival.now alert = true ∧ alert.cancels arrival.now canceller = false) →
    ∀ (hash : Uint256) (previous : CAlert), mapAlerts[hash]? = some previous →
      previous.isInEffect arrival.now = true → alert.cancels arrival.now previous = false

end AlertCall

section Process

open CAlert

variable {keys : AlertKeys} {alertKey : List UInt8} {now : Int} {alert : CAlert}
  {mapAlerts : AlertMap}

theorem CAlert.isInEffect_of_cancels {canceller : CAlert}
    (cancels : canceller.cancels now alert = true) : canceller.isInEffect now = true := by
  unfold CAlert.cancels at cancels
  cases inEffect : canceller.isInEffect now with
  | true => rfl
  | false => simp [inEffect] at cancels

theorem CAlert.getElem?_cancelPrevious (hash : Uint256) :
    (alert.cancelPrevious now mapAlerts)[hash]? = mapAlerts[hash]?.filter fun previous =>
      !alert.cancels now previous && previous.isInEffect now := by
  rw [cancelPrevious, ExtTreeMap.getElem?_filter']
  congr 1
  funext previous
  cases alert.cancels now previous <;> rfl

theorem CAlert.cancelledBy_cancelPrevious :
    (∃ canceller, alert.cancelledBy now (alert.cancelPrevious now mapAlerts) = some canceller) ↔
      ∃ (hash : Uint256) (canceller : CAlert), mapAlerts[hash]? = some canceller ∧
        canceller.cancels now alert = true ∧ alert.cancels now canceller = false := by
  constructor
  · intro ⟨canceller, found⟩
    obtain ⟨⟨hash, canceller⟩, search, rfl⟩ := Option.map_eq_some_iff.mp found
    have cancels := List.find?_some search
    have member := ExtTreeMap.mem_toList_iff_getElem?_eq_some.mp (List.mem_of_find?_eq_some search)
    rw [getElem?_cancelPrevious, Option.filter_eq_some_iff] at member
    exact ⟨hash, canceller, member.1, cancels, by simpa using (Bool.and_eq_true_iff.mp member.2).1⟩
  · intro ⟨hash, canceller, stored, cancels, spared⟩
    have kept : (alert.cancelPrevious now mapAlerts)[hash]? = some canceller := by
      rw [getElem?_cancelPrevious, stored]
      simp [spared, isInEffect_of_cancels cancels]
    have listed := ExtTreeMap.mem_toList_iff_getElem?_eq_some.mpr kept
    cases search : (alert.cancelPrevious now mapAlerts).toList.find? fun item =>
        item.2.cancels now alert with
    | none => exact absurd cancels (List.find?_eq_none.mp search _ listed)
    | some item => exact ⟨item.2, by rw [cancelledBy, search]; rfl⟩

/-- What is left after the loop is what is in effect, if nothing in effect was cancelled. -/
theorem CAlert.cancelPrevious_eq_iff :
    (alert.cancelPrevious now mapAlerts = mapAlerts.filter fun _ previous =>
      previous.isInEffect now) ↔
    ∀ (hash : Uint256) (previous : CAlert), mapAlerts[hash]? = some previous →
      previous.isInEffect now = true →
      alert.cancels now previous = false := by
  constructor
  · intro same hash previous stored inEffect
    have entry := congrArg (fun map => map[hash]?) same
    simp only [getElem?_cancelPrevious, ExtTreeMap.getElem?_filter', stored] at entry
    simpa [inEffect, Option.filter] using entry
  · intro spared
    apply ExtTreeMap.ext_getElem?
    intro hash
    rw [getElem?_cancelPrevious, ExtTreeMap.getElem?_filter']
    cases stored : mapAlerts[hash]? with
    | none => rfl
    | some previous =>
        cases inEffect : previous.isInEffect now with
        | false => simp [Option.filter, inEffect]
        | true => simp [Option.filter, inEffect, spared hash previous stored inEffect]

theorem CAlert.processRead_eq_alreadyCancelled {after : AlertMap} {nID : Int} :
    alert.processRead keys now mapAlerts = (after, .error (.alreadyCancelled nID)) ↔
      alert.isInEffect now = true ∧ (alert.nID = maxInt → alert.isKeyCompromised = true) ∧
        after = alert.cancelPrevious now mapAlerts ∧ ∃ canceller,
          alert.cancelledBy now (alert.cancelPrevious now mapAlerts) = some canceller ∧
            nID = canceller.nID := by
  unfold processRead
  cases inEffect : alert.isInEffect now with
  | false => simp
  | true =>
      by_cases reserved : alert.nID = maxInt ∧ alert.isKeyCompromised = false
      · simp [reserved]
      · have allowed : alert.nID = maxInt → alert.isKeyCompromised = true := by
          intro largest
          simpa [largest] using reserved
        rw [if_neg (by simp), if_neg reserved]
        simp only
        cases search : alert.cancelledBy now (alert.cancelPrevious now mapAlerts) with
        | none => simp
        | some canceller =>
            simp only [Prod.mk.injEq, Except.error.injEq, AlertFailure.alreadyCancelled.injEq,
              Option.some.injEq, exists_eq_left', true_and]
            constructor
            · intro ⟨map, id⟩
              exact ⟨allowed, map.symm, id.symm⟩
            · intro ⟨_, map, id⟩
              exact ⟨map.symm, id.symm⟩

theorem CAlert.checkSignature_ne_alreadyCancelled {vchMsg vchSig : List UInt8}
    {failure : AlertFailure} (read : checkSignature keys alertKey vchMsg vchSig = .error failure)
    (nID : Int) : failure ≠ .alreadyCancelled nID := by
  intro cancelled
  rw [cancelled] at read
  unfold checkSignature at read
  split at read
  · cases read
  · split at read <;> cases read

theorem AlertCall.spares_iff_harmless (arrival : AlertCall) :
    Spares keys alertKey mapAlerts arrival ↔ Harmless keys alertKey mapAlerts arrival := by
  unfold Spares Harmless processAlert
  cases read : checkSignature keys alertKey arrival.vchMsg arrival.vchSig with
  | error failure =>
      constructor
      · intro _ alert contradicted
        cases contradicted
      · intro _ after nID rejected
        exact absurd (Except.error.inj (congrArg Prod.snd rejected))
          (checkSignature_ne_alreadyCancelled read nID)
  | ok alert =>
      simp only [processRead_eq_alreadyCancelled, Except.ok.injEq, forall_eq']
      constructor
      · intro spares allowed cancelled
        cases inEffect : alert.isInEffect arrival.now with
        | false =>
            intro hash previous _ _
            simp [cancels, inEffect]
        | true =>
            obtain ⟨canceller, found⟩ := cancelledBy_cancelPrevious.mpr cancelled
            exact cancelPrevious_eq_iff.mp
              (spares _ canceller.nID ⟨inEffect, allowed, rfl, canceller, found, rfl⟩)
      · intro harmless after nID ⟨_, allowed, isAfter, canceller, found, _⟩
        rw [isAfter, cancelPrevious_eq_iff]
        exact harmless allowed (cancelledBy_cancelPrevious.mp ⟨canceller, found⟩)

/-- In any run from an empty map, no alert that turns out to be cancelled removes one that is in
effect just where each such alert cancels none. -/
theorem processAlert_exact (keys : AlertKeys) (alertKey : List UInt8) (calls : List AlertCall) :
    StepRuns.Each (AlertCall.call keys alertKey) (AlertCall.Spares keys alertKey) calls ∅ ↔
      StepRuns.Each (AlertCall.call keys alertKey)
        (AlertCall.Harmless keys alertKey) calls ∅ :=
  @StepRuns.each_iff_each _ _ _ (fun _ => True) _ _
    (fun _ arrival _ => AlertCall.spares_iff_harmless arrival) (fun _ _ _ _ _ _ => trivial) _ _ trivial

end Process

/-- An alert that cancels one other by its ID, and that never expires. -/
def cancellingMessage (nID cancelled : UInt8) : List UInt8 :=
  [1, 0, 0, 0] ++ [0, 0, 0, 0, 0, 0, 0, 0] ++ [255, 255, 255, 255, 255, 255, 255, 127] ++
    [nID, 0, 0, 0] ++ [0, 0, 0, 0] ++ [1, cancelled, 0, 0, 0] ++ [0, 0, 0, 0] ++
    [255, 255, 255, 127] ++ [0] ++ [0, 0, 0, 0] ++ [0] ++ [0] ++ [0]

/-- Every signature is good, and the hash of a message is its number. -/
def plainAlertKeys : AlertKeys where
  hash := fun bytes => ⟨BitVec.ofNat 256 (littleEndian (bytes.drop 20))⟩
  verify := fun _ _ _ => true

/-- Alert 2 is cancelled by alert 3, and yet it takes away alert 1. -/
theorem cancelled_alert_cancels :
    ∃ mapAlerts after : AlertMap,
      StepRuns.finish (AlertCall.call plainAlertKeys []) [⟨cancellingMessage 1 0, [], 1000⟩,
        ⟨cancellingMessage 3 2, [], 1000⟩] ∅ = some mapAlerts ∧
      CAlert.processAlert plainAlertKeys [] (cancellingMessage 2 1) [] 1000 mapAlerts =
        (after, .error (.alreadyCancelled 3)) ∧
      mapAlerts[plainAlertKeys.hash (cancellingMessage 1 0)]?.any (·.isInEffect 1000) = true ∧
      after[plainAlertKeys.hash (cancellingMessage 1 0)]? = none := by
  refine ⟨_, _, rfl, Prod.ext rfl ?_, ?_, ?_⟩
  · decide +kernel
  · decide +kernel
  · decide +kernel

/-- The alert is one of those that the other cancels while it is in effect. -/
def CAlert.Covers (canceller alert : CAlert) : Prop :=
  alert.nID ≤ canceller.nCancel ∨ alert.nID ∈ canceller.setCancel

/-- The alert that the signing key was compromised. -/
def CAlert.IsReserved (alert : CAlert) : Prop :=
  alert.nID = maxInt ∧ alert.isKeyCompromised = true

/-- The alerts of the map are not cancelled by each other, and those of the largest ID are of the
reserved form. -/
structure AlertMap.Settled (mapAlerts : AlertMap) : Prop where
  apart : ∀ (first second : Uint256) (canceller alert : CAlert),
    mapAlerts[first]? = some canceller → mapAlerts[second]? = some alert → first ≠ second →
      ¬canceller.Covers alert
  reserved : ∀ (hash : Uint256) (alert : CAlert), mapAlerts[hash]? = some alert →
    alert.nID = maxInt → alert.isKeyCompromised = true
  range : ∀ (hash : Uint256) (alert : CAlert), mapAlerts[hash]? = some alert →
    alert.nID ≤ maxInt

namespace CAlert

variable {keys : AlertKeys} {alertKey vchMsg vchSig : List UInt8} {now : Int}
  {alert canceller : CAlert} {mapAlerts : AlertMap}

theorem cancels_iff : canceller.cancels now alert = true ↔
    canceller.isInEffect now = true ∧ canceller.Covers alert := by
  unfold cancels Covers
  cases canceller.isInEffect now <;> simp

theorem unserialize_nID {stream rest : List UInt8} {read : CUnsignedAlert}
    (reads : CUnsignedAlert.unserialize.run stream = .ok (read, rest)) : InInt32 read.nID := by
  unfold CUnsignedAlert.unserialize at reads
  obtain ⟨numbers, _, first, reads⟩ := Reader.run_bind_eq_ok.mp reads
  obtain ⟨_, _, _, reads⟩ := Reader.run_bind_eq_ok.mp reads
  obtain ⟨_, _, _, reads⟩ := Reader.run_bind_eq_ok.mp reads
  obtain ⟨_, _, _, reads⟩ := Reader.run_bind_eq_ok.mp reads
  obtain ⟨rfl, -⟩ := Reader.run_pure_eq_ok.mp reads
  have numbers := Reader.run_mapError_eq_ok.mp first
  unfold CUnsignedAlert.unserializeNumbers at numbers
  obtain ⟨_, _, _, numbers⟩ := Reader.run_bind_eq_ok.mp numbers
  obtain ⟨_, _, _, numbers⟩ := Reader.run_bind_eq_ok.mp numbers
  obtain ⟨_, _, _, numbers⟩ := Reader.run_bind_eq_ok.mp numbers
  obtain ⟨nID, _, isID, numbers⟩ := Reader.run_bind_eq_ok.mp numbers
  obtain ⟨-, range⟩ := inverse_unserializeInt32.accepts _ _ _ isID
  obtain ⟨_, _, _, numbers⟩ := Reader.run_bind_eq_ok.mp numbers
  obtain ⟨_, _, _, numbers⟩ := Reader.run_bind_eq_ok.mp numbers
  obtain ⟨_, _, _, numbers⟩ := Reader.run_bind_eq_ok.mp numbers
  obtain ⟨_, _, _, numbers⟩ := Reader.run_bind_eq_ok.mp numbers
  obtain ⟨_, _, _, numbers⟩ := Reader.run_bind_eq_ok.mp numbers
  obtain ⟨_, _, _, numbers⟩ := Reader.run_bind_eq_ok.mp numbers
  obtain ⟨rfl, -⟩ := Reader.run_pure_eq_ok.mp numbers
  exact range

theorem checkSignature_nID
    (read : checkSignature keys alertKey vchMsg vchSig = .ok alert) : alert.nID ≤ maxInt := by
  unfold checkSignature at read
  split at read
  · cases read
  · split at read
    · cases read
    · rename_i reads
      cases read
      have range := unserialize_nID reads
      exact Int.le_sub_one_of_lt range.2

theorem mem_cancelPrevious {hash : Uint256} {previous : CAlert} (inEffect : alert.isInEffect now = true)
    (kept : (alert.cancelPrevious now mapAlerts)[hash]? = some previous) :
    mapAlerts[hash]? = some previous ∧ previous.isInEffect now = true ∧ ¬alert.Covers previous := by
  rw [getElem?_cancelPrevious, Option.filter_eq_some_iff] at kept
  obtain ⟨stored, spared⟩ := kept
  simp only [Bool.and_eq_true, Bool.not_eq_true', ← Bool.not_eq_true, cancels_iff] at spared
  exact ⟨stored, spared.2, fun covers => spared.1 ⟨inEffect, covers⟩⟩

theorem not_covers_of_cancelledBy {hash : Uint256} {previous : CAlert}
    (none : alert.cancelledBy now mapAlerts = none) (stored : mapAlerts[hash]? = some previous)
    (inEffect : previous.isInEffect now = true) : ¬previous.Covers alert := by
  rw [cancelledBy, Option.map_eq_none_iff, List.find?_eq_none] at none
  have spared := none (hash, previous) (ExtTreeMap.mem_toList_iff_getElem?_eq_some.mpr stored)
  rw [cancels_iff] at spared
  exact fun covers => spared ⟨inEffect, covers⟩

end CAlert

namespace AlertMap

variable {keys : AlertKeys} {alertKey vchMsg vchSig : List UInt8} {now : Int}
  {alert : CAlert} {mapAlerts after : AlertMap}

theorem Settled.of_sub (settled : Settled mapAlerts)
    (sub : ∀ (hash : Uint256) (alert : CAlert), after[hash]? = some alert →
      mapAlerts[hash]? = some alert) : Settled after where
  apart := fun _ _ _ _ stored other => settled.apart _ _ _ _ (sub _ _ stored) (sub _ _ other)
  reserved := fun _ _ stored => settled.reserved _ _ (sub _ _ stored)
  range := fun _ _ stored => settled.range _ _ (sub _ _ stored)

theorem getElem?_insertIfNew {hash place : Uint256} {found : CAlert}
    (stored : (mapAlerts.insertIfNew hash alert)[place]? = some found) :
    mapAlerts[place]? = some found ∨ place = hash ∧ found = alert := by
  rw [ExtTreeMap.getElem?_insertIfNew] at stored
  split_ifs at stored with new
  · exact Or.inr ⟨(Std.LawfulEqCmp.eq_of_compare new.1).symm, (Option.some.inj stored).symm⟩
  · exact Or.inl stored

/-- An alert that neither cancels one of the map nor is cancelled by one goes in. -/
theorem Settled.insertIfNew (settled : Settled mapAlerts) (hash : Uint256)
    (range : alert.nID ≤ maxInt) (reserved : alert.nID = maxInt → alert.isKeyCompromised = true)
    (apart : ∀ (place : Uint256) (other : CAlert), mapAlerts[place]? = some other →
      ¬alert.Covers other ∧ ¬other.Covers alert) :
    Settled (mapAlerts.insertIfNew hash alert) := by
  constructor
  · intro first second canceller found stored other different
    cases getElem?_insertIfNew stored with
    | inl old =>
        cases getElem?_insertIfNew other with
        | inl otherOld => exact settled.apart _ _ _ _ old otherOld different
        | inr isNew => exact isNew.2 ▸ (apart _ _ old).2
    | inr isNew =>
        cases getElem?_insertIfNew other with
        | inl otherOld => exact isNew.2 ▸ (apart _ _ otherOld).1
        | inr otherNew => exact absurd (isNew.1.trans otherNew.1.symm) different
  · intro place found stored
    cases getElem?_insertIfNew stored with
    | inl old => exact settled.reserved _ _ old
    | inr isNew => exact isNew.2 ▸ reserved
  · intro place found stored
    cases getElem?_insertIfNew stored with
    | inl old => exact settled.range _ _ old
    | inr isNew => exact isNew.2 ▸ range

theorem Settled.processRead (settled : Settled mapAlerts) (range : alert.nID ≤ maxInt) :
    Settled (alert.processRead keys now mapAlerts).1 := by
  unfold CAlert.processRead
  cases inEffect : alert.isInEffect now with
  | false => exact settled
  | true =>
      have kept : Settled (alert.cancelPrevious now mapAlerts) :=
        settled.of_sub fun _ _ stored => (CAlert.mem_cancelPrevious inEffect stored).1
      rw [if_neg (by simp)]
      split_ifs with reserved
      · exact settled
      · simp only
        cases search : alert.cancelledBy now (alert.cancelPrevious now mapAlerts) with
        | some canceller => exact kept
        | none =>
            apply kept.insertIfNew _ range
            · intro largest
              simpa [largest] using reserved
            · intro place other stored
              obtain ⟨-, otherInEffect, spared⟩ := CAlert.mem_cancelPrevious inEffect stored
              exact ⟨spared, CAlert.not_covers_of_cancelledBy search stored otherInEffect⟩

theorem Settled.processAlert (settled : Settled mapAlerts) :
    Settled (CAlert.processAlert keys alertKey vchMsg vchSig now mapAlerts).1 := by
  unfold CAlert.processAlert
  split
  · exact settled
  · rename_i alert read
    exact settled.processRead (CAlert.checkSignature_nID read)

theorem Settled.run (settled : Settled mapAlerts) (calls : List AlertCall) :
    ∃ last, StepRuns.finish (AlertCall.call keys alertKey) calls mapAlerts = some last ∧
      Settled last := by
  induction calls generalizing mapAlerts with
  | nil => exact ⟨mapAlerts, rfl, settled⟩
  | cons arrival calls ih =>
      have kept : Settled (CAlert.processAlert keys alertKey arrival.vchMsg arrival.vchSig
        arrival.now mapAlerts).1 := settled.processAlert
      exact ih kept

theorem settled_empty : Settled ∅ where
  apart := by
    intro first _ _ _ stored
    simp at stored
  reserved := by
    intro hash _ stored
    simp at stored
  range := by
    intro hash _ stored
    simp at stored

/-- The reserved alert leaves only alerts of its own ID, and those were checked when they came. -/
theorem Settled.processRead_reserved (settled : Settled mapAlerts) (reserved : alert.IsReserved)
    (early : now < maxInt) :
    (∃ (hash : Uint256) (shown : CAlert),
      (alert.processRead keys now mapAlerts).1[hash]? = some shown ∧ shown.IsReserved) ∧
    ∀ (hash : Uint256) (other : CAlert),
      (alert.processRead keys now mapAlerts).1[hash]? = some other → other.nID = maxInt := by
  obtain ⟨largest, compromised⟩ := reserved
  have form := compromised
  simp only [CAlert.isKeyCompromised, Bool.and_eq_true, decide_eq_true_eq] at form
  have inEffect : alert.isInEffect now = true := by
    rw [CAlert.isInEffect, form.1.1.1.1.1.1]
    exact decide_eq_true early
  have left : ∀ (hash : Uint256) (other : CAlert),
      (alert.cancelPrevious now mapAlerts)[hash]? = some other → other.IsReserved := by
    intro hash other kept
    obtain ⟨stored, -, spared⟩ := CAlert.mem_cancelPrevious inEffect kept
    have above : ¬other.nID ≤ maxInt - 1 := fun below =>
      spared (Or.inl (by rw [form.1.1.1.1.1.2]; exact below))
    have range := settled.range hash other stored
    have same : other.nID = maxInt := by omega
    exact ⟨same, settled.reserved hash other stored same⟩
  unfold CAlert.processRead
  rw [if_neg (by simp [inEffect]), if_neg (by simp [compromised])]
  simp only
  cases search : alert.cancelledBy now (alert.cancelPrevious now mapAlerts) with
  | some canceller =>
      obtain ⟨⟨hash, canceller⟩, found, rfl⟩ := Option.map_eq_some_iff.mp search
      have stored := ExtTreeMap.mem_toList_iff_getElem?_eq_some.mp (List.mem_of_find?_eq_some found)
      exact ⟨⟨hash, canceller, stored, left hash canceller stored⟩,
        fun place other kept => (left place other kept).1⟩
  | none =>
      have each : ∀ (place : Uint256) (other : CAlert),
          ((alert.cancelPrevious now mapAlerts).insertIfNew (keys.hash alert.vchMsg) alert)[place]? =
            some other → other.IsReserved := by
        intro place other kept
        cases getElem?_insertIfNew kept with
        | inl old => exact left place other old
        | inr isNew => exact isNew.2 ▸ ⟨largest, compromised⟩
      obtain ⟨shown, stored⟩ := Option.isSome_iff_exists.mp (ExtTreeMap.mem_iff_isSome_getElem?.mp
        (ExtTreeMap.mem_insertIfNew_self (t := alert.cancelPrevious now mapAlerts)
          (k := keys.hash alert.vchMsg) (v := alert)))
      exact ⟨⟨_, shown, stored, each _ shown stored⟩, fun place other kept => (each place other kept).1⟩

end AlertMap

/-- After any alerts none of the map cancels another, and the alert that the key was compromised is
shown and leaves no other. -/
theorem alerts_exact (keys : AlertKeys) (alertKey : List UInt8) (calls : List AlertCall) :
    ∃ mapAlerts, StepRuns.finish (AlertCall.call keys alertKey) calls ∅ = some mapAlerts ∧
      (∀ (now : Int) (first second : Uint256) (canceller alert : CAlert),
        mapAlerts[first]? = some canceller → mapAlerts[second]? = some alert → first ≠ second →
          canceller.cancels now alert = false) ∧
      ∀ (vchMsg vchSig : List UInt8) (now : Int) (alert : CAlert),
        CAlert.checkSignature keys alertKey vchMsg vchSig = .ok alert → alert.IsReserved →
        now < maxInt →
          (∃ (hash : Uint256) (shown : CAlert),
            (CAlert.processAlert keys alertKey vchMsg vchSig now mapAlerts).1[hash]? = some shown ∧
              shown.IsReserved) ∧
          ∀ (hash : Uint256) (other : CAlert),
            (CAlert.processAlert keys alertKey vchMsg vchSig now mapAlerts).1[hash]? = some other →
              other.nID = maxInt := by
  obtain ⟨mapAlerts, ran, settled⟩ :=
    @AlertMap.Settled.run keys alertKey ∅ AlertMap.settled_empty calls
  refine ⟨mapAlerts, ran, ?_, ?_⟩
  · intro now first second canceller alert stored other different
    rw [← Bool.not_eq_true, CAlert.cancels_iff]
    exact fun cancels => settled.apart first second canceller alert stored other different cancels.2
  · intro vchMsg vchSig now alert read reserved early
    have processed : CAlert.processAlert keys alertKey vchMsg vchSig now mapAlerts =
        alert.processRead keys now mapAlerts := by
      rw [CAlert.processAlert, read]
    rw [processed]
    exact settled.processRead_reserved reserved early

def compromisedMessage : List UInt8 :=
  [1, 0, 0, 0] ++ [0, 0, 0, 0, 0, 0, 0, 0] ++ [255, 255, 255, 127, 0, 0, 0, 0] ++
    [255, 255, 255, 127] ++ [254, 255, 255, 127] ++ [0] ++ [0, 0, 0, 0] ++ [255, 255, 255, 127] ++
    [0] ++ [255, 255, 255, 127] ++ [0] ++
    (47 :: stdString "URGENT: Alert key compromised, upgrade required") ++ [0]

theorem alerts_exact_compromised : ∃ (mapAlerts : AlertMap) (hash : Uint256) (shown : CAlert),
    StepRuns.finish (AlertCall.call plainAlertKeys []) [⟨cancellingMessage 1 0, [], 1000⟩] ∅ =
      some mapAlerts ∧
    (CAlert.processAlert plainAlertKeys [] compromisedMessage [] 1000 mapAlerts).1[hash]? =
      some shown ∧ shown.IsReserved := by
  obtain ⟨mapAlerts, ran, -, reserved⟩ :=
    alerts_exact plainAlertKeys [] [⟨cancellingMessage 1 0, [], 1000⟩]
  obtain ⟨alert, read, isReserved⟩ : ∃ alert, CAlert.checkSignature plainAlertKeys []
      compromisedMessage [] = .ok alert ∧ alert.IsReserved := by
    have reads : (CAlert.checkSignature plainAlertKeys [] compromisedMessage []).toOption.any
        (fun alert => decide (alert.nID = maxInt) && alert.isKeyCompromised) = true := by
      decide
    cases read : CAlert.checkSignature plainAlertKeys [] compromisedMessage [] with
    | error failure =>
        rw [read] at reads
        cases reads
    | ok alert =>
        rw [read] at reads
        have form : (decide (alert.nID = maxInt) && alert.isKeyCompromised) = true := reads
        rw [Bool.and_eq_true, decide_eq_true_eq] at form
        exact ⟨alert, rfl, form⟩
  obtain ⟨⟨hash, shown, stored, form⟩, -⟩ :=
    reserved compromisedMessage [] 1000 alert read isReserved (by decide)
  exact ⟨mapAlerts, hash, shown, ran, stored, form⟩

end Lycancoin
