import Lycancoin.Wallet.SpendsIndexRun

namespace Lycancoin

open Std Data Data.KeyedBatch

namespace WalletEntry

variable {first second third : WalletEntry}

theorem SameMetaData.refl (entry : WalletEntry) : entry.SameMetaData entry := by
  simp [SameMetaData]

theorem SameMetaData.symm (same : first.SameMetaData second) : second.SameMetaData first := by
  obtain ⟨value, form, time, fromMe, account⟩ := same
  exact ⟨value.symm, form.symm, time.symm, fromMe.symm, account.symm⟩

theorem SameMetaData.trans (same : first.SameMetaData second)
    (other : second.SameMetaData third) : first.SameMetaData third := by
  obtain ⟨value, form, time, fromMe, account⟩ := same
  obtain ⟨value', form', time', fromMe', account'⟩ := other
  exact ⟨value.trans value', form.trans form', time.trans time', fromMe.trans fromMe',
    account.trans account'⟩

theorem copyMetaData_same : first.SameMetaData (first.copyMetaData second) := by
  simp [SameMetaData, copyMetaData]

theorem copyMetaData_eq (same : first.SameMetaData second) :
    first.copyMetaData second = second := by
  obtain ⟨value, form, time, fromMe, account⟩ := same
  simp only [copyMetaData, value, form, time, fromMe, account]

end WalletEntry

theorem toInt32_eq {value : Int} (least : 0 ≤ value) (most : value < 2 ^ 31 - 1) :
    toInt32 value = value := by
  apply Int.bmod_eq_of_le <;> omega

namespace EntryMap

variable {mapWallet : EntryMap} {range : List Uint256} {hash : Uint256} {entry : WalletEntry}

theorem orderPos_eq (found : mapWallet[hash]? = some entry) (least : 0 ≤ entry.nOrderPos)
    (most : entry.nOrderPos < 2 ^ 31 - 1) : mapWallet.orderPos hash = entry.nOrderPos := by
  simp [orderPos, found, toInt32_eq least most]

theorem syncMetaData_agreed (present : ∀ hash ∈ range, ∃ entry, mapWallet[hash]? = some entry)
    (below : ∃ hash ∈ range, mapWallet.orderPos hash < 2 ^ 31 - 1)
    (agreed : ∀ (first second : Uint256) (entry other : WalletEntry), first ∈ range →
      mapWallet[first]? = some entry → second ∈ range → mapWallet[second]? = some other →
        entry.SameMetaData other) :
    ∃ next, mapWallet.syncMetaData range = some next ∧
      ∀ hash : Uint256, next[hash]? = mapWallet[hash]? := by
  obtain ⟨next, synced⟩ := syncMetaData_exists present below
  refine ⟨next, synced, ?_⟩
  intro hash
  obtain ⟨-, rfl⟩ | ⟨oldest, member, entry, found, -, places⟩ :=
    syncMetaData_present present synced
  · rfl
  · rw [places]
    split
    case isTrue copied =>
      obtain ⟨other, here⟩ := present hash copied.1
      rw [here, Option.map_some, WalletEntry.copyMetaData_eq
        (agreed oldest hash entry other member found copied.1 here)]
    case isFalse => rfl

end EntryMap

namespace SpendsWallet

variable {wallet next before : SpendsWallet} {added : List CTransaction} {hash : Uint256}
  {outpoint : COutPoint} {vin : List CTxIn} {entry wtxIn : WalletEntry}

/-- The transactions that spend an outpoint carry the metadata of the one with the smallest
position. -/
def Synced (wallet : SpendsWallet) : Prop :=
  ∀ (outpoint : COutPoint) (hash oldest : Uint256) (entry first : WalletEntry),
    wallet.mapWallet[hash]? = some entry → entry.Spends outpoint →
      wallet.mapWallet[oldest]? = some first → first.Spends outpoint →
        (∀ (id : Uint256) (other : WalletEntry), wallet.mapWallet[id]? = some other →
          other.Spends outpoint → first.nOrderPos ≤ other.nOrderPos) →
            first.SameMetaData entry

/-- Any two transactions that spend an outpoint carry the same metadata. -/
def Agreed (wallet : SpendsWallet) : Prop :=
  ∀ (outpoint : COutPoint) (hash id : Uint256) (entry other : WalletEntry),
    wallet.mapWallet[hash]? = some entry → entry.Spends outpoint →
      wallet.mapWallet[id]? = some other → other.Spends outpoint → entry.SameMetaData other

theorem exists_oldest (least : ∀ (hash : Uint256) (entry : WalletEntry),
      wallet.mapWallet[hash]? = some entry → 0 ≤ entry.nOrderPos)
    (found : wallet.mapWallet[hash]? = some entry) (spends : entry.Spends outpoint) :
    ∃ (oldest : Uint256) (first : WalletEntry), wallet.mapWallet[oldest]? = some first ∧
      first.Spends outpoint ∧ ∀ (id : Uint256) (other : WalletEntry),
        wallet.mapWallet[id]? = some other → other.Spends outpoint →
          first.nOrderPos ≤ other.nOrderPos := by
  induction position : entry.nOrderPos.toNat using Nat.strong_induction_on
    generalizing hash entry with
  | _ position ih =>
      by_cases lower : ∃ (id : Uint256) (other : WalletEntry),
          wallet.mapWallet[id]? = some other ∧ other.Spends outpoint ∧
            other.nOrderPos < entry.nOrderPos
      · obtain ⟨id, other, found', spends', lower⟩ := lower
        have := least id other found'
        exact ih other.nOrderPos.toNat (by omega) found' spends' rfl
      · refine ⟨hash, entry, found, spends, ?_⟩
        intro id other found' spends'
        by_contra less
        exact lower ⟨id, other, found', spends', by omega⟩

theorem synced_iff_agreed (least : ∀ (hash : Uint256) (entry : WalletEntry),
      wallet.mapWallet[hash]? = some entry → 0 ≤ entry.nOrderPos) :
    wallet.Synced ↔ wallet.Agreed := by
  constructor
  · intro synced outpoint hash id entry other found spends found' spends'
    obtain ⟨oldest, first, lookup, spent, lowest⟩ := exists_oldest least found spends
    have one := synced outpoint hash oldest entry first found spends lookup spent lowest
    have two := synced outpoint id oldest other first found' spends' lookup spent lowest
    exact one.symm.trans two
  · intro agreed outpoint hash oldest entry first found spends lookup spent _
    exact agreed outpoint oldest hash first entry lookup spent found spends

/-- While a transaction is added: its entry and its spends are all that differs. -/
structure Adding (before wallet : SpendsWallet) (hash : Uint256) (entry : WalletEntry) :
    Prop where
  here : wallet.mapWallet[hash]? = some entry
  others : ∀ id, id ≠ hash → wallet.mapWallet[id]? = before.mapWallet[id]?
  spends : ∀ outpoint id, id ≠ hash →
    ((outpoint, id) ∈ wallet.mapTxSpends ↔ (outpoint, id) ∈ before.mapTxSpends)
  rest : wallet.nOrderPosNext = before.nOrderPosNext + 1 ∧ wallet.records = before.records

/-- The positions of the entries, below the next one. -/
def Numbered (wallet : SpendsWallet) : Prop :=
  0 ≤ wallet.nOrderPosNext ∧
    ∀ (hash : Uint256) (entry : WalletEntry), wallet.mapWallet[hash]? = some entry →
      0 ≤ entry.nOrderPos ∧ entry.nOrderPos < wallet.nOrderPosNext

theorem Adding.addToSpendsOf (adding : Adding before wallet hash entry)
    (indexed : before.Indexed added) (agreed : before.Agreed) (numbered : before.Numbered)
    (position : entry.nOrderPos = before.nOrderPosNext)
    (most : before.nOrderPosNext < 2 ^ 31 - 1) (outpoint : COutPoint) :
    ∃ next entry', wallet.addToSpendsOf outpoint hash = some next ∧
      Adding before next hash entry' ∧ entry'.tx = entry.tx ∧
      entry'.nOrderPos = entry.nOrderPos ∧
      ((∀ id, id ≠ hash → (outpoint, id) ∉ before.mapTxSpends) ∧ entry' = entry ∨
        ∃ (oldest : Uint256) (first : WalletEntry),
          before.mapWallet[oldest]? = some first ∧ first.Spends outpoint ∧
            entry' = first.copyMetaData entry) := by
  have ranged : ∀ id ∈ wallet.equalRange outpoint ++ [hash], id ≠ hash →
      ∃ found, before.mapWallet[id]? = some found ∧ found.Spends outpoint := by
    intro id member other
    rw [List.mem_append, mem_equalRange, adding.spends outpoint id other] at member
    rcases member with member | member
    · exact (indexed.spends outpoint id).1 member
    · exact absurd (List.mem_singleton.1 member) other
  have present : ∀ id ∈ wallet.equalRange outpoint ++ [hash],
      ∃ found, wallet.mapWallet[id]? = some found := by
    intro id member
    by_cases same : id = hash
    · subst id
      exact ⟨entry, adding.here⟩
    · obtain ⟨found, lookup, -⟩ := ranged id member same
      exact ⟨found, (adding.others id same).trans lookup⟩
  have own : wallet.mapWallet.orderPos hash = before.nOrderPosNext := by
    rw [EntryMap.orderPos_eq adding.here (by rw [position]; exact numbered.1) (by omega), position]
  have lower : ∀ id found, id ≠ hash → before.mapWallet[id]? = some found →
      wallet.mapWallet.orderPos id < before.nOrderPosNext := by
    intro id found other lookup
    obtain ⟨least, below⟩ := numbered.2 id found lookup
    rw [EntryMap.orderPos_eq ((adding.others id other).trans lookup) least (by omega)]
    exact below
  obtain ⟨mapWallet, synced⟩ := EntryMap.syncMetaData_exists present
    ⟨hash, List.mem_append_right _ List.mem_cons_self, by rw [own]; exact most⟩
  have ran : wallet.addToSpendsOf outpoint hash = some { wallet with
      mapWallet := mapWallet
      mapTxSpends := wallet.mapTxSpends ++ [(outpoint, hash)] } := by
    have range : SpendsWallet.equalRange outpoint
        { wallet with mapTxSpends := wallet.mapTxSpends ++ [(outpoint, hash)] } =
          wallet.equalRange outpoint ++ [hash] := by simp [equalRange]
    simp only [SpendsWallet.addToSpendsOf, range, synced, Option.map_some]
  have noted : ∀ place id, id ≠ hash → ((place, id) ∈ wallet.mapTxSpends ++ [(outpoint, hash)] ↔
      (place, id) ∈ before.mapTxSpends) := by
    intro place id other
    rw [← adding.spends place id other]
    simp [other]
  obtain ⟨empty, -⟩ | ⟨oldest, member, first, found, least, places⟩ :=
    EntryMap.syncMetaData_present present synced
  · simp at empty
  · by_cases self : oldest = hash
    · subst oldest
      have alone : ∀ id ∈ wallet.equalRange outpoint ++ [hash], id = hash := by
        intro id ranging
        by_contra other
        obtain ⟨found, lookup, -⟩ := ranged id ranging other
        have := least id ranging
        have := lower id found other lookup
        omega
      have unchanged : ∀ id : Uint256, mapWallet[id]? = wallet.mapWallet[id]? := by
        intro id
        rw [places, if_neg]
        rintro ⟨ranging, other⟩
        exact other (alone id ranging)
      refine ⟨_, entry, ran, ⟨(unchanged hash).trans adding.here, ?_, noted, adding.rest⟩,
        rfl, rfl, .inl ⟨?_, rfl⟩⟩
      · intro id other
        exact (unchanged id).trans (adding.others id other)
      · intro id other spent
        refine other (alone id (List.mem_append_left _ (mem_equalRange.2 ?_)))
        exact (adding.spends outpoint id other).2 spent
    · obtain ⟨_, lookup, spends⟩ := ranged oldest member self
      have here := (adding.others oldest self).trans lookup
      obtain rfl := Option.some.inj (found.symm.trans here)
      refine ⟨_, first.copyMetaData entry, ran, ⟨?_, ?_, noted, adding.rest⟩, rfl, rfl,
        .inr ⟨oldest, first, lookup, spends, rfl⟩⟩
      · show mapWallet[hash]? = _
        rw [places, if_pos ⟨List.mem_append_right _ List.mem_cons_self, Ne.symm self⟩,
          adding.here, Option.map_some]
      · intro id other
        show mapWallet[id]? = _
        rw [places, adding.others id other]
        split
        case isTrue copied =>
          obtain ⟨old, before', spends'⟩ := ranged id copied.1 other
          rw [before', Option.map_some, WalletEntry.copyMetaData_eq
            (agreed outpoint oldest id first old lookup spends before' spends')]
        case isFalse => rfl

/-- The transactions that spend one of the inputs carry the same metadata. -/
def SpendersAgree (vin : List CTxIn) (wallet : SpendsWallet) : Prop :=
  ∀ txin ∈ vin, ∀ txin' ∈ vin, ∀ (hash id : Uint256) (entry other : WalletEntry),
    wallet.mapWallet[hash]? = some entry → entry.Spends txin.prevout →
      wallet.mapWallet[id]? = some other → other.Spends txin'.prevout → entry.SameMetaData other

/-- The metadata of an entry is that of the transactions that spend one of the inputs. -/
def Follows (vin : List CTxIn) (entry : WalletEntry) (wallet : SpendsWallet) : Prop :=
  ∀ txin ∈ vin, ∀ (id : Uint256) (other : WalletEntry), wallet.mapWallet[id]? = some other →
    other.Spends txin.prevout → other.SameMetaData entry

theorem Adding.addInputs (adding : Adding before wallet hash entry)
    (indexed : before.Indexed added) (agreed : before.Agreed) (numbered : before.Numbered)
    (position : entry.nOrderPos = before.nOrderPosNext)
    (most : before.nOrderPosNext < 2 ^ 31 - 1) (fresh : before.mapWallet[hash]? = none)
    (done vin : List CTxIn) :
    ∃ next entry', addInputs hash vin wallet = some next ∧ Adding before next hash entry' ∧
      entry'.tx = entry.tx ∧ entry'.nOrderPos = entry.nOrderPos ∧
      (before.SpendersAgree (done ++ vin) → before.Follows done entry →
        before.Follows (done ++ vin) entry') := by
  induction vin generalizing wallet entry done with
  | nil =>
      refine ⟨wallet, entry, rfl, adding, rfl, rfl, ?_⟩
      intro _ follows
      simpa using follows
  | cons txin vin ih =>
      obtain ⟨middle, entry₁, first, adding₁, tx₁, position₁, place⟩ :=
        adding.addToSpendsOf indexed agreed numbered position most txin.prevout
      obtain ⟨next, entry₂, rest, adding₂, tx₂, position₂, follows₂⟩ :=
        ih adding₁ (position₁.trans position) (done ++ [txin])
      refine ⟨next, entry₂, ?_, adding₂, tx₂.trans tx₁, position₂.trans position₁, ?_⟩
      · simp only [SpendsWallet.addInputs, first, Option.bind_some, rest]
      · intro spenders follows
        rw [List.append_assoc, List.singleton_append] at follows₂
        apply follows₂ spenders
        intro txin' member id other found spends
        rcases place with ⟨alone, rfl⟩ | ⟨oldest, first, lookup, spends', rfl⟩
        · rcases List.mem_append.1 member with member | member
          · exact follows txin' member id other found spends
          · obtain rfl := List.mem_singleton.1 member
            have noted := (indexed.spends txin'.prevout id).2 ⟨other, found, spends⟩
            refine absurd noted (alone id ?_)
            rintro rfl
            simp [fresh] at found
        · have earlier : txin' ∈ done ++ txin :: vin := by
            rcases List.mem_append.1 member with member | member
            · exact List.mem_append_left _ member
            · rw [List.mem_singleton.1 member]
              exact List.mem_append_right _ List.mem_cons_self
          have here : txin ∈ done ++ txin :: vin := List.mem_append_right _ List.mem_cons_self
          exact (spenders txin' earlier txin here id oldest other first found spends lookup
            spends').trans WalletEntry.copyMetaData_same

theorem records_writeToDisk {fWritten : Bool} {id : Uint256} {record : WalletEntry}
    (found : (wallet.writeToDisk hash fWritten).records[id]? = some record) :
    id = hash ∧ wallet.mapWallet[hash]? = some record ∨ wallet.records[id]? = some record := by
  unfold writeToDisk at found
  split at found
  · exact .inr found
  next wtx here =>
    split at found
    · rw [getElem?_insert_eq] at found
      split at found
      · cases found
        exact .inl ⟨‹_›, here⟩
      · exact .inr found
    · exact .inr found

theorem addToWallet_new (indexed : wallet.Indexed added) (agreed : wallet.Agreed)
    (numbered : wallet.Numbered) (most : wallet.nOrderPosNext < 2 ^ 31 - 1)
    (fresh : wallet.mapWallet[wtxIn.tx.hash]? = none) (nTimeReceived nTimeSmart : Int)
    (fWritten : Bool) :
    ∃ next entry, wallet.addToWallet wtxIn nTimeReceived nTimeSmart fWritten = some next ∧
      entry.tx = wtxIn.tx ∧ entry.nOrderPos = wallet.nOrderPosNext ∧
      next.mapWallet[wtxIn.tx.hash]? = some entry ∧
      (∀ id, id ≠ wtxIn.tx.hash → next.mapWallet[id]? = wallet.mapWallet[id]?) ∧
      next.nOrderPosNext = wallet.nOrderPosNext + 1 ∧
      (∀ (id : Uint256) (record : WalletEntry), next.records[id]? = some record →
        id = wtxIn.tx.hash ∧ record = entry ∨ wallet.records[id]? = some record) ∧
      (wtxIn.tx.isCoinBase = false → wallet.SpendersAgree wtxIn.tx.vin →
        wallet.Follows wtxIn.tx.vin entry) := by
  let wtx : WalletEntry := { wtxIn with
    nTimeReceived := nTimeReceived
    nOrderPos := wallet.nOrderPosNext
    nTimeSmart := nTimeSmart }
  let start : SpendsWallet := { wallet with
    mapWallet := wallet.mapWallet.insert wtxIn.tx.hash wtx
    nOrderPosNext := wallet.nOrderPosNext + 1 }
  have here : start.mapWallet[wtxIn.tx.hash]? = some wtx := ExtTreeMap.getElem?_insert_self
  have adding : Adding wallet start wtxIn.tx.hash wtx := by
    refine ⟨here, ?_, fun _ _ _ => Iff.rfl, rfl, rfl⟩
    intro id other
    simp only [start, getElem?_insert_eq, if_neg other]
  have spends : ∃ middle entry, addToSpends wtxIn.tx.hash start = some middle ∧
      Adding wallet middle wtxIn.tx.hash entry ∧ entry.tx = wtxIn.tx ∧
      entry.nOrderPos = wallet.nOrderPosNext ∧
      (wtxIn.tx.isCoinBase = false → wallet.SpendersAgree wtxIn.tx.vin →
        wallet.Follows wtxIn.tx.vin entry) := by
    simp only [addToSpends, here]
    split
    case isTrue coinBase =>
      refine ⟨start, wtx, rfl, adding, rfl, rfl, ?_⟩
      intro notCoinBase
      exact absurd coinBase (by simp [wtx, notCoinBase])
    case isFalse =>
      obtain ⟨middle, entry, ran, adding, same, position, follows⟩ :=
        adding.addInputs indexed agreed numbered rfl most fresh [] wtx.tx.vin
      refine ⟨middle, entry, ran, adding, same, position, ?_⟩
      intro _ spenders
      exact follows spenders (by simp [Follows])
  obtain ⟨middle, entry, ran, added, same, position, follows⟩ := spends
  obtain ⟨mapWallet, -, nOrderPosNext⟩ :=
    writeToDisk_mapWallet middle wtxIn.tx.hash fWritten
  refine ⟨middle.writeToDisk wtxIn.tx.hash fWritten, entry, ?_, same, position, ?_, ?_, ?_, ?_,
    follows⟩
  · simp only [addToWallet, fresh]
    exact congrArg (Option.map (writeToDisk wtxIn.tx.hash fWritten)) ran
  · rw [mapWallet, added.here]
  · intro id other
    rw [mapWallet, added.others id other]
  · rw [nOrderPosNext, added.rest.1]
  · intro id record found
    rcases records_writeToDisk found with ⟨rfl, written⟩ | kept
    · exact .inl ⟨rfl, (Option.some.inj (added.here.symm.trans written)).symm⟩
    · exact .inr (added.rest.2 ▸ kept)

/-- What holds of a wallet to which new transactions were added, as long as its transactions
agree. -/
structure Grown (wallet : SpendsWallet) : Prop where
  indexed : ∃ added, wallet.Indexed added
  numbered : wallet.Numbered
  few : wallet.nOrderPosNext ≤ 2 ^ 31 - 1
  records : ∀ (hash : Uint256) (entry : WalletEntry), wallet.records[hash]? = some entry →
    wallet.mapWallet[hash]? = some entry

theorem Grown.new : Grown SpendsWallet.new where
  indexed := ⟨[], .new⟩
  numbered := by simp [Numbered, SpendsWallet.new]
  few := by simp [SpendsWallet.new]
  records := by simp [SpendsWallet.new]

theorem Grown.addToWallet (grown : wallet.Grown) (agreed : wallet.Agreed)
    (most : wallet.nOrderPosNext < 2 ^ 31 - 1)
    (fresh : wallet.mapWallet[wtxIn.tx.hash]? = none) {nTimeReceived nTimeSmart : Int}
    {fWritten : Bool}
    (ran : wallet.addToWallet wtxIn nTimeReceived nTimeSmart fWritten = some next) :
    next.Grown ∧ (next.Agreed ↔
      (wtxIn.tx.isCoinBase = false → wallet.SpendersAgree wtxIn.tx.vin)) := by
  obtain ⟨added, indexed⟩ := grown.indexed
  obtain ⟨_, entry, ran', tx, position, here, others, counted, records, follows⟩ :=
    addToWallet_new indexed agreed grown.numbered most fresh nTimeReceived nTimeSmart fWritten
  obtain rfl := Option.some.inj (ran.symm.trans ran')
  have split : ∀ (id : Uint256) (found : WalletEntry), next.mapWallet[id]? = some found →
      id = wtxIn.tx.hash ∧ found = entry ∨
        id ≠ wtxIn.tx.hash ∧ wallet.mapWallet[id]? = some found := by
    intro id found lookup
    by_cases same : id = wtxIn.tx.hash
    · subst id
      exact .inl ⟨rfl, Option.some.inj (lookup.symm.trans here)⟩
    · exact .inr ⟨same, (others id same).symm.trans lookup⟩
  have old : ∀ (id : Uint256) (found : WalletEntry), wallet.mapWallet[id]? = some found →
      next.mapWallet[id]? = some found := by
    intro id found lookup
    rw [others id, lookup]
    rintro rfl
    simp [fresh] at lookup
  constructor
  · constructor
    · exact ⟨_, indexed.addToWallet ran⟩
    · refine ⟨by have := grown.numbered.1; omega, ?_⟩
      intro id found lookup
      rw [counted]
      rcases split id found lookup with ⟨-, rfl⟩ | ⟨-, lookup⟩
      · have := grown.numbered.1
        omega
      · have := grown.numbered.2 id found lookup
        omega
    · omega
    · intro id record found
      rcases records id record found with ⟨rfl, rfl⟩ | found
      · exact here
      · exact old id record (grown.records id record found)
  · constructor
    · intro agreed' notCoinBase txin member txin' member' id id' other other' found spends found'
        spends'
      have mine : ∀ txin ∈ wtxIn.tx.vin, entry.Spends txin.prevout := by
        intro txin member
        exact ⟨tx ▸ notCoinBase, txin, tx ▸ member, rfl⟩
      have one := agreed' _ _ _ _ _ (old id other found) spends here (mine txin member)
      have two := agreed' _ _ _ _ _ here (mine txin' member') (old id' other' found') spends'
      exact one.trans two
    · intro condition outpoint id id' found found' lookup spends lookup' spends'
      have following : ∀ (id : Uint256) (other : WalletEntry),
          wallet.mapWallet[id]? = some other → other.Spends outpoint → entry.Spends outpoint →
            other.SameMetaData entry := by
        rintro id other lookup spends ⟨notCoinBase, txin, member, rfl⟩
        rw [tx] at notCoinBase member
        exact follows notCoinBase (condition notCoinBase) txin member id other lookup spends
      rcases split id found lookup with ⟨-, rfl⟩ | ⟨-, lookup⟩ <;>
        rcases split id' found' lookup' with ⟨-, rfl⟩ | ⟨-, lookup'⟩
      · exact .refl found'
      · exact (following id' found' lookup' spends' spends).symm
      · exact following id found lookup spends spends'
      · exact agreed outpoint id id' found found' lookup spends lookup' spends'

end SpendsWallet

end Lycancoin
