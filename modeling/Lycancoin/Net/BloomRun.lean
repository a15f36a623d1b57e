import Lycancoin.Net.BloomFilter
import Lycancoin.Script.RunSafety

namespace Lycancoin

open Lycancoin.Data

/-- `GetOp` comes upon the data, before it fails. -/
inductive CScript.HasPush : CScript → List UInt8 → Prop
  | here {script rest : CScript} {opcode : UInt8} {data : List UInt8}
      (read : script.getOp = some (opcode, data, rest)) : HasPush script data
  | later {script rest : CScript} {opcode : UInt8} {data found : List UInt8}
      (read : script.getOp = some (opcode, data, rest)) (push : HasPush rest found) :
      HasPush script found

namespace CBloomFilter

variable {filter next after : CBloomFilter} {vKey : List UInt8} {policy : StandardPolicy}

/-- A filter without bytes lets everything through. -/
def Sound (filter : CBloomFilter) : Prop := filter.vData = [] → filter.isFull = true

/-- The bit that `Hash` finds. -/
def place (filter : CBloomFilter) (vKey : List UInt8) (i : Nat) : Nat :=
  (murmurHash3 (UInt32.ofNat i * 0xFBA4C795 + filter.nTweak) vKey).toNat % (filter.vData.length * 8)

def places (filter : CBloomFilter) (vKey : List UInt8) : List Nat :=
  (List.range filter.nHashFuncs.toNat).map (filter.place vKey)

/-! ## One key -/

theorem hash_eq (bytes : filter.vData ≠ []) (i : Nat) :
    filter.hash i vKey = some (filter.place vKey i) := by
  have positive := List.length_pos_iff.mpr bytes
  rw [hash, if_neg (by omega), place]

theorem shift_eq (n : Nat) : n >>> 3 = n / 8 := Nat.shiftRight_eq_div_pow n 3

theorem low_eq (n : Nat) : 7 &&& n = n % 8 := by
  rw [Nat.and_comm]
  exact Nat.and_two_pow_sub_one_eq_mod n 3

theorem exists_byte (bytes : filter.vData ≠ []) (vKey : List UInt8) (i : Nat) :
    ∃ byte, filter.vData[filter.place vKey i / 8]? = some byte := by
  have positive := List.length_pos_iff.mpr bytes
  have within : filter.place vKey i < filter.vData.length * 8 := Nat.mod_lt _ (by omega)
  exact ⟨_, List.getElem?_eq_getElem (by omega)⟩

theorem insertLoop_spec (bytes : filter.vData ≠ []) (vKey : List UInt8) (indices : List Nat) :
    ∃ vData, insertLoop vKey indices filter = some { filter with vData } ∧
      vData.length = filter.vData.length ∧
      Bloom.bits vData = Bloom.bits filter.vData ∪ {place | place ∈ indices.map (filter.place vKey)} := by
  induction indices generalizing filter with
  | nil => exact ⟨filter.vData, rfl, rfl, by simp⟩
  | cons i rest ih =>
      obtain ⟨byte, found⟩ := exists_byte bytes vKey i
      let marked := filter.vData.set (filter.place vKey i / 8)
        (byte ||| UInt8.ofNat (1 <<< (filter.place vKey i % 8)))
      have length : marked.length = filter.vData.length := List.length_set
      have nonempty : marked ≠ [] := by
        rw [← List.length_pos_iff, length, List.length_pos_iff]
        exact bytes
      obtain ⟨vData, run, same, bits⟩ := @ih { filter with vData := marked } nonempty
      have places : ({ filter with vData := marked } : CBloomFilter).place vKey = filter.place vKey := by
        funext j
        simp only [place, length]
      refine ⟨vData, ?_, same.trans length, ?_⟩
      · simp only [insertLoop, hash_eq bytes, shift_eq, low_eq, found, Option.bind_eq_bind,
          Option.bind_some]
        exact run
      · rw [bits, places, Bloom.bits_set found]
        ext target
        simp only [Set.mem_union, Set.mem_singleton_iff, Set.mem_ofPred_eq, List.map_cons,
          List.mem_cons, or_assoc]

theorem containsLoop_spec (bytes : filter.vData ≠ []) (vKey : List UInt8) (indices : List Nat) :
    ∃ answer, filter.containsLoop vKey indices = some answer ∧
      (answer = true ↔ ∀ place ∈ indices.map (filter.place vKey), place ∈ Bloom.bits filter.vData) := by
  induction indices with
  | nil => exact ⟨true, rfl, by simp⟩
  | cons i rest ih =>
      obtain ⟨byte, found⟩ := exists_byte bytes vKey i
      obtain ⟨answer, run, exact⟩ := ih
      simp only [containsLoop, hash_eq bytes, shift_eq, low_eq, found, Option.bind_eq_bind,
        Option.bind_some, List.map_cons, List.forall_mem_cons, Bloom.mem_bits_iff found]
      by_cases zero : byte &&& UInt8.ofNat (1 <<< (filter.place vKey i % 8)) = 0
      · exact ⟨false, by rw [if_pos zero], by simp [zero]⟩
      · exact ⟨answer, by rw [if_neg zero, run], by simp [zero, exact]⟩

/-- What `contains` looks at: the shortcuts first, and then the marks. -/
def Holds (filter : CBloomFilter) (vKey : List UInt8) : Prop :=
  filter.isFull = true ∨
    filter.isEmpty = false ∧ Bloom.Member filter.places (Bloom.bits filter.vData) vKey

theorem contains_spec (sound : filter.Sound) (vKey : List UInt8) :
    ∃ answer, filter.contains vKey = some answer ∧ (answer = true ↔ filter.Holds vKey) := by
  unfold contains Holds
  cases full : filter.isFull with
  | true => exact ⟨true, by simp, by simp⟩
  | false =>
      cases none : filter.isEmpty with
      | true => exact ⟨false, by simp, by simp⟩
      | false =>
          have bytes : filter.vData ≠ [] := fun nothing => by simp [sound nothing] at full
          obtain ⟨answer, run, exact⟩ :=
            containsLoop_spec bytes vKey (List.range filter.nHashFuncs.toNat)
          exact ⟨answer, by simpa using run, by simpa [Bloom.Member, places] using exact⟩

theorem contains_eq_true_iff (sound : filter.Sound) :
    filter.contains vKey = some true ↔ filter.Holds vKey := by
  obtain ⟨answer, run, exact⟩ := contains_spec sound vKey
  rw [run, Option.some.injEq, exact]

/-! ## Insertions -/

/-- The filter has more bits than before, and is as full. -/
structure Grows (filter after : CBloomFilter) : Prop where
  isFull : after.isFull = filter.isFull
  isEmpty : filter.isEmpty = false → after.isEmpty = false
  length : after.vData.length = filter.vData.length
  nHashFuncs : after.nHashFuncs = filter.nHashFuncs
  nTweak : after.nTweak = filter.nTweak
  nFlags : after.nFlags = filter.nFlags
  bits : Bloom.bits filter.vData ⊆ Bloom.bits after.vData

theorem Grows.refl (filter : CBloomFilter) : Grows filter filter :=
  ⟨rfl, id, rfl, rfl, rfl, rfl, subset_rfl⟩

theorem Grows.trans (first : Grows filter next) (second : Grows next after) : Grows filter after where
  isFull := second.isFull.trans first.isFull
  isEmpty := fun some => second.isEmpty (first.isEmpty some)
  length := second.length.trans first.length
  nHashFuncs := second.nHashFuncs.trans first.nHashFuncs
  nTweak := second.nTweak.trans first.nTweak
  nFlags := second.nFlags.trans first.nFlags
  bits := first.bits.trans second.bits

theorem Grows.sound (grows : Grows filter after) (sound : filter.Sound) : after.Sound := by
  intro nothing
  have length := grows.length
  rw [nothing, List.length_nil, eq_comm, List.length_eq_zero_iff] at length
  rw [grows.isFull, sound length]

theorem Grows.places (grows : Grows filter after) : after.places = filter.places := by
  funext vKey
  have same : after.place vKey = filter.place vKey := by
    funext i
    simp only [place, grows.length, grows.nTweak]
  rw [CBloomFilter.places, same, grows.nHashFuncs, CBloomFilter.places]

theorem Grows.holds (grows : Grows filter after) (holds : filter.Holds vKey) : after.Holds vKey := by
  cases holds with
  | inl full => exact Or.inl (grows.isFull.trans full)
  | inr member =>
      refine Or.inr ⟨grows.isEmpty member.1, ?_⟩
      rw [grows.places]
      exact Bloom.member_mono grows.bits member.2

theorem insert_spec (sound : filter.Sound) (vKey : List UInt8) :
    ∃ after, filter.insert vKey = some after ∧ Grows filter after ∧ after.Holds vKey := by
  unfold insert
  cases full : filter.isFull with
  | true => exact ⟨filter, by simp, Grows.refl filter, Or.inl full⟩
  | false =>
      have bytes : filter.vData ≠ [] := fun nothing => by simp [sound nothing] at full
      obtain ⟨vData, run, length, bits⟩ :=
        insertLoop_spec bytes vKey (List.range filter.nHashFuncs.toNat)
      have grows : Grows filter { filter with vData, isEmpty := false } :=
        ⟨rfl, fun _ => rfl, length, rfl, rfl, rfl, by rw [bits]; exact Set.subset_union_left⟩
      refine ⟨{ filter with vData, isEmpty := false }, by simp [run], full ▸ grows, Or.inr ⟨rfl, ?_⟩⟩
      rw [grows.places]
      change Bloom.Member filter.places (Bloom.bits vData) vKey
      rw [bits]
      exact Bloom.member_insert_self

inductive Inserts : CBloomFilter → List (List UInt8) → CBloomFilter → Prop
  | nil (filter : CBloomFilter) : Inserts filter [] filter
  | cons {filter next after : CBloomFilter} {key : List UInt8} {keys : List (List UInt8)}
      (first : filter.insert key = some next) (rest : Inserts next keys after) :
      Inserts filter (key :: keys) after

theorem Inserts.one (first : filter.insert vKey = some next) : Inserts filter [vKey] next :=
  .cons first (.nil next)

theorem Inserts.append {keys more : List (List UInt8)} (first : Inserts filter keys next)
    (second : Inserts next more after) : Inserts filter (keys ++ more) after := by
  induction first with
  | nil filter => exact second
  | cons first rest ih => exact .cons first (ih second)

theorem Inserts.grows {keys : List (List UInt8)} (inserts : Inserts filter keys after)
    (sound : filter.Sound) : Grows filter after ∧ ∀ key ∈ keys, after.Holds key := by
  induction inserts with
  | nil filter => exact ⟨Grows.refl filter, by simp⟩
  | cons first rest ih =>
      obtain ⟨next, run, grows, holds⟩ := insert_spec sound _
      rw [first] at run
      cases run
      obtain ⟨later, others⟩ := ih (grows.sound sound)
      exact ⟨grows.trans later, List.forall_mem_cons.mpr ⟨later.holds holds, others⟩⟩

/-! ## A transaction -/

def MatchesPush (filter : CBloomFilter) (script : CScript) : Prop :=
  ∃ data, script.HasPush data ∧ data ≠ [] ∧ filter.Holds data

theorem Grows.matchesPush {script : CScript} (grows : Grows filter after)
    (matching : filter.MatchesPush script) : after.MatchesPush script := by
  obtain ⟨data, push, nonempty, holds⟩ := matching
  exact ⟨data, push, nonempty, grows.holds holds⟩

theorem matchData_spec (sound : filter.Sound) (data : List UInt8) :
    ∃ answer, filter.matchData data = some answer ∧
      (answer = true ↔ data ≠ [] ∧ filter.Holds data) := by
  unfold matchData
  by_cases nothing : data = []
  · exact ⟨false, by simp [nothing], by simp [nothing]⟩
  · obtain ⟨answer, run, exact⟩ := contains_spec sound data
    exact ⟨answer, by simp [nothing, run], by simp [nothing, exact]⟩

theorem matchPushes_spec (sound : filter.Sound) {passes : Nat} {script : CScript}
    (enough : script.length ≤ passes) :
    ∃ answer, filter.matchPushes passes script = some answer ∧
      (answer = true ↔ filter.MatchesPush script) := by
  have nothing : ∀ {script : CScript}, script.getOp = none → ¬ filter.MatchesPush script := by
    intro script unread matching
    obtain ⟨data, push, -⟩ := matching
    cases push with
    | here read => simp [unread] at read
    | later read push => simp [unread] at read
  induction passes generalizing script with
  | zero =>
      obtain rfl : script = [] := List.length_eq_zero_iff.mp (by omega)
      exact ⟨false, rfl, by simp [nothing (show CScript.getOp [] = none from rfl)]⟩
  | succ passes ih =>
      cases script with
      | nil => exact ⟨false, rfl, by simp [nothing (show CScript.getOp [] = none from rfl)]⟩
      | cons byte tail =>
          cases read : CScript.getOp (byte :: tail) with
          | none => exact ⟨false, by simp [matchPushes, read], by simp [nothing read]⟩
          | some result =>
              obtain ⟨opcode, data, rest⟩ := result
              have shorter := CScript.getOp_length read
              obtain ⟨first, run, exact⟩ := matchData_spec sound data
              obtain ⟨answer, later, exact'⟩ := @ih rest (by omega)
              have split : filter.MatchesPush (byte :: tail) ↔
                  (data ≠ [] ∧ filter.Holds data) ∨ filter.MatchesPush rest := by
                constructor
                · intro matching
                  obtain ⟨found, push, nonempty, holds⟩ := matching
                  cases push with
                  | here read' =>
                      rw [read] at read'
                      cases read'
                      exact Or.inl ⟨nonempty, holds⟩
                  | later read' push =>
                      rw [read] at read'
                      cases read'
                      exact Or.inr ⟨found, push, nonempty, holds⟩
                · intro matching
                  cases matching with
                  | inl here => exact ⟨data, .here read, here⟩
                  | inr there =>
                      obtain ⟨found, push, nonempty, holds⟩ := there
                      exact ⟨found, .later read push, nonempty, holds⟩
              cases first with
              | true =>
                  refine ⟨true, by simp [matchPushes, read, run], ?_⟩
                  rw [split]
                  simp [exact.mp rfl]
              | false =>
                  refine ⟨answer, by simp [matchPushes, read, run, later], ?_⟩
                  rw [split, ← exact, exact']
                  simp

/-- The flags and the script ask for the outpoint of a matching output. -/
def Updates (filter : CBloomFilter) (policy : StandardPolicy) (scriptPubKey : CScript) : Prop :=
  filter.nFlags &&& BLOOM_UPDATE_MASK = BLOOM_UPDATE_ALL ∨
    filter.nFlags &&& BLOOM_UPDATE_MASK = BLOOM_UPDATE_P2PUBKEY_ONLY ∧
      ∃ type vSolutions, scriptPubKey.solver policy = some (type, vSolutions) ∧
        (type = .TX_PUBKEY ∨ type = .TX_MULTISIG)

theorem insertMatched_spec (policy : StandardPolicy) (sound : filter.Sound)
    (scriptPubKey : CScript) (outpoint : COutPoint) :
    ∃ keys after, filter.insertMatched policy scriptPubKey outpoint = some after ∧
      Inserts filter keys after ∧
      (filter.Updates policy scriptPubKey → after.Holds outpoint.serialize) := by
  obtain ⟨after, run, -, holds⟩ := insert_spec sound outpoint.serialize
  have taken : ∃ keys after, filter.insert outpoint.serialize = some after ∧
      Inserts filter keys after ∧
        (filter.Updates policy scriptPubKey → after.Holds outpoint.serialize) :=
    ⟨_, after, run, .one run, fun _ => holds⟩
  unfold insertMatched
  by_cases all : filter.nFlags &&& BLOOM_UPDATE_MASK = BLOOM_UPDATE_ALL
  · rw [if_pos all]
    exact taken
  · rw [if_neg all]
    by_cases only : filter.nFlags &&& BLOOM_UPDATE_MASK = BLOOM_UPDATE_P2PUBKEY_ONLY
    · rw [if_pos only]
      split
      · exact taken
      · exact taken
      · rename_i others others'
        refine ⟨[], filter, rfl, .nil filter, ?_⟩
        intro updates
        cases updates with
        | inl all' => contradiction
        | inr typed =>
            obtain ⟨-, type, vSolutions, solved, kind⟩ := typed
            cases kind with
            | inl pubkey => exact absurd (pubkey ▸ solved) (others vSolutions)
            | inr multisig => exact absurd (multisig ▸ solved) (others' vSolutions)
    · rw [if_neg only]
      refine ⟨[], filter, rfl, .nil filter, ?_⟩
      intro updates
      cases updates with
      | inl all' => contradiction
      | inr typed => exact absurd typed.1 only

theorem updateOutput_spec (policy : StandardPolicy) (sound : filter.Sound)
    (scriptPubKey : CScript) (outpoint : COutPoint) :
    ∃ keys found after, filter.updateOutput policy scriptPubKey outpoint = some (found, after) ∧
      Inserts filter keys after ∧ (found = true ↔ filter.MatchesPush scriptPubKey) ∧
      (found = true → filter.Updates policy scriptPubKey → after.Holds outpoint.serialize) := by
  obtain ⟨found, run, exact⟩ := matchPushes_spec sound (Nat.le_refl scriptPubKey.length)
  unfold updateOutput
  cases found with
  | false => exact ⟨[], false, filter, by simp [run], .nil filter, exact, by simp⟩
  | true =>
      obtain ⟨keys, after, run', inserts, updates⟩ :=
        insertMatched_spec policy sound scriptPubKey outpoint
      exact ⟨keys, true, after, by simp [run, run'], inserts, exact, fun _ => updates⟩

theorem updateOutputs_spec (policy : StandardPolicy) (sound : filter.Sound) (hash : Uint256)
    (vout : List CTxOut) (i : Nat) :
    ∃ keys found after, filter.updateOutputs policy hash i vout = some (found, after) ∧
      Inserts filter keys after ∧
      ∀ k txout, vout[k]? = some txout →
        ∃ flag reached, filter.updateOutputs policy hash i (vout.take k) = some (flag, reached) ∧
          Grows filter reached ∧ (reached.MatchesPush txout.scriptPubKey → found = true ∧
            (filter.Updates policy txout.scriptPubKey →
              after.Holds (COutPoint.serialize { hash, n := UInt32.ofNat (i + k) }))) := by
  induction vout generalizing filter i with
  | nil => exact ⟨[], false, filter, rfl, .nil filter, by simp⟩
  | cons first rest ih =>
      obtain ⟨keys, found, next, run, inserts, exact, updates⟩ :=
        updateOutput_spec policy sound first.scriptPubKey { hash, n := UInt32.ofNat i }
      have grows := (inserts.grows sound).1
      obtain ⟨more, later, after, run', inserts', outputs⟩ := @ih next (grows.sound sound) (i + 1)
      have grows' := (inserts'.grows (grows.sound sound)).1
      refine ⟨keys ++ more, found || later, after, by simp [updateOutputs, run, run'],
        inserts.append inserts', ?_⟩
      intro k txout isOutput
      cases k with
      | zero =>
          cases isOutput
          refine ⟨false, filter, rfl, Grows.refl filter, ?_⟩
          intro matching
          have matched := exact.mpr matching
          exact ⟨by rw [matched, Bool.true_or], fun asked => grows'.holds (updates matched asked)⟩
      | succ k =>
          obtain ⟨flag, reached, upto, longer, output⟩ := outputs k txout isOutput
          refine ⟨found || flag, reached, by simp [updateOutputs, run, upto], grows.trans longer, ?_⟩
          intro matching
          obtain ⟨matched, asked⟩ := output matching
          have place : i + 1 + k = i + (k + 1) := by omega
          rw [place] at asked
          refine ⟨by rw [matched, Bool.or_true], ?_⟩
          intro wanted
          apply asked
          simpa only [Updates, grows.nFlags] using wanted

theorem matchInputs_spec (sound : filter.Sound) (vin : List CTxIn) :
    ∃ answer, filter.matchInputs vin = some answer ∧
      (answer = true ↔ ∃ txin ∈ vin,
        filter.Holds txin.prevout.serialize ∨ filter.MatchesPush txin.scriptSig) := by
  induction vin with
  | nil => exact ⟨false, rfl, by simp⟩
  | cons txin rest ih =>
      obtain ⟨spends, run, exact⟩ := contains_spec sound txin.prevout.serialize
      obtain ⟨pushes, run', exact'⟩ := matchPushes_spec sound (Nat.le_refl txin.scriptSig.length)
      obtain ⟨answer, later, others⟩ := ih
      simp only [List.exists_mem_cons_iff, ← exact, ← exact', ← others]
      cases spends with
      | true => exact ⟨true, by simp [matchInputs, run], by simp⟩
      | false =>
          cases pushes with
          | true => exact ⟨true, by simp [matchInputs, run, run'], by simp⟩
          | false => exact ⟨answer, by simp [matchInputs, run, run', later], by simp⟩

/-- The filter that the loop over the outputs has reached before output `i`. -/
def beforeOutput (policy : StandardPolicy) (tx : CTransaction) (i : Nat) (filter : CBloomFilter) :
    Option CBloomFilter :=
  (filter.updateOutputs policy tx.hash 0 (tx.vout.take i)).map Prod.snd

/-- What `IsRelevantAndUpdate` promises about an answer. -/
structure Relevance (policy : StandardPolicy) (tx : CTransaction) (filter : CBloomFilter)
    (found : Bool) (after : CBloomFilter) : Prop where
  hash : filter.contains tx.hash.serialize = some true → found = true
  input : ∀ txin ∈ tx.vin, filter.contains txin.prevout.serialize = some true → found = true
  pushed : ∀ txin ∈ tx.vin, ∀ data, txin.scriptSig.HasPush data → data ≠ [] →
    filter.contains data = some true → found = true
  output : ∀ i txout, tx.vout[i]? = some txout →
    ∃ reached, filter.beforeOutput policy tx i = some reached ∧
      (∀ key, filter.contains key = some true → reached.contains key = some true) ∧
      ∀ data, txout.scriptPubKey.HasPush data → data ≠ [] → reached.contains data = some true →
        found = true ∧ (filter.Updates policy txout.scriptPubKey →
          after.contains (COutPoint.serialize { hash := tx.hash, n := UInt32.ofNat i }) = some true)

theorem relevance_of_holds (sound : filter.Sound) (soundAfter : after.Sound) {tx : CTransaction}
    {found : Bool} (hash : filter.Holds tx.hash.serialize → found = true)
    (input : ∀ txin ∈ tx.vin, filter.Holds txin.prevout.serialize ∨
      filter.MatchesPush txin.scriptSig → found = true)
    (output : ∀ i txout, tx.vout[i]? = some txout →
      ∃ reached, filter.beforeOutput policy tx i = some reached ∧ Grows filter reached ∧
        (reached.MatchesPush txout.scriptPubKey →
          found = true ∧ (filter.Updates policy txout.scriptPubKey →
            after.Holds (COutPoint.serialize { hash := tx.hash, n := UInt32.ofNat i })))) :
    filter.Relevance policy tx found after := by
  constructor
  · exact fun held => hash ((contains_eq_true_iff sound).mp held)
  · exact fun txin isInput held => input txin isInput (Or.inl ((contains_eq_true_iff sound).mp held))
  · intro txin isInput data push nonempty held
    rw [contains_eq_true_iff sound] at held
    exact input txin isInput (Or.inr ⟨data, push, nonempty, held⟩)
  · intro i txout isOutput
    obtain ⟨reached, before, longer, asked⟩ := output i txout isOutput
    have soundReached := longer.sound sound
    refine ⟨reached, before, ?_, ?_⟩
    · intro key held
      rw [contains_eq_true_iff sound] at held
      rw [contains_eq_true_iff soundReached]
      exact longer.holds held
    · intro data push nonempty held
      rw [contains_eq_true_iff soundReached] at held
      rw [contains_eq_true_iff soundAfter]
      exact asked ⟨data, push, nonempty, held⟩

theorem updateOutputs_of_empty (sound : filter.Sound) (nothing : ∀ key, ¬ filter.Holds key)
    (hash : Uint256) (vout : List CTxOut) (i : Nat) :
    filter.updateOutputs policy hash i vout = some (false, filter) := by
  induction vout generalizing i with
  | nil => rfl
  | cons txout rest ih =>
      obtain ⟨found, run, exact⟩ := matchPushes_spec sound (Nat.le_refl txout.scriptPubKey.length)
      have unmatched : found = false := by
        rw [Bool.eq_false_iff, ne_eq, exact]
        intro matching
        obtain ⟨data, -, -, held⟩ := matching
        exact nothing data held
      rw [unmatched] at run
      simp [updateOutputs, updateOutput, run, ih]

theorem isRelevantAndUpdate_spec (policy : StandardPolicy) (sound : filter.Sound) (tx : CTransaction) :
    ∃ keys found after, filter.isRelevantAndUpdate policy tx = some (found, after) ∧
      Inserts filter keys after ∧ filter.Relevance policy tx found after := by
  obtain ⟨byHash, run, exact⟩ := contains_spec sound tx.hash.serialize
  obtain ⟨keys, byOutput, updated, run', inserts, outputs⟩ :=
    updateOutputs_spec policy sound tx.hash tx.vout 0
  have grows := (inserts.grows sound).1
  obtain ⟨byInput, run'', exact''⟩ := matchInputs_spec (grows.sound sound) tx.vin
  have reached : ∀ i txout, tx.vout[i]? = some txout →
      ∃ reached, filter.beforeOutput policy tx i = some reached ∧ Grows filter reached ∧
        (reached.MatchesPush txout.scriptPubKey →
          byOutput = true ∧ (filter.Updates policy txout.scriptPubKey →
            updated.Holds (COutPoint.serialize { hash := tx.hash, n := UInt32.ofNat i }))) := by
    intro i txout isOutput
    obtain ⟨flag, reached, upto, longer, output⟩ := outputs i txout isOutput
    rw [Nat.zero_add] at output
    exact ⟨reached, by simp [beforeOutput, upto], longer, output⟩
  unfold isRelevantAndUpdate
  cases full : filter.isFull with
  | true =>
      refine ⟨[], true, filter, by simp, .nil filter, relevance_of_holds sound sound ?_ ?_ ?_⟩
      · simp
      · simp
      · intro i txout isOutput
        obtain ⟨reached, before, longer, -⟩ := reached i txout isOutput
        exact ⟨reached, before, longer, fun _ => ⟨rfl, fun _ => Or.inl full⟩⟩
  | false =>
      cases none : filter.isEmpty with
      | true =>
          have nothing : ∀ key, ¬ filter.Holds key := by
            intro key held
            simp [Holds, full, none] at held
          refine ⟨[], false, filter, by simp, .nil filter, relevance_of_holds sound sound ?_ ?_ ?_⟩
          · exact fun held => absurd held (nothing _)
          · intro txin isInput held
            cases held with
            | inl spends => exact absurd spends (nothing _)
            | inr pushes =>
                obtain ⟨data, -, -, held⟩ := pushes
                exact absurd held (nothing data)
          · intro i txout isOutput
            refine ⟨filter, ?_, Grows.refl filter, ?_⟩
            · rw [beforeOutput, updateOutputs_of_empty sound nothing]
              rfl
            · intro matching
              obtain ⟨data, -, -, held⟩ := matching
              exact absurd held (nothing data)
      | false =>
          by_cases early : (byHash || byOutput) = true
          · have result : filter.isRelevantAndUpdate policy tx = some (true, updated) := by
              simp only [isRelevantAndUpdate, full, none, run, run', early, Bool.false_eq_true,
                ↓reduceIte, Option.bind_eq_bind, Option.bind_some]
            rw [isRelevantAndUpdate, full, none] at result
            refine ⟨keys, true, updated, result, inserts,
              relevance_of_holds sound (grows.sound sound) ?_ ?_ ?_⟩
            · simp
            · simp
            · intro i txout isOutput
              obtain ⟨reached, before, longer, output⟩ := reached i txout isOutput
              exact ⟨reached, before, longer, fun matching => ⟨rfl, (output matching).2⟩⟩
          · rw [Bool.or_eq_true, not_or] at early
            refine ⟨keys, byInput, updated, by simp [run, run', run'', early], inserts,
              relevance_of_holds sound (grows.sound sound) ?_ ?_ ?_⟩
            · exact fun held => absurd (exact.mpr held) early.1
            · intro txin isInput held
              rw [exact'']
              cases held with
              | inl spends => exact ⟨txin, isInput, Or.inl (grows.holds spends)⟩
              | inr pushes => exact ⟨txin, isInput, Or.inr (grows.matchesPush pushes)⟩
            · intro i txout isOutput
              obtain ⟨reached, before, longer, output⟩ := reached i txout isOutput
              exact ⟨reached, before, longer, fun matching => absurd (output matching).1 early.2⟩

end CBloomFilter

/-! ## Runs -/

/-- The messages that change the filter of a peer, and the uses of it. -/
inductive FilterCall where
  | filterload (vData : List UInt8) (nHashFuncs nTweak : UInt32) (nFlags : UInt8)
  | filteradd (vData : List UInt8)
  | filterclear
  | isRelevantAndUpdate (tx : CTransaction)

namespace FilterCall

def step (policy : StandardPolicy) (filter : CBloomFilter) : FilterCall → Option CBloomFilter
  | .filterload vData nHashFuncs nTweak nFlags =>
      let loaded : CBloomFilter := { CBloomFilter.empty with vData, nHashFuncs, nTweak, nFlags }
      if loaded.isWithinSizeConstraints then some loaded.updateEmptyFull else some filter
  | .filteradd vData =>
      if vData.length > CScript.MAX_SCRIPT_ELEMENT_SIZE then some filter else filter.insert vData
  | .filterclear => some CBloomFilter.empty
  | .isRelevantAndUpdate tx => (filter.isRelevantAndUpdate policy tx).map Prod.snd

def run (policy : StandardPolicy) (calls : List FilterCall) (filter : CBloomFilter) :
    Option CBloomFilter :=
  calls.foldlM (step policy) filter

/-- The call puts another filter in the place of the old one. -/
def Replaces : FilterCall → Prop
  | .filterload _ _ _ _ => True
  | .filterclear => True
  | .filteradd _ => False
  | .isRelevantAndUpdate _ => False

def key : FilterCall → Option (List UInt8)
  | .filteradd vData => if vData.length > CScript.MAX_SCRIPT_ELEMENT_SIZE then none else some vData
  | _ => none

variable {filter : CBloomFilter} {policy : StandardPolicy}

theorem sound_empty : CBloomFilter.empty.Sound := fun _ => rfl

theorem sound_updateEmptyFull (filter : CBloomFilter) : filter.updateEmptyFull.Sound := by
  intro nothing
  change filter.vData = [] at nothing
  change filter.vData.all (· == 0xff) = true
  rw [nothing, List.all_nil]

theorem step_inserts (policy : StandardPolicy) (sound : filter.Sound) {call : FilterCall}
    (keeps : ¬ call.Replaces) :
    ∃ keys after, step policy filter call = some after ∧ filter.Inserts keys after ∧
      ∀ key ∈ call.key, key ∈ keys := by
  cases call with
  | filterload vData nHashFuncs nTweak nFlags => exact absurd trivial keeps
  | filterclear => exact absurd trivial keeps
  | filteradd vData =>
      by_cases long : vData.length > CScript.MAX_SCRIPT_ELEMENT_SIZE
      · exact ⟨[], filter, by simp [step, long], .nil filter, by simp [key, long]⟩
      · obtain ⟨after, run, -, -⟩ := CBloomFilter.insert_spec sound vData
        exact ⟨[vData], after, by simp [step, long, run], .one run, by simp [key, long]⟩
  | isRelevantAndUpdate tx =>
      obtain ⟨keys, found, after, run, inserts, -⟩ :=
        CBloomFilter.isRelevantAndUpdate_spec policy sound tx
      exact ⟨keys, after, by simp [step, run], inserts, by simp [key]⟩

theorem step_sound (policy : StandardPolicy) (sound : filter.Sound) (call : FilterCall) :
    ∃ after, step policy filter call = some after ∧ after.Sound := by
  by_cases replaces : call.Replaces
  · cases call with
    | filterload vData nHashFuncs nTweak nFlags =>
        simp only [step]
        split
        · exact ⟨_, rfl, sound_updateEmptyFull _⟩
        · exact ⟨_, rfl, sound⟩
    | filterclear => exact ⟨_, rfl, sound_empty⟩
    | filteradd vData => exact replaces.elim
    | isRelevantAndUpdate tx => exact replaces.elim
  · obtain ⟨keys, after, run, inserts, -⟩ := step_inserts policy sound replaces
    exact ⟨after, run, (inserts.grows sound).1.sound sound⟩

theorem run_sound (policy : StandardPolicy) (sound : filter.Sound) (calls : List FilterCall) :
    ∃ after, run policy calls filter = some after ∧ after.Sound := by
  induction calls generalizing filter with
  | nil => exact ⟨filter, rfl, sound⟩
  | cons call rest ih =>
      obtain ⟨next, first, soundNext⟩ := step_sound policy sound call
      obtain ⟨after, later, soundAfter⟩ := ih soundNext
      exact ⟨after, by simpa [run, first] using later, soundAfter⟩

theorem run_inserts (policy : StandardPolicy) (sound : filter.Sound) {calls : List FilterCall}
    (keeps : ∀ call ∈ calls, ¬ call.Replaces) :
    ∃ keys after, run policy calls filter = some after ∧ filter.Inserts keys after ∧
      ∀ call ∈ calls, ∀ key ∈ call.key, key ∈ keys := by
  induction calls generalizing filter with
  | nil => exact ⟨[], filter, rfl, .nil filter, by simp⟩
  | cons call rest ih =>
      obtain ⟨keepsFirst, keepsRest⟩ := List.forall_mem_cons.mp keeps
      obtain ⟨keys, next, first, inserts, own⟩ := step_inserts policy sound keepsFirst
      have soundNext := (inserts.grows sound).1.sound sound
      obtain ⟨more, after, later, inserts', others⟩ := ih soundNext keepsRest
      refine ⟨keys ++ more, after, by simpa [run, first] using later, inserts.append inserts', ?_⟩
      rw [List.forall_mem_cons]
      constructor
      · exact fun key isKey => List.mem_append_left _ (own key isKey)
      · exact fun call isCall key isKey => List.mem_append_right _ (others call isCall key isKey)

end FilterCall

open FilterCall

/-- Whatever a peer has sent, its filter can be asked, and what it contains and what is inserted
since it was loaded stays contained. -/
theorem bloomFilter_exact (policy : StandardPolicy) (before : List FilterCall)
    {since : List FilterCall} (keeps : ∀ call ∈ since, ¬ call.Replaces) :
    ∃ loaded keys filter, run policy before CBloomFilter.empty = some loaded ∧
      run policy since loaded = some filter ∧ loaded.Inserts keys filter ∧
      (∀ call ∈ since, ∀ key ∈ call.key, key ∈ keys) ∧
      (∀ key ∈ keys, filter.contains key = some true) ∧
      (∀ key, loaded.contains key = some true → filter.contains key = some true) ∧
      (∀ key, ∃ answer, filter.contains key = some answer) ∧
      ∀ tx, ∃ found after, filter.isRelevantAndUpdate policy tx = some (found, after) ∧
        filter.Relevance policy tx found after := by
  obtain ⟨loaded, first, sound⟩ := run_sound policy sound_empty before
  obtain ⟨keys, filter, later, inserts, added⟩ := run_inserts policy sound keeps
  obtain ⟨grows, held⟩ := inserts.grows sound
  have soundAfter := grows.sound sound
  refine ⟨loaded, keys, filter, first, later, inserts, added, ?_, ?_, ?_, ?_⟩
  · intro key isKey
    exact (CBloomFilter.contains_eq_true_iff soundAfter).mpr (held key isKey)
  · intro key contained
    rw [CBloomFilter.contains_eq_true_iff sound] at contained
    rw [CBloomFilter.contains_eq_true_iff soundAfter]
    exact grows.holds contained
  · intro key
    obtain ⟨answer, run, -⟩ := CBloomFilter.contains_spec soundAfter key
    exact ⟨answer, run⟩
  · intro tx
    obtain ⟨keys, found, after, run, -, relevance⟩ :=
      CBloomFilter.isRelevantAndUpdate_spec policy soundAfter tx
    exact ⟨found, after, run, relevance⟩

theorem bloomFilter_exact_added :
    ∃ loaded filter, run ⟨true, 40⟩ [.filterload [0, 0] 2 5 1] CBloomFilter.empty = some loaded ∧
      run ⟨true, 40⟩ [.filteradd [1, 2, 3], .filteradd [4]] loaded = some filter ∧
      filter.contains [1, 2, 3] = some true := by
  obtain ⟨loaded, keys, filter, first, later, -, added, held, -⟩ :=
    @bloomFilter_exact ⟨true, 40⟩ [.filterload [0, 0] 2 5 1]
      [.filteradd [1, 2, 3], .filteradd [4]] (by simp [Replaces])
  exact ⟨loaded, filter, first, later, held _ (added (.filteradd [1, 2, 3]) (by simp) _ rfl)⟩

end Lycancoin
