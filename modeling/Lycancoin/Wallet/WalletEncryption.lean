import Lycancoin.Wallet.PassphraseRun

namespace Lycancoin

open Std Data

theorem CCryptoKeyStore.addKeyPubKey_isLocked {primitives : KeyPrimitives}
    {store : CCryptoKeyStore} (crypted : store.fUseCrypto = true) (key : CKey) (pubkey : CPubKey) :
    (store.addKeyPubKey primitives key pubkey).2.isLocked = store.isLocked := by
  simp only [addKeyPubKey, crypted, Bool.not_true, Bool.false_eq_true, if_false]
  split
  · rfl
  · split
    · rfl
    · rw [addCryptedKey_of_fUseCrypto crypted]
      rfl

namespace PassphraseWallet

variable {primitives : PassphrasePrimitives} {K : CKeyingMaterial} {wallet next : PassphraseWallet}
  {passphrase : SecureString} {kMasterKey : CMasterKey} {run : EncryptionRun}
  {added : CKeyID → Option CKey}

theorem newKeyPool_held (master : primitives.toKeyPrimitives.MasterKey K) {newKeys : List CKey}
    (valid : ∀ key ∈ newKeys, primitives.toKeyPrimitives.Valid key) {store after : CCryptoKeyStore}
    (held : CCryptoKeyStore.Held primitives.toKeyPrimitives K true store added)
    (ran : newKeyPool primitives newKeys store = some after) :
    ∃ added, CCryptoKeyStore.Held primitives.toKeyPrimitives K true after added := by
  unfold newKeyPool at ran
  split at ran
  case isTrue =>
    cases ran
    exact ⟨added, held⟩
  case isFalse unlocked =>
    clear unlocked
    induction newKeys generalizing store added with
    | nil =>
        cases ran
        exact ⟨added, held⟩
    | cons key newKeys ih =>
        obtain ⟨fits, others⟩ := List.forall_mem_cons.1 valid
        rw [List.foldlM_cons] at ran
        obtain ⟨middle, first, rest⟩ := Option.bind_eq_some_iff.1 ran
        split at first
        · contradiction
        next added_key =>
          cases first
          exact ih others (held.addKeyPubKey master fits added_key) rest

structure Unencrypted (primitives : PassphrasePrimitives) (wallet : PassphraseWallet) : Prop where
  reached : ∃ K added, CCryptoKeyStore.Reaches primitives.toKeyPrimitives K false wallet.store added
  holds : wallet.store.mapKeys.isEmpty = false
  mapMasterKeys : wallet.mapMasterKeys = ∅
  records : wallet.records = ∅

theorem reaches_unencrypted {encrypted : Bool} {K' : CKeyingMaterial} {store : CCryptoKeyStore}
    (reached : CCryptoKeyStore.Reaches primitives.toKeyPrimitives K' encrypted store added)
    (plain : encrypted = false) :
    CCryptoKeyStore.Reaches primitives.toKeyPrimitives K false store added := by
  induction reached with
  | empty => exact .empty
  | addKeyPubKey _ fits added_key ih =>
      subst plain
      exact .addKeyPubKey (ih rfl) fits added_key
  | addKeyPubKey_fails _ fits failed ih =>
      subst plain
      exact .addKeyPubKey_fails (ih rfl) fits failed
  | encryptKeys => contradiction
  | lock => contradiction
  | unlock => contradiction

theorem newKeyPool_exists (master : primitives.toKeyPrimitives.MasterKey K) (newKeys : List CKey)
    {store : CCryptoKeyStore}
    (held : CCryptoKeyStore.Held primitives.toKeyPrimitives K true store added) :
    ∃ after, newKeyPool primitives newKeys store = some after := by
  unfold newKeyPool
  cases locked : store.isLocked with
  | true => exact ⟨store, rfl⟩
  | false =>
      simp only [Bool.false_eq_true, if_false]
      have crypted := held.crypted rfl
      clear held
      induction newKeys generalizing store added with
      | nil => exact ⟨store, rfl⟩
      | cons key newKeys ih =>
          obtain ⟨succeeds, kept⟩ := crypted.add master locked key
          have unlocked := @CCryptoKeyStore.addKeyPubKey_isLocked primitives.toKeyPrimitives _
            crypted.fUseCrypto key (primitives.getPubKey key)
          rw [List.foldlM_cons]
          generalize store.addKeyPubKey primitives.toKeyPrimitives key (primitives.getPubKey key) =
            result at succeeds kept unlocked
          obtain ⟨_, after⟩ := result
          cases succeeds
          exact ih (unlocked.trans locked) kept

theorem Unencrypted.keysEncrypted (start : wallet.Unencrypted primitives)
    (ideal : primitives.Ideal run.vMasterKey)
    (sealed : kMasterKey.Sealed primitives run.vMasterKey passphrase) {store : CCryptoKeyStore}
    (encrypted : wallet.store.encryptKeys primitives.toKeyPrimitives run.vMasterKey =
      (true, store)) :
    Intact primitives run.vMasterKey passphrase (wallet.nMasterKeyMaxID + 1) kMasterKey
      { store
        mapMasterKeys := wallet.mapMasterKeys.insert (wallet.nMasterKeyMaxID + 1) kMasterKey
        nMasterKeyMaxID := wallet.nMasterKeyMaxID + 1
        records := wallet.records.insert (wallet.nMasterKeyMaxID + 1) kMasterKey } := by
  obtain ⟨K', added, reached⟩ := start.reached
  have reached' := reaches_unencrypted (K := run.vMasterKey) reached rfl
  have held := CCryptoKeyStore.held_run ideal.master
    (reached'.encryptKeys start.holds encrypted)
  refine ⟨⟨added, held⟩, ?_, ?_, sealed⟩
  · simp only [start.mapMasterKeys]
  · simp only [start.records]

theorem Unencrypted.encryptUnder (start : wallet.Unencrypted primitives)
    (ideal : primitives.Ideal run.vMasterKey)
    (valid : ∀ key ∈ run.newKeys, primitives.toKeyPrimitives.Valid key)
    (sealed : kMasterKey.Sealed primitives run.vMasterKey passphrase)
    (ran : wallet.encryptUnder primitives passphrase run kMasterKey = some (true, next)) :
    Intact primitives run.vMasterKey passphrase (wallet.nMasterKeyMaxID + 1) kMasterKey next := by
  simp only [PassphraseWallet.encryptUnder] at ran
  split at ran
  · simp at ran
  · split at ran
    · contradiction
    next store encrypted =>
      split at ran
      · contradiction
      · have begun := start.keysEncrypted ideal sealed encrypted
        obtain ⟨locked, shut⟩ := begun.lock
        rw [locked, shut.unlock_eq ideal run.fUnlocked] at ran
        simp only [Option.map_eq_some_iff, Prod.mk.injEq, true_and] at ran
        have middle : ∀ middle : PassphraseWallet,
            Intact primitives run.vMasterKey passphrase (wallet.nMasterKeyMaxID + 1) kMasterKey
              middle → ∀ after, newKeyPool primitives run.newKeys middle.store = some after →
            Intact primitives run.vMasterKey passphrase (wallet.nMasterKeyMaxID + 1) kMasterKey
              { middle with store := after }.lock.2 := by
          intro middle intact after pooled
          obtain ⟨added, held⟩ := intact.held
          have kept : Intact primitives run.vMasterKey passphrase (wallet.nMasterKeyMaxID + 1)
              kMasterKey { middle with store := after } :=
            ⟨newKeyPool_held ideal.master valid held pooled, intact.mapMasterKeys, intact.records,
              intact.sealed⟩
          obtain ⟨locked, shut⟩ := kept.lock
          rw [locked]
          exact shut
        obtain ⟨after, pooled, rfl⟩ := ran
        split at pooled
        · rw [if_pos ‹_›]
          exact middle _ (shut.opened ideal) after pooled
        · rw [if_neg ‹_›]
          exact middle _ shut after pooled

theorem Unencrypted.encryptWallet (start : wallet.Unencrypted primitives)
    (ideal : primitives.Ideal run.vMasterKey)
    (valid : ∀ key ∈ run.newKeys, primitives.toKeyPrimitives.Valid key)
    (ran : wallet.encryptWallet primitives passphrase run = some (true, next)) :
    State.Intact primitives run.vMasterKey { wallet := next, passphrase } := by
  simp only [PassphraseWallet.encryptWallet] at ran
  split at ran
  · simp at ran
  · have usable : CMasterKey.Usable { CMasterKey.new with
        vchSalt := run.vchSalt
        nDeriveIterations := CMasterKey.calibrate primitives run.nElapsed'
          (primitives.toUnsigned (2500000 / Float.ofInt run.nElapsed)) } :=
      ⟨run.vchSalt_length, rfl, CMasterKey.calibrate_rounds _ _⟩
    cases derived : run.fDerived with
    | false =>
        have refused := usable.setKey_false primitives passphrase
        rw [derived] at ran
        split at ran
        · simp at ran
        next taken =>
          have contradicted := congrArg Prod.fst taken
          rw [refused] at contradicted
          contradiction
    | true =>
        simp only [derived, usable.setKey_true] at ran
        split at ran
        · simp at ran
        next vchCryptedKey encrypted =>
          refine ⟨_, _, start.encryptUnder ideal valid ?_ ran⟩
          refine ⟨⟨usable.salt, usable.method, usable.rounds⟩, ?_⟩
          simpa [CCrypter.encrypt, CMasterKey.keyFrom] using encrypted

theorem Unencrypted.encryptUnder_exists (start : wallet.Unencrypted primitives)
    (ideal : primitives.Ideal run.vMasterKey)
    (sealed : kMasterKey.Sealed primitives run.vMasterKey passphrase) (begun : run.fBegun = true)
    (committed : run.fCommitted = true) :
    ∃ next, wallet.encryptUnder primitives passphrase run kMasterKey = some (true, next) := by
  obtain ⟨K', added, reached⟩ := start.reached
  have held := CCryptoKeyStore.held_run ideal.master
    (reaches_unencrypted (K := run.vMasterKey) reached rfl)
  obtain ⟨succeeds, -⟩ := (held.plain rfl).encryptKeys held.valid ideal.master start.holds
  cases keys : wallet.store.encryptKeys primitives.toKeyPrimitives run.vMasterKey with
  | mk done store =>
      rw [keys] at succeeds
      cases succeeds
      obtain ⟨locked, shut⟩ := (start.keysEncrypted ideal sealed keys).lock
      simp only [PassphraseWallet.encryptUnder, begun, committed, Bool.not_true,
        Bool.false_eq_true, if_false, keys, locked, shut.unlock_eq ideal run.fUnlocked]
      split
      · obtain ⟨_, held⟩ := (shut.opened ideal).held
        obtain ⟨after, pooled⟩ := newKeyPool_exists ideal.master run.newKeys held
        exact ⟨_, congrArg (Option.map _) pooled⟩
      · obtain ⟨_, held⟩ := shut.held
        obtain ⟨after, pooled⟩ := newKeyPool_exists ideal.master run.newKeys held
        exact ⟨_, congrArg (Option.map _) pooled⟩

theorem Unencrypted.encryptWallet_exists (start : wallet.Unencrypted primitives)
    (ideal : primitives.Ideal run.vMasterKey) (derived : run.fDerived = true)
    (begun : run.fBegun = true) (committed : run.fCommitted = true) (passphrase : SecureString) :
    ∃ next, wallet.encryptWallet primitives passphrase run = some (true, next) := by
  obtain ⟨K', added, reached⟩ := start.reached
  have plain := (CCryptoKeyStore.held_run ideal.master
    (reaches_unencrypted (K := run.vMasterKey) reached rfl)).plain rfl
  have usable : CMasterKey.Usable { CMasterKey.new with
      vchSalt := run.vchSalt
      nDeriveIterations := CMasterKey.calibrate primitives run.nElapsed'
        (primitives.toUnsigned (2500000 / Float.ofInt run.nElapsed)) } :=
    ⟨run.vchSalt_length, rfl, CMasterKey.calibrate_rounds _ _⟩
  obtain ⟨vchCryptedKey, encrypted, -⟩ := ideal.opens run.vchSalt passphrase
    (CMasterKey.calibrate primitives run.nElapsed'
      (primitives.toUnsigned (2500000 / Float.ofInt run.nElapsed)))
  simp only [PassphraseWallet.encryptWallet, plain.fUseCrypto, Bool.false_eq_true, if_false,
    derived, usable.setKey_true, CCrypter.encrypt, CMasterKey.keyFrom, Bool.not_true, encrypted]
  apply start.encryptUnder_exists ideal _ begun committed
  exact ⟨⟨usable.salt, usable.method, usable.rounds⟩, encrypted⟩

theorem calls_lawful_iff {state : State} (intact : state.Intact primitives K)
    (ideal : primitives.Ideal K) (calls : List Call) :
    StepRuns.Each (step primitives) (Lawful primitives K) calls state ↔
      StepRuns.Each (step primitives) (ChangesSafely primitives) calls state :=
  @StepRuns.each_iff_each _ _ _ (State.Intact primitives K) _ _
    (fun _ _ intact => State.Intact.lawful_iff intact ideal)
    (fun _ _ _ intact safe taken => State.Intact.step intact ideal safe taken) _ _ intact

/-- From the encryption of a wallet with keys on, every call does what it may just as long as
every change of the passphrase succeeds or changes nothing. -/
theorem Unencrypted.runs_lawful_iff (start : wallet.Unencrypted primitives)
    (ideal : primitives.Ideal run.vMasterKey)
    (valid : ∀ key ∈ run.newKeys, primitives.toKeyPrimitives.Valid key)
    (ran : wallet.encryptWallet primitives passphrase run = some (true, next))
    (calls : List Call) :
    (next.Opens primitives run.vMasterKey passphrase ∧
      StepRuns.Each (step primitives) (Lawful primitives run.vMasterKey) calls
        { wallet := next, passphrase }) ↔
      StepRuns.Each (step primitives) (ChangesSafely primitives) calls
        { wallet := next, passphrase } := by
  have intact := start.encryptWallet ideal valid ran
  have opens : next.Opens primitives run.vMasterKey passphrase := by
    obtain ⟨id, kMasterKey, intact⟩ := intact
    exact intact.opens ideal
  rw [and_iff_right opens, calls_lawful_iff intact ideal]

end PassphraseWallet

/-- A text with its length before it, in the number of leading ones. -/
def marked (text : List UInt8) : List UInt8 := List.replicate text.length 1 ++ 0 :: text

theorem replicate_append_cons_inj {first second : Nat} {text other : List UInt8}
    (same : List.replicate first 1 ++ 0 :: text = List.replicate second 1 ++ 0 :: other) :
    first = second ∧ text = other := by
  induction first generalizing second with
  | zero =>
      cases second with
      | zero => simpa using same
      | succ second => simp [List.replicate_succ] at same
  | succ first ih =>
      cases second with
      | zero => simp [List.replicate_succ] at same
      | succ second =>
          simp only [List.replicate_succ, List.cons_append, List.cons.injEq, true_and] at same
          obtain ⟨rfl, rfl⟩ := ih same
          exact ⟨rfl, rfl⟩

theorem marked_append_inj {first second rest other : List UInt8}
    (same : marked first ++ rest = marked second ++ other) : first = second ∧ rest = other := by
  simp only [marked, List.append_assoc, List.cons_append] at same
  obtain ⟨length, texts⟩ := replicate_append_cons_inj same
  exact List.append_inj texts length

/-- A cipher that puts the key and the initialization vector before the text, and a derivation
that keeps all that it is given. -/
def samplePassphrases : PassphrasePrimitives where
  toKeyPrimitives := { samplePrimitives with
    encrypt := fun key iv text => some (marked key ++ (marked iv ++ text))
    decrypt := fun key iv text =>
      if (marked key ++ marked iv).isPrefixOf text then
        some (text.drop (marked key ++ marked iv).length)
      else none }
  bytesToKey := fun salt data rounds => (data, List.replicate rounds.toNat 1 ++ 0 :: salt)
  toUnsigned := Float.toUInt32

theorem samplePassphrases_decrypt (key iv text : List UInt8) :
    samplePassphrases.decrypt key iv (marked key ++ (marked iv ++ text)) = some text := by
  simp only [samplePassphrases, ← List.append_assoc]
  rw [if_pos (by simp), List.drop_left]

theorem samplePassphrases_decrypt_other {key iv key' iv' text out : List UInt8}
    (decrypted : samplePassphrases.decrypt key' iv' (marked key ++ (marked iv ++ text)) = some out) :
    key' = key ∧ iv' = iv := by
  simp only [samplePassphrases] at decrypted
  split at decrypted
  next begins =>
    obtain ⟨rest, same⟩ := List.isPrefixOf_iff_prefix.1 begins
    rw [List.append_assoc] at same
    obtain ⟨keys, others⟩ := marked_append_inj same
    exact ⟨keys, (marked_append_inj others).1⟩
  · contradiction

theorem samplePassphrases_ideal (K : CKeyingMaterial) (size : K.length = WALLET_CRYPTO_KEY_SIZE) :
    samplePassphrases.Ideal K where
  master := {
    inverts := by
      intro secret nIV
      refine ⟨marked K ++ (marked nIV ++ secret), if_neg (not_not.2 size), ?_⟩
      rw [KeyPrimitives.decryptSecret, if_neg (not_not.2 size)]
      exact samplePassphrases_decrypt K nIV secret
    others := by
      intro K' different secret pubkey vchCiphertext out key encrypted decrypted
      rw [KeyPrimitives.encryptSecret, if_neg (not_not.2 size)] at encrypted
      obtain rfl := Option.some.inj encrypted
      rw [KeyPrimitives.decryptSecret] at decrypted
      split at decrypted
      · contradiction
      · exact absurd (samplePassphrases_decrypt_other decrypted).1 different }
  opens := fun salt data rounds =>
    ⟨_, rfl, samplePassphrases_decrypt data (List.replicate rounds.toNat 1 ++ 0 :: salt) K⟩
  others := by
    intro salt data rounds salt' data' rounds' vchCiphertext K' different encrypted decrypted
    obtain rfl := Option.some.inj encrypted
    obtain ⟨sameData, sameIV⟩ := samplePassphrases_decrypt_other decrypted
    obtain ⟨sameRounds, sameSalt⟩ := replicate_append_cons_inj sameIV
    have datas : data' = data := sameData
    rw [datas, UInt32.toNat_inj.1 sameRounds, sameSalt] at different
    contradiction

namespace PassphraseWallet

def plainWallet : PassphraseWallet where
  store := (CCryptoKeyStore.empty.addKeyPubKey samplePrimitives sampleKey
    (samplePrimitives.getPubKey sampleKey)).2
  mapMasterKeys := ∅
  nMasterKeyMaxID := 0
  records := ∅

def plainEncryption : EncryptionRun where
  vMasterKey := List.replicate 32 1
  vchSalt := List.replicate 8 2
  vchSalt_length := rfl
  nElapsed := 100
  nElapsed' := 100
  fFirst := true
  fSecond := true
  fDerived := true
  fBegun := true
  fCommitted := true
  fUnlocked := fun _ => true
  newKeys := []

def plainChange : ChangeRun where
  fOld := fun _ => true
  fFirst := true
  fSecond := true
  fNew := true
  nElapsed := 100
  nElapsed' := 100

theorem plainWallet_unencrypted : plainWallet.Unencrypted samplePassphrases where
  reached := ⟨List.replicate 32 1, _, .addKeyPubKey .empty
    ⟨samplePrimitives_valid.size, samplePrimitives_valid.checked, samplePrimitives_valid.verifies⟩
    rfl⟩
  holds := by decide
  mapMasterKeys := rfl
  records := rfl

theorem plainWallet_encryptWallet (passphrase : SecureString) :
    ∃ next, plainWallet.encryptWallet samplePassphrases passphrase plainEncryption =
      some (true, next) :=
  plainWallet_unencrypted.encryptWallet_exists (samplePassphrases_ideal _ rfl) rfl rfl rfl
    passphrase

theorem runs_lawful_iff_plain :
    ∃ next, plainWallet.encryptWallet samplePassphrases [1] plainEncryption = some (true, next) ∧
      next.Opens samplePassphrases (List.replicate 32 1) [1] ∧
      StepRuns.Each (step samplePassphrases) (Lawful samplePassphrases (List.replicate 32 1))
        [.unlock [2] fun _ => true, .changeWalletPassphrase [1] [2] plainChange,
          .unlock [2] fun _ => true, .lock] { wallet := next, passphrase := [1] } := by
  obtain ⟨next, ran⟩ := plainWallet_encryptWallet [1]
  refine ⟨next, ran, (plainWallet_unencrypted.runs_lawful_iff
    (samplePassphrases_ideal _ rfl) (by simp [plainEncryption]) ran _).2 ?_⟩
  intro first unlocked
  refine ⟨nofun, ?_⟩
  intro second changed
  obtain ⟨result, -, rfl⟩ := Option.map_eq_some_iff.1 unlocked
  refine ⟨?_, fun third _ => ⟨nofun, fun last _ => ⟨nofun, trivial⟩⟩⟩
  rintro _ _ _ ⟨⟩ id kMasterKey _
  exact .inl ⟨rfl, rfl, rfl⟩

/-- A wrong passphrase for the change leaves a wallet locked that was unlocked. -/
theorem failed_change_locks :
    ∃ next, plainWallet.encryptWallet samplePassphrases [1] plainEncryption = some (true, next) ∧
      ¬ (next.Opens samplePassphrases (List.replicate 32 1) [1] ∧
        StepRuns.Each (step samplePassphrases) (Lawful samplePassphrases (List.replicate 32 1))
          [.unlock [1] fun _ => true, .changeWalletPassphrase [3] [2] plainChange]
          { wallet := next, passphrase := [1] }) := by
  obtain ⟨next, ran⟩ := plainWallet_encryptWallet [1]
  have ideal := samplePassphrases_ideal (List.replicate 32 1) rfl
  have intact : State.Intact samplePassphrases (List.replicate 32 1)
      { wallet := next, passphrase := [1] } :=
    plainWallet_unencrypted.encryptWallet ideal (by simp [plainEncryption]) ran
  refine ⟨next, ran, ?_⟩
  rintro ⟨-, lawful⟩
  obtain ⟨id, kMasterKey, intact⟩ := intact
  obtain ⟨result, ran', -, kept⟩ :=
    intact.unlock_lawful ideal [1] fun _ => true
  have unlocked : result.2.store.isLocked = false := by
    obtain rfl := Option.some.inj ((intact.unlock_eq ideal _).symm.trans ran')
    split
    · exact intact.opened_unlocked ideal
    next refused =>
      rw [← Bool.not_eq_true]
      exact fun locked => refused ⟨locked, rfl, rfl⟩
  obtain ⟨last, changed, -⟩ := @Intact.change_lawful _ _ _ _ { wallet := result.2, passphrase := [1] }
    kept ideal [3] [2] plainChange
  have second := (lawful _ (congrArg (Option.map _) ran')).2 _ (congrArg (Option.map _) changed)
  have intact' : State.Intact samplePassphrases (List.replicate 32 1)
      { wallet := result.2, passphrase := [1] } := ⟨id, kMasterKey, kept⟩
  rcases (State.Intact.lawful_iff intact' ideal).1 second.1 _ _ _ rfl id kMasterKey
    (kept.lookup.2 ⟨rfl, rfl⟩) with ⟨same, -⟩ | ⟨locked, -⟩ | ⟨-, same, -⟩
  · simp at same
  · exact Bool.false_ne_true (unlocked.symm.trans locked)
  · simp at same

end PassphraseWallet

end Lycancoin
