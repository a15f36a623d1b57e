import Lycancoin.Data.StepRuns
import Lycancoin.Script.SignatureEncoding
import Lycancoin.Wallet.CryptoKeyStore

namespace Lycancoin

open Lycancoin.Data

/-- The two curve libraries and the digests that the derivation rests on.  `none` is a call that
fails. -/
structure CurveLibrary where
  /-- `secp256k1_ec_pubkey_create`. -/
  pubkeyCreate : List UInt8 → Bool → List UInt8
  /-- `secp256k1_ec_privkey_tweak_add`. -/
  privkeyTweakAdd : List UInt8 → Vector UInt8 32 → Option (List UInt8)
  /-- The key inside `CECKey`. -/
  Point : Type
  setPubKey : List UInt8 → Option Point
  tweakPublic : Point → Vector UInt8 32 → Option Point
  getPubKey : Point → Bool → List UInt8
  /-- `CHMAC_SHA512` of all that is written. -/
  hmacSha512 : Vector UInt8 32 → List UInt8 → Vector UInt8 64
  hash160 : List UInt8 → Vector UInt8 20

/-- `memcpy` of a part of an array. -/
def slice {size : Nat} (bytes : Vector UInt8 size) (start count : Nat)
    (within : start + count ≤ size) : Vector UInt8 count :=
  Vector.ofFn fun i => bytes[start + i]

/-- The four bytes of a number, the highest first. -/
def numBytes (nChild : UInt32) : Vector UInt8 4 :=
  #v[(nChild >>> 24 &&& 0xFF).toUInt8, (nChild >>> 16 &&& 0xFF).toUInt8,
    (nChild >>> 8 &&& 0xFF).toUInt8, (nChild >>> 0 &&& 0xFF).toUInt8]

def readNum (code : Vector UInt8 4) : UInt32 :=
  code[0].toUInt32 <<< 24 ||| code[1].toUInt32 <<< 16 ||| code[2].toUInt32 <<< 8 ||| code[3].toUInt32

/-- Order of secp256k1's generator minus 1. -/
def vchMaxModOrder : List UInt8 :=
  [0xFF, 0xFF, 0xFF, 0xFF, 0xFF, 0xFF, 0xFF, 0xFF,
    0xFF, 0xFF, 0xFF, 0xFF, 0xFF, 0xFF, 0xFF, 0xFE,
    0xBA, 0xAE, 0xDC, 0xE6, 0xAF, 0x48, 0xA0, 0x3B,
    0xBF, 0xD2, 0x5E, 0x8C, 0xD0, 0x36, 0x41, 0x40]

def checkKey (vch : List UInt8) : Bool :=
  compareBigEndian vch [] == .gt && compareBigEndian vch vchMaxModOrder != .gt

namespace CPubKey

/-- The length of a public key with a given first byte. -/
def getLen (chHeader : UInt8) : Nat :=
  if chHeader = 2 ∨ chHeader = 3 then 33
  else if chHeader = 4 ∨ chHeader = 6 ∨ chHeader = 7 then 65
  else 0

/-- `Set`.  The key that is not valid has no bytes. -/
def set (bytes : List UInt8) : CPubKey :=
  let len := bytes.head?.elim 0 getLen
  if len ≠ 0 ∧ len = bytes.length then bytes else []

end CPubKey

variable (library : CurveLibrary)

def bip32Hash (chainCode : Vector UInt8 32) (nChild : UInt32) (header : UInt8) (data : List UInt8) :
    Vector UInt8 64 :=
  library.hmacSha512 chainCode ([header] ++ data ++ (numBytes nChild).toList)

/-- `CKey::GetPubKey` of a valid key.  There is no result where an assertion fails. -/
def CKey.getPubKey (key : CKey) : Option CPubKey :=
  let result := library.pubkeyCreate key.vch key.fCompressed
  if CPubKey.set result = result ∧ result ≠ [] then some result else none

/-- `CKey::Derive`.  The inner option is the child with its chain code, and there is none around
it where an assertion fails. -/
def CKey.derive (key : CKey) (nChild : UInt32) (cc : Vector UInt8 32) :
    Option (Option (CKey × Vector UInt8 32)) :=
  if key.fCompressed = false then none
  else do
    let out ←
      if nChild >>> 31 = 0 then
        match ← key.getPubKey library with
        | header :: data =>
            if data.length + 1 = 33 then some (bip32Hash library cc nChild header data) else none
        | [] => none
      else if key.vch.length = 32 then some (bip32Hash library cc nChild 0 key.vch)
      else none
    some ((library.privkeyTweakAdd key.vch (slice out 0 32 (by decide))).map fun vch =>
      ({ vch := vch, fCompressed := true }, slice out 32 32 (by decide)))

def CPubKey.derive (pubkey : CPubKey) (nChild : UInt32) (cc : Vector UInt8 32) :
    Option (Option (CPubKey × Vector UInt8 32)) :=
  match pubkey with
  | [] => none
  | header :: data =>
      if nChild >>> 31 ≠ 0 ∨ data.length + 1 ≠ 33 then none
      else
        let out := bip32Hash library cc nChild header data
        some (((library.setPubKey (header :: data)).bind fun point =>
          library.tweakPublic point (slice out 0 32 (by decide))).map fun point =>
            (CPubKey.set (library.getPubKey point true), slice out 32 32 (by decide)))

structure CExtKey where
  nDepth : UInt8
  vchFingerprint : Vector UInt8 4
  nChild : UInt32
  vchChainCode : Vector UInt8 32
  key : CKey

structure CExtPubKey where
  nDepth : UInt8
  vchFingerprint : Vector UInt8 4
  nChild : UInt32
  vchChainCode : Vector UInt8 32
  pubkey : CPubKey

namespace CExtKey

def derive (extended : CExtKey) (nChild : UInt32) : Option (Option CExtKey) := do
  let pubkey ← extended.key.getPubKey library
  let id := library.hash160 pubkey
  let result ← extended.key.derive library nChild extended.vchChainCode
  some (result.map fun (key, ccChild) =>
    { nDepth := extended.nDepth + 1
      vchFingerprint := slice id 0 4 (by decide)
      nChild := nChild
      vchChainCode := ccChild
      key := key })

def neuter (extended : CExtKey) : Option CExtPubKey :=
  (extended.key.getPubKey library).map fun pubkey =>
    { nDepth := extended.nDepth
      vchFingerprint := extended.vchFingerprint
      nChild := extended.nChild
      vchChainCode := extended.vchChainCode
      pubkey := pubkey }

def encode (extended : CExtKey) : Option (Vector UInt8 74) :=
  if size : extended.key.vch.length = 32 then
    some ⟨([extended.nDepth] ++ extended.vchFingerprint.toList ++
      (numBytes extended.nChild).toList ++ extended.vchChainCode.toList ++ [0] ++
        extended.key.vch).toArray, by simp [size]⟩
  else none

/-- `Decode`.  There is no key where the bytes are none. -/
def decode (code : Vector UInt8 74) : Option CExtKey :=
  let vch := (slice code 42 32 (by decide)).toList
  if checkKey vch then
    some
      { nDepth := code[0]
        vchFingerprint := slice code 1 4 (by decide)
        nChild := readNum (slice code 5 4 (by decide))
        vchChainCode := slice code 9 32 (by decide)
        key := { vch := vch, fCompressed := true } }
  else none

structure Valid (extended : CExtKey) : Prop where
  size : extended.key.vch.length = 32
  checked : checkKey extended.key.vch = true
  compressed : extended.key.fCompressed = true

end CExtKey

namespace CExtPubKey

def derive (extended : CExtPubKey) (nChild : UInt32) : Option (Option CExtPubKey) := do
  let id := library.hash160 extended.pubkey
  let result ← extended.pubkey.derive library nChild extended.vchChainCode
  some (result.map fun (pubkey, ccChild) =>
    { nDepth := extended.nDepth + 1
      vchFingerprint := slice id 0 4 (by decide)
      nChild := nChild
      vchChainCode := ccChild
      pubkey := pubkey })

def encode (extended : CExtPubKey) : Option (Vector UInt8 74) :=
  if size : extended.pubkey.length = 33 then
    some ⟨([extended.nDepth] ++ extended.vchFingerprint.toList ++
      (numBytes extended.nChild).toList ++ extended.vchChainCode.toList ++
        extended.pubkey).toArray, by simp [size]⟩
  else none

def decode (code : Vector UInt8 74) : CExtPubKey where
  nDepth := code[0]
  vchFingerprint := slice code 1 4 (by decide)
  nChild := readNum (slice code 5 4 (by decide))
  vchChainCode := slice code 9 32 (by decide)
  pubkey := CPubKey.set (slice code 41 33 (by decide)).toList

structure Valid (extended : CExtPubKey) : Prop where
  size : extended.pubkey.length = 33
  set : CPubKey.set extended.pubkey = extended.pubkey

end CExtPubKey

structure CurveLibrary.Correct (library : CurveLibrary) : Prop where
  pubkey : ∀ vch : List UInt8, vch.length = 32 → checkKey vch = true →
    (library.pubkeyCreate vch true).length = 33 ∧
      CPubKey.set (library.pubkeyCreate vch true) = library.pubkeyCreate vch true
  /-- A sum is a private key. -/
  tweaked : ∀ vch tweak child, vch.length = 32 → checkKey vch = true →
    library.privkeyTweakAdd vch tweak = some child → child.length = 32 ∧ checkKey child = true
  /-- The two tweaks fail together, and one gives the public key of the other. -/
  agree : ∀ vch tweak, vch.length = 32 → checkKey vch = true →
    ((library.setPubKey (library.pubkeyCreate vch true)).bind fun point =>
      library.tweakPublic point tweak).map (fun point => library.getPubKey point true) =
        (library.privkeyTweakAdd vch tweak).map fun child => library.pubkeyCreate child true

/-! ## The 74 bytes -/

theorem readNum_numBytes (nChild : UInt32) : readNum (numBytes nChild) = nChild := by
  have low : ∀ word : BitVec 32, word % 256#32 = word &&& 255#32 := by
    intro word
    apply BitVec.eq_of_toNat_eq
    rw [BitVec.toNat_umod, BitVec.toNat_and]
    exact (Nat.and_two_pow_sub_one_eq_mod _ 8).symm
  have ones : ∀ k, (255#32).getLsbD k = decide (k < 8) := fun k => Nat.testBit_two_pow_sub_one 8 k
  have onesAt : ∀ k (inside : k < 32), (255#32)[k] = decide (k < 8) := by
    intro k inside
    rw [← BitVec.getLsbD_eq_getElem, ones]
  apply UInt32.eq_of_toBitVec_eq
  apply BitVec.eq_of_getLsbD_eq
  intro i within
  have back : ∀ start ≤ i, start + (i - start) = i := by omega
  simp only [readNum, numBytes]
  -- each bit lies in one of the four bytes
  by_cases first : i < 8
  · simp [low, onesAt, first, within, show i < 16 by omega, show i < 24 by omega]
  by_cases second : i < 16
  · simp [low, onesAt, first, second, within, show i < 24 by omega, back 8 (by omega),
      show i - 8 < 8 by omega]
  by_cases third : i < 24
  · simp [low, onesAt, first, second, third, within, back 16 (by omega), show ¬ i - 8 < 8 by omega,
      show i - 16 < 8 by omega]
  · simp [low, onesAt, first, second, third, within, back 24 (by omega), show ¬ i - 8 < 8 by omega,
      show ¬ i - 16 < 8 by omega, show i - 24 < 8 by omega]

theorem slice_eq {size start count : Nat} {bytes : Vector UInt8 size} {middle : Vector UInt8 count}
    {front back : List UInt8} (parts : bytes.toList = front ++ middle.toList ++ back)
    (length : front.length = start) (within : start + count ≤ size) :
    slice bytes start count within = middle := by
  subst length
  apply Vector.ext
  intro i inside
  have place : bytes.toList[front.length + i]? = middle.toList[i]? := by
    rw [parts, List.append_assoc, List.getElem?_append_right (Nat.le_add_right _ _),
      Nat.add_sub_cancel_left, List.getElem?_append_left (by rw [Vector.length_toList]; exact inside)]
  rw [Vector.getElem?_toList, Vector.getElem?_toList, Vector.getElem?_eq_getElem (by omega),
    Vector.getElem?_eq_getElem inside] at place
  rw [slice, Vector.getElem_ofFn]
  exact Option.some.inj place

theorem head_parts {code : Vector UInt8 74} {nDepth : UInt8} {vchFingerprint : Vector UInt8 4}
    {nChild : UInt32} {vchChainCode : Vector UInt8 32} {data : List UInt8}
    (parts : code.toList = [nDepth] ++ vchFingerprint.toList ++ (numBytes nChild).toList ++
      vchChainCode.toList ++ data) :
    code[0] = nDepth ∧ slice code 1 4 (by decide) = vchFingerprint ∧
      readNum (slice code 5 4 (by decide)) = nChild ∧
      slice code 9 32 (by decide) = vchChainCode := by
  refine ⟨?_, ?_, ?_, ?_⟩
  · have first : code.toList[0]? = some nDepth := by simp [parts]
    simpa using first
  · exact slice_eq (by simpa using parts) (show [nDepth].length = 1 from rfl) _
  · have num : slice code 5 4 (by decide) = numBytes nChild :=
      slice_eq (by simpa using parts)
        (show ([nDepth] ++ vchFingerprint.toList).length = 5 by simp) _
    rw [num, readNum_numBytes]
  · exact slice_eq (by simpa using parts)
      (show ([nDepth] ++ vchFingerprint.toList ++ (numBytes nChild).toList).length = 9 by simp) _

theorem CExtKey.decode_encode {extended : CExtKey} (valid : extended.Valid) :
    ∃ code, extended.encode = some code ∧ CExtKey.decode code = some extended := by
  obtain ⟨nDepth, vchFingerprint, nChild, vchChainCode, vch, fCompressed⟩ := extended
  obtain ⟨size, checked, rfl⟩ := valid
  refine ⟨_, dif_pos size, ?_⟩
  generalize isCode : (⟨_, _⟩ : Vector UInt8 74) = code
  have parts : code.toList = [nDepth] ++ vchFingerprint.toList ++ (numBytes nChild).toList ++
      vchChainCode.toList ++ ([0] ++ vch) := by
    rw [← isCode]
    simp
  obtain ⟨depth, fingerprint, child, chainCode⟩ := head_parts parts
  have key : (slice code 42 32 (by decide)).toList = vch := by
    have same := @slice_eq 74 42 32 code ⟨vch.toArray, by simpa using size⟩
      ([nDepth] ++ vchFingerprint.toList ++ (numBytes nChild).toList ++ vchChainCode.toList ++ [0])
      [] (by simpa using parts) (by simp) (by decide)
    rw [same]
    rfl
  rw [CExtKey.decode]
  simp only [key, depth, fingerprint, child, chainCode]
  exact if_pos checked

theorem CExtPubKey.decode_encode {extended : CExtPubKey} (valid : extended.Valid) :
    ∃ code, extended.encode = some code ∧ CExtPubKey.decode code = extended := by
  obtain ⟨nDepth, vchFingerprint, nChild, vchChainCode, pubkey⟩ := extended
  obtain ⟨size, set⟩ := valid
  refine ⟨_, dif_pos size, ?_⟩
  generalize isCode : (⟨_, _⟩ : Vector UInt8 74) = code
  have parts : code.toList = [nDepth] ++ vchFingerprint.toList ++ (numBytes nChild).toList ++
      vchChainCode.toList ++ pubkey := by
    rw [← isCode]
    simp
  obtain ⟨depth, fingerprint, child, chainCode⟩ := head_parts parts
  have key : (slice code 41 33 (by decide)).toList = pubkey := by
    have same := @slice_eq 74 41 33 code ⟨pubkey.toArray, by simpa using size⟩
      ([nDepth] ++ vchFingerprint.toList ++ (numBytes nChild).toList ++ vchChainCode.toList)
      [] (by simpa using parts) (by simp) (by decide)
    rw [same]
    rfl
  rw [CExtPubKey.decode]
  simp only [key, depth, fingerprint, child, chainCode, set]

/-! ## The two derivations -/

variable {library : CurveLibrary}

theorem CKey.getPubKey_of_valid (correct : library.Correct) {key : CKey} (size : key.vch.length = 32)
    (checked : checkKey key.vch = true) (compressed : key.fCompressed = true) :
    key.getPubKey library = some (library.pubkeyCreate key.vch true) ∧
      ∃ header data, library.pubkeyCreate key.vch true = header :: data ∧ data.length + 1 = 33 := by
  obtain ⟨length, set⟩ := correct.pubkey key.vch size checked
  have nonempty : library.pubkeyCreate key.vch true ≠ [] := by
    intro none
    rw [none] at length
    cases length
  constructor
  · rw [CKey.getPubKey, compressed]
    exact if_pos ⟨set, nonempty⟩
  · obtain ⟨header, data, parts⟩ := List.exists_cons_of_ne_nil nonempty
    rw [parts] at length
    exact ⟨header, data, parts, length⟩

/-- One side is the other's public part. -/
def Neutered (library : CurveLibrary) (extended : CExtKey) (other : CExtPubKey) : Prop :=
  extended.Valid ∧ extended.neuter library = some other

theorem Neutered.derive (correct : library.Correct) {extended : CExtKey} {other : CExtPubKey}
    {nChild : UInt32} (neutered : Neutered library extended other) (plain : nChild >>> 31 = 0) :
    ∃ result otherResult, extended.derive library nChild = some result ∧
      other.derive library nChild = some otherResult ∧
      Option.Rel (Neutered library) result otherResult := by
  obtain ⟨valid, isOther⟩ := neutered
  obtain ⟨isPubKey, header, data, parts, length⟩ :=
    CKey.getPubKey_of_valid correct valid.size valid.checked valid.compressed
  rw [CExtKey.neuter, isPubKey, Option.map_some, Option.some.injEq] at isOther
  have agree := fun tweak => correct.agree extended.key.vch tweak valid.size valid.checked
  rw [parts] at isPubKey isOther agree
  subst isOther
  generalize isOut : bip32Hash library extended.vchChainCode nChild header data = out
  have derived : extended.key.derive library nChild extended.vchChainCode =
      some ((library.privkeyTweakAdd extended.key.vch (slice out 0 32 (by decide))).map
        fun vch => ({ vch := vch, fCompressed := true }, slice out 32 32 (by decide))) := by
    rw [CKey.derive, if_neg (by simp [valid.compressed]), if_pos plain, isPubKey]
    simp [show data.length = 32 by omega, isOut]
  have derivedPublic : CPubKey.derive library (header :: data) nChild extended.vchChainCode =
      some (((library.setPubKey (header :: data)).bind fun point =>
        library.tweakPublic point (slice out 0 32 (by decide))).map fun point =>
          (CPubKey.set (library.getPubKey point true), slice out 32 32 (by decide))) := by
    rw [CPubKey.derive, if_neg (by simp [plain, length]), isOut]
  have agrees := agree (slice out 0 32 (by decide))
  rw [CExtKey.derive, isPubKey, CExtPubKey.derive]
  simp only [Option.bind_eq_bind, Option.bind_some, derived, derivedPublic]
  cases tweaked : library.privkeyTweakAdd extended.key.vch (slice out 0 32 (by decide)) with
  | none =>
      rw [tweaked, Option.map_none, Option.map_eq_none_iff] at agrees
      rw [agrees]
      exact ⟨none, none, rfl, rfl, .none⟩
  | some vch =>
      obtain ⟨size, checked⟩ := correct.tweaked _ _ _ valid.size valid.checked tweaked
      rw [tweaked, Option.map_some] at agrees
      obtain ⟨point, isPoint, same⟩ := Option.map_eq_some_iff.mp agrees
      rw [isPoint]
      refine ⟨_, _, rfl, rfl, .some ⟨⟨size, checked, rfl⟩, ?_⟩⟩
      have child : CKey.getPubKey library { vch := vch, fCompressed := true } =
          some (library.pubkeyCreate vch true) :=
        (CKey.getPubKey_of_valid correct size checked rfl).1
      rw [CExtKey.neuter, child]
      simp only [Option.map_some, same, (correct.pubkey vch size checked).2]

theorem neuter_derive (correct : library.Correct) {extended : CExtKey} (valid : extended.Valid)
    {path : List UInt32} (plain : ∀ nChild ∈ path, nChild >>> 31 = 0) :
    ∃ neutered result otherResult, extended.neuter library = some neutered ∧
      StepRuns.tryAll (CExtKey.derive library) path extended = some result ∧
      StepRuns.tryAll (CExtPubKey.derive library) path neutered = some otherResult ∧
      Option.Rel (Neutered library) result otherResult := by
  have pubkey := (CKey.getPubKey_of_valid correct valid.size valid.checked valid.compressed).1
  obtain ⟨neutered, isNeutered⟩ : ∃ neutered, extended.neuter library = some neutered := by
    rw [CExtKey.neuter, pubkey]
    exact ⟨_, rfl⟩
  have start : Neutered library extended neutered := ⟨valid, isNeutered⟩
  obtain ⟨result, otherResult, derived, otherDerived, both⟩ :=
    @StepRuns.tryAll_rel _ _ _ (CExtKey.derive library) (CExtPubKey.derive library)
      (Neutered library) (fun nChild => nChild >>> 31 = 0)
      (fun _ _ _ related allowed => related.derive correct allowed) path plain _ _ start
  exact ⟨neutered, result, otherResult, isNeutered, derived, otherDerived, both⟩

/-- Where the curve is right, the public keys that are derived from the public key are those of the
private keys, and every extended key is read back. -/
theorem ext_key_exact (correct : library.Correct) :
    (∀ (extended : CExtKey) (path : List UInt32), extended.Valid →
      (∀ nChild ∈ path, nChild >>> 31 = 0) →
      ∃ neutered result otherResult, extended.neuter library = some neutered ∧
        StepRuns.tryAll (CExtKey.derive library) path extended = some result ∧
        StepRuns.tryAll (CExtPubKey.derive library) path neutered = some otherResult ∧
        Option.Rel (Neutered library) result otherResult) ∧
    (∀ extended : CExtKey, extended.Valid →
      ∃ code, extended.encode = some code ∧ CExtKey.decode code = some extended) ∧
    ∀ extended : CExtPubKey, extended.Valid →
      ∃ code, extended.encode = some code ∧ CExtPubKey.decode code = extended :=
  ⟨fun _ _ valid plain => neuter_derive correct valid plain,
    fun _ valid => CExtKey.decode_encode valid, fun _ valid => CExtPubKey.decode_encode valid⟩

/-! ## A derivation -/

/-- A number in bytes, the highest first. -/
def beBytes (size value : Nat) : Vector UInt8 size :=
  Vector.ofFn fun i => UInt8.ofNat (value >>> (8 * (size - 1 - i)))

namespace FirstVector

/-- The private key of the first hardened child of the first test vector. -/
def secret : List UInt8 :=
  (beBytes 32 0xedb2e14f9ee77d26dd93b4ecede8d16ed408ce149b6cd80b0715a2d911a0afea).toList

def chainCode : Vector UInt8 32 :=
  beBytes 32 0x47fdacbd0f1097043b78c63c20c34ef4ed9a111d980047ad16282c7ae6236141

def pubkey : List UInt8 :=
  (beBytes 33 0x035a784662a4a20a65bf6aab9ae98a6c068a81c52e4b032c0fb5400c706cfccc56).toList

/-- What is hashed into its second child, and the child. -/
def tweak : Vector UInt8 32 :=
  beBytes 32 0x4eb9d78157bae7a24115001621c4d91e3a3110e11e143c5259eaa4e55c5ec4bf

def digest : Vector UInt8 64 :=
  tweak ++ beBytes 32 0x2a7857631386ba23dacac34180dd1983734e444fdbf774041578e9b6adb37c19

def childSecret : List UInt8 :=
  (beBytes 32 0x3c6cb8d0f6a264c91ea8b5030fadaa8e538b020f0a387421a12de9319dc93368).toList

def childPubkey : List UInt8 :=
  (beBytes 33 0x03501e454bf00751f24b1b489aa925215d66af2234e3891c3b21a52bedb3cd711c).toList

/-- The curve on these keys.  No other tweak succeeds. -/
def curve : CurveLibrary where
  pubkeyCreate vch _ := if vch = secret then pubkey else if vch = childSecret then childPubkey
    else 2 :: vch
  privkeyTweakAdd vch vchTweak := if vch = secret ∧ vchTweak = tweak then some childSecret else none
  Point := List UInt8
  setPubKey := some
  tweakPublic point vchTweak := if point = pubkey ∧ vchTweak = tweak then some childPubkey else none
  getPubKey point _ := point
  hmacSha512 code message :=
    if code = chainCode ∧ message = pubkey ++ [0, 0, 0, 1] then digest else Vector.replicate 64 0
  hash160 bytes := if bytes = pubkey then beBytes 20 0x5c1bd648ed23aa5fd50ba52b2457c11e9e80a6a7
    else Vector.replicate 20 0

theorem curve_correct : curve.Correct where
  pubkey := by
    intro vch size _
    simp only [curve]
    split_ifs with isSecret isChild
    · decide
    · decide
    · exact ⟨by simp [size], by simp [CPubKey.set, CPubKey.getLen, size]⟩
  tweaked := by
    intro vch vchTweak child _ _ tweaked
    simp only [curve, Option.ite_none_right_eq_some, Option.some.injEq] at tweaked
    rw [← tweaked.2]
    decide
  agree := by
    intro vch vchTweak _ _
    have child : childPubkey ≠ pubkey := by decide
    have other : ∀ vch : List UInt8, 2 :: vch ≠ pubkey := by
      intro vch same
      have header : some (2 : UInt8) = some 3 := congrArg List.head? same
      exact absurd header (by decide)
    have create : curve.pubkeyCreate vch true = pubkey ↔ vch = secret := by
      simp only [curve]
      split_ifs with isSecret isChild
      · simp [isSecret]
      · simp [isSecret, child]
      · simp [isSecret, other]
    by_cases both : vch = secret ∧ vchTweak = tweak
    · rw [both.1, both.2]
      decide
    · have otherPoint : ¬(curve.pubkeyCreate vch true = pubkey ∧ vchTweak = tweak) := by
        rw [create]
        exact both
      have left : curve.privkeyTweakAdd vch vchTweak = none := if_neg both
      have right : ((curve.setPubKey (curve.pubkeyCreate vch true)).bind fun point =>
          curve.tweakPublic point vchTweak) = none := if_neg otherPoint
      rw [left, right]
      rfl

/-- The first hardened child. -/
def extended : CExtKey where
  nDepth := 1
  vchFingerprint := beBytes 4 0x3442193e
  nChild := 0x80000000
  vchChainCode := chainCode
  key := { vch := secret, fCompressed := true }

end FirstVector

theorem ext_key_exact_first_vector :
    ∃ neutered child other, FirstVector.extended.neuter FirstVector.curve = some neutered ∧
      StepRuns.tryAll (CExtKey.derive FirstVector.curve) [1] FirstVector.extended =
        some (some child) ∧
      StepRuns.tryAll (CExtPubKey.derive FirstVector.curve) [1] neutered = some (some other) ∧
      child.neuter FirstVector.curve = some other := by
  have valid : FirstVector.extended.Valid := ⟨by decide, by decide, rfl⟩
  have plain : ∀ nChild ∈ [(1 : UInt32)], nChild >>> 31 = 0 := by
    intro nChild member
    rw [List.mem_singleton.mp member]
    rfl
  obtain ⟨neutered, result, otherResult, isNeutered, derived, otherDerived, both⟩ :=
    (ext_key_exact FirstVector.curve_correct).1 FirstVector.extended [1] valid plain
  have succeeds : result.isSome = true := by
    have derives : (StepRuns.tryAll (CExtKey.derive FirstVector.curve) [1]
      FirstVector.extended).elim false Option.isSome = true := by decide
    rw [derived] at derives
    exact derives
  cases both with
  | none => cases succeeds
  | some both => exact ⟨neutered, _, _, isNeutered, derived, otherDerived, both.2⟩

end Lycancoin
