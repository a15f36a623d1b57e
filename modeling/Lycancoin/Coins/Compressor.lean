import Lycancoin.Primitives.RoundTrip
import Lycancoin.Primitives.VarInt
import Lycancoin.Script.SigOps

namespace Lycancoin

open Lycancoin.Data

/-- The operations of `CPubKey` that rest on the curve. -/
structure PubKeys where
  isFullyValid : List UInt8 → Bool
  /-- `Decompress`: the long form of a key, or none where the point does not exist. -/
  decompress : List UInt8 → Option (List UInt8)

/-- A valid key comes back from its first coordinate and the parity of its second. -/
def PubKeys.Recover (keys : PubKeys) : Prop :=
  ∀ pubkey, pubkey.length = 65 → pubkey.head? = some 4 → keys.isFullyValid pubkey = true →
    keys.decompress ((2 + (pubkey.getD 64 0 &&& 1)) :: (pubkey.drop 1).take 32) = some pubkey

namespace CScriptCompressor

open CScript

def nSpecialScripts : Nat := 6

def isToKeyID (script : CScript) : Option (List UInt8) :=
  if script.length = 25 ∧ script.take 3 = [OP_DUP, OP_HASH160, 20] ∧
      script.drop 23 = [OP_EQUALVERIFY, OP_CHECKSIG] then
    some ((script.drop 3).take 20)
  else none

def isToScriptID (script : CScript) : Option (List UInt8) :=
  if script.length = 23 ∧ script.take 2 = [OP_HASH160, 20] ∧ script.drop 22 = [OP_EQUAL] then
    some ((script.drop 2).take 20)
  else none

def isToPubKey (keys : PubKeys) (script : CScript) : Option (List UInt8) :=
  if script.length = 35 ∧ script.take 1 = [33] ∧ script.drop 34 = [OP_CHECKSIG] ∧
      (script[1]? = some 0x02 ∨ script[1]? = some 0x03) then
    some ((script.drop 1).take 33)
  else if script.length = 67 ∧ script.take 1 = [65] ∧ script.drop 66 = [OP_CHECKSIG] ∧
      script[1]? = some 0x04 then
    let pubkey := (script.drop 1).take 65
    -- a key that is not fully valid would not be compressible
    if keys.isFullyValid pubkey then some pubkey else none
  else none

def compressPubKey (pubkey : List UInt8) : Option (List UInt8) :=
  if pubkey[0]? = some 0x02 ∨ pubkey[0]? = some 0x03 then some (pubkey.take 33)
  else if pubkey[0]? = some 0x04 then
    some ((0x04 ||| (pubkey.getD 64 0 &&& 0x01)) :: (pubkey.drop 1).take 32)
  else none

def compress (keys : PubKeys) (script : CScript) : Option (List UInt8) :=
  match isToKeyID script with
  | some keyID => some (0x00 :: keyID)
  | none =>
    match isToScriptID script with
    | some scriptID => some (0x01 :: scriptID)
    | none => (isToPubKey keys script).bind compressPubKey

def getSpecialSize (nSize : Nat) : Nat :=
  if nSize = 0 ∨ nSize = 1 then 20
  else if nSize = 2 ∨ nSize = 3 ∨ nSize = 4 ∨ nSize = 5 then 32
  else 0

/-- `Decompress`; a key that cannot be recovered leaves the script as it is. -/
def decompress (keys : PubKeys) (nSize : Nat) (data : List UInt8) (script : CScript) : CScript :=
  match nSize with
  | 0x00 => [OP_DUP, OP_HASH160, 20] ++ data.take 20 ++ [OP_EQUALVERIFY, OP_CHECKSIG]
  | 0x01 => [OP_HASH160, 20] ++ data.take 20 ++ [OP_EQUAL]
  | 0x02 | 0x03 => [33, UInt8.ofNat nSize] ++ data.take 32 ++ [OP_CHECKSIG]
  | 0x04 | 0x05 =>
      match keys.decompress (UInt8.ofNat (nSize - 2) :: data.take 32) with
      | none => script
      | some pubkey => [65] ++ pubkey ++ [OP_CHECKSIG]
  | _ => script

/-- The number that stands for the length of a script; it is an `unsigned int`. -/
def codedSize (script : CScript) : Nat := (script.length + nSpecialScripts) % 2 ^ 32

def getSerializeSize (keys : PubKeys) (script : CScript) : Nat :=
  match compress keys script with
  | some compr => compr.length
  | none => script.length + getSizeOfVarInt (codedSize script)

def serialize (keys : PubKeys) (script : CScript) : List UInt8 :=
  match compress keys script with
  | some compr => compr
  | none => writeVarInt (codedSize script) ++ script

def unserialize (keys : PubKeys) (script : CScript) : ByteReader CScript := do
  let nSize ← unserializeVarUInt 32
  if nSize < nSpecialScripts then do
    let vch ← Reader.take .endOfData (getSpecialSize nSize)
    pure (decompress keys nSize vch script)
  else
    Reader.take .endOfData (nSize - nSpecialScripts)

theorem length_serialize (keys : PubKeys) (script : CScript) :
    (serialize keys script).length = getSerializeSize keys script := by
  unfold serialize getSerializeSize
  cases compress keys script with
  | none => rw [List.length_append, length_writeVarInt, Nat.add_comm]
  | some compr => rfl

end CScriptCompressor

namespace CTxOutCompressor

/-- Divides by ten as long as it can, at most as often as is left to do. -/
def stripZeros : Nat → Nat → Nat × Nat
  | 0, n => (n, 0)
  | left + 1, n =>
      if n % 10 = 0 then
        let stripped := stripZeros left (n / 10)
        (stripped.1, stripped.2 + 1)
      else (n, 0)

def compressAmount (n : Nat) : Nat :=
  if n = 0 then 0
  else
    let stripped := stripZeros 9 n
    let n := stripped.1
    let e := stripped.2
    if e < 9 then
      let d := n % 10
      let n := n / 10
      (1 + (n * 9 + d - 1) * 10 + e) % 2 ^ 64
    else (1 + (n - 1) * 10 + 9) % 2 ^ 64

def decompressAmount (x : Nat) : Nat :=
  if x = 0 then 0
  else
    let x := x - 1
    let e := x % 10
    let x := x / 10
    let n :=
      if e < 9 then
        let d := x % 9 + 1
        let x := x / 9
        x * 10 + d
      else x + 1
    n * 10 ^ e % 2 ^ 64

def compressedValue (txout : CTxOut) : Nat := compressAmount (BitVec.ofInt 64 txout.nValue).toNat

def getSerializeSize (keys : PubKeys) (txout : CTxOut) : Nat :=
  getSizeOfVarInt (compressedValue txout) +
    CScriptCompressor.getSerializeSize keys txout.scriptPubKey

def serialize (keys : PubKeys) (txout : CTxOut) : List UInt8 :=
  writeVarInt (compressedValue txout) ++ CScriptCompressor.serialize keys txout.scriptPubKey

/-- `Unserialize` into a given output. -/
def unserialize (keys : PubKeys) (txout : CTxOut) : ByteReader CTxOut := do
  let nVal ← unserializeVarUInt 64
  let nValue := (BitVec.ofNat 64 (decompressAmount nVal)).toInt
  let scriptPubKey ← CScriptCompressor.unserialize keys txout.scriptPubKey
  pure { nValue, scriptPubKey }

theorem length_serialize (keys : PubKeys) (txout : CTxOut) :
    (serialize keys txout).length = getSerializeSize keys txout := by
  rw [serialize, List.length_append, length_writeVarInt, CScriptCompressor.length_serialize,
    getSerializeSize]

end CTxOutCompressor

section Amounts

open CTxOutCompressor

theorem stripZeros_spec (left n : Nat) :
    (stripZeros left n).1 * 10 ^ (stripZeros left n).2 = n ∧ (stripZeros left n).2 ≤ left ∧
      ((stripZeros left n).2 < left → (stripZeros left n).1 % 10 ≠ 0) := by
  induction left generalizing n with
  | zero => simp [stripZeros]
  | succ left ih =>
      rw [stripZeros]
      split_ifs with divides
      · obtain ⟨value, bound, stops⟩ := ih (n / 10)
        simp only
        refine ⟨?_, by omega, fun few => stops (by omega)⟩
        rw [pow_succ, ← Nat.mul_assoc, value]
        omega
      · exact ⟨by simp, Nat.zero_le _, fun _ => divides⟩

theorem decompressAmount_compressAmount {n : Nat} (small : n ≤ 2 ^ 60) :
    decompressAmount (compressAmount n) = n := by
  by_cases zero : n = 0
  · rw [zero]
    rfl
  obtain ⟨value, bound, stops⟩ := stripZeros_spec 9 n
  generalize isStripped : stripZeros 9 n = stripped at value bound stops
  obtain ⟨m, e⟩ := stripped
  simp only at value bound stops
  have positive : 0 < 10 ^ e := Nat.pow_pos (by decide)
  have below : m ≤ n := by
    rw [← value]
    exact Nat.le_mul_of_pos_right m positive
  have some : m ≠ 0 := by
    intro none
    rw [none, Nat.zero_mul] at value
    exact zero value.symm
  rw [compressAmount, if_neg zero, isStripped]
  simp only
  split_ifs with few
  · have digit := stops few
    have fits : 1 + (m / 10 * 9 + m % 10 - 1) * 10 + e < 2 ^ 64 := by omega
    rw [Nat.mod_eq_of_lt fits, decompressAmount, if_neg (by omega)]
    have exponent : (1 + (m / 10 * 9 + m % 10 - 1) * 10 + e - 1) % 10 = e := by omega
    have quotient : (1 + (m / 10 * 9 + m % 10 - 1) * 10 + e - 1) / 10 =
        m / 10 * 9 + m % 10 - 1 := by omega
    have last : (m / 10 * 9 + m % 10 - 1) / 9 * 10 + ((m / 10 * 9 + m % 10 - 1) % 9 + 1) = m := by
      omega
    simp only [exponent, quotient, if_pos few, last, value]
    exact Nat.mod_eq_of_lt (by omega)
  · have nine : e = 9 := by omega
    have fits : 1 + (m - 1) * 10 + 9 < 2 ^ 64 := by
      rw [nine] at value
      omega
    rw [Nat.mod_eq_of_lt fits, decompressAmount, if_neg (by omega)]
    have exponent : (1 + (m - 1) * 10 + 9 - 1) % 10 = 9 := by omega
    have quotient : (1 + (m - 1) * 10 + 9 - 1) / 10 = m - 1 := by omega
    rw [nine] at value
    simp only [exponent, quotient, lt_self_iff_false, if_false,
      Nat.sub_add_cancel (by omega : 1 ≤ m), value]
    exact Nat.mod_eq_of_lt (by omega)

theorem compressAmount_lt (n : Nat) : compressAmount n < 2 ^ 64 := by
  unfold compressAmount
  split_ifs
  · decide
  · simp only
    split_ifs <;> exact Nat.mod_lt _ (by decide)

end Amounts

section Scripts

open CScript CScriptCompressor

variable {keys : PubKeys} {script : CScript} {compr : List UInt8}

theorem reads_small_code {code : Nat} (small : code < 128) :
    Reads (unserializeVarUInt 32) [UInt8.ofNat code] code := by
  have reads := reads_unserializeVarUInt (by omega : code < 2 ^ 32)
  rw [writeVarInt, varIntDigits_natCast, if_pos (by omega), List.nil_append,
    Nat.mod_eq_of_lt small] at reads
  have unmarked : UInt8.ofNat code ||| 0 = UInt8.ofNat code := by
    interval_cases code <;> rfl
  rwa [unmarked] at reads

theorem reads_special {code : Nat} {kept : List UInt8} {old : CScript}
    (special : code < nSpecialScripts) (length : kept.length = getSpecialSize code)
    (same : decompress keys code kept old = script) :
    Reads (unserialize keys old) (UInt8.ofNat code :: kept) script := by
  have small : code < 128 := by
    rw [nSpecialScripts] at special
    omega
  have taken : Reads (Reader.take ReadFailure.endOfData (getSpecialSize code)) kept kept := by
    rw [← length]
    exact Reads.take _ kept
  have body : Reads (if code < nSpecialScripts then do
      let vch ← Reader.take ReadFailure.endOfData (getSpecialSize code)
      pure (decompress keys code vch old)
    else Reader.take .endOfData (code - nSpecialScripts)) kept script := by
    rw [if_pos special, ← same]
    exact taken.bind_pure
  exact (reads_small_code small).bind body

theorem length_middle {bytes : List UInt8} {low size : Nat} (room : low + size ≤ bytes.length) :
    ((bytes.drop low).take size).length = size := by
  rw [List.length_take, List.length_drop]
  omega

theorem frame_eq {front back : List UInt8} {bytes : List UInt8} {low size : Nat}
    (isFront : bytes.take low = front) (isBack : bytes.drop (low + size) = back) :
    front ++ (bytes.drop low).take size ++ back = bytes := by
  rw [← isFront, ← isBack, ← List.drop_drop, List.append_assoc, List.take_append_drop,
    List.take_append_drop]

theorem reads_keyID {old : CScript} (found : isToKeyID script = some compr) :
    Reads (unserialize keys old) (0x00 :: compr) script := by
  rw [isToKeyID] at found
  split_ifs at found with isKeyID
  obtain ⟨length, front, back⟩ := isKeyID
  cases found
  apply reads_special (by decide)
  · exact length_middle (by omega)
  · rw [decompress, List.take_take]
    exact frame_eq front back

theorem reads_scriptID {old : CScript} (found : isToScriptID script = some compr) :
    Reads (unserialize keys old) (0x01 :: compr) script := by
  rw [isToScriptID] at found
  split_ifs at found with isScriptID
  obtain ⟨length, front, back⟩ := isScriptID
  cases found
  apply reads_special (by decide)
  · exact length_middle (by omega)
  · rw [decompress, List.take_take]
    exact frame_eq front back

theorem key_eq_cons {low size : Nat} {first : UInt8} (head : script[low]? = some first) :
    (script.drop low).take (size + 1) = first :: (script.drop (low + 1)).take size := by
  obtain ⟨bound, isFirst⟩ := List.getElem?_eq_some_iff.mp head
  rw [List.drop_eq_getElem_cons bound, isFirst, List.take_succ_cons]

theorem reads_shortKey {old : CScript} {first : UInt8} {code : Nat} (isCode : first = UInt8.ofNat code)
    (codes : code = 2 ∨ code = 3) (length : script.length = 35) (front : script.take 1 = [33])
    (back : script.drop 34 = [OP_CHECKSIG]) (head : script[1]? = some first) :
    Reads (unserialize keys old) ((script.drop 1).take 33) script := by
  have key : (script.drop 1).take 33 = first :: (script.drop 2).take 32 := key_eq_cons head
  have size : ((script.drop 2).take 32).length = 32 := length_middle (by omega)
  have whole : [33, first] ++ (script.drop 2).take 32 ++ [OP_CHECKSIG] = script := by
    have frame : [33] ++ (script.drop 1).take 33 ++ [OP_CHECKSIG] = script := frame_eq front back
    rw [key] at frame
    exact frame
  rw [key, isCode]
  apply reads_special
  · rw [nSpecialScripts]
    omega
  · rcases codes with rfl | rfl <;> exact size
  · rw [isCode] at whole
    rcases codes with rfl | rfl
    · rw [decompress, List.take_of_length_le size.le]
      exact whole
    · rw [decompress, List.take_of_length_le size.le]
      exact whole

theorem parity_code (last : UInt8) :
    ∃ code : Nat, (0x04 ||| (last &&& 0x01)) = UInt8.ofNat code ∧ (code = 4 ∨ code = 5) ∧
      UInt8.ofNat (code - 2) = 2 + (last &&& 1) := by
  have parity : last &&& 1 = 0 ∨ last &&& 1 = 1 := by
    have masked : (last &&& 1).toNat = last.toNat % 2 := by
      rw [UInt8.toNat_and]
      exact Nat.and_two_pow_sub_one_eq_mod _ 1
    rcases Nat.mod_two_eq_zero_or_one last.toNat with even | odd
    · exact Or.inl (UInt8.toNat_inj.mp (masked.trans even))
    · exact Or.inr (UInt8.toNat_inj.mp (masked.trans odd))
  rcases parity with even | odd
  · exact ⟨4, by rw [even]; rfl, Or.inl rfl, by rw [even]; rfl⟩
  · exact ⟨5, by rw [odd]; rfl, Or.inr rfl, by rw [odd]; rfl⟩

theorem reads_longKey {old : CScript} (recover : keys.Recover) (length : script.length = 67)
    (front : script.take 1 = [65]) (back : script.drop 66 = [OP_CHECKSIG])
    (head : script[1]? = some 0x04)
    (isValid : keys.isFullyValid ((script.drop 1).take 65) = true) :
    Reads (unserialize keys old)
      ((0x04 ||| (((script.drop 1).take 65).getD 64 0 &&& 0x01)) ::
        (((script.drop 1).take 65).drop 1).take 32) script := by
  have key : (script.drop 1).take 65 = 0x04 :: (script.drop 2).take 64 := key_eq_cons head
  have keyLength : ((script.drop 1).take 65).length = 65 := length_middle (by omega)
  have whole : [65] ++ (script.drop 1).take 65 ++ [OP_CHECKSIG] = script := frame_eq front back
  have recovered := recover _ keyLength (by rw [key]; rfl) isValid
  generalize (script.drop 1).take 65 = pubkey at keyLength whole recovered
  obtain ⟨code, isCode, codes, first⟩ := parity_code (pubkey.getD 64 0)
  have size : ((pubkey.drop 1).take 32).length = 32 := length_middle (by omega)
  rw [isCode]
  rw [← first] at recovered
  apply reads_special
  · rw [nSpecialScripts]
    omega
  · rcases codes with rfl | rfl <;> exact size
  · rcases codes with rfl | rfl
    · rw [decompress, List.take_of_length_le size.le, recovered]
      exact whole
    · rw [decompress, List.take_of_length_le size.le, recovered]
      exact whole

theorem reads_pubKey {old : CScript} {pubkey : List UInt8} (recover : keys.Recover)
    (found : isToPubKey keys script = some pubkey) (compressed : compressPubKey pubkey = some compr) :
    Reads (unserialize keys old) compr script := by
  rw [isToPubKey] at found
  simp only at found
  split_ifs at found with short long isValid
  · obtain ⟨length, front, back, head⟩ := short
    cases found
    rcases head with head | head
    all_goals
      have first : ((script.drop 1).take 33)[0]? = script[1]? := by simp
      rw [compressPubKey, first, head, if_pos (by simp), List.take_take] at compressed
      cases compressed
    · exact reads_shortKey rfl (Or.inl rfl) length front back head
    · exact reads_shortKey rfl (Or.inr rfl) length front back head
  · obtain ⟨length, front, back, head⟩ := long
    cases found
    have first : ((script.drop 1).take 65)[0]? = script[1]? := by simp
    rw [compressPubKey, first, head, if_neg (by decide), if_pos rfl] at compressed
    cases compressed
    exact reads_longKey recover length front back head isValid

theorem reads_compressed {old : CScript} (recover : keys.Recover)
    (compressed : compress keys script = some compr) :
    Reads (unserialize keys old) compr script := by
  rw [compress] at compressed
  cases keyID : isToKeyID script with
  | some found =>
      rw [keyID] at compressed
      cases compressed
      exact reads_keyID keyID
  | none =>
      rw [keyID] at compressed
      cases scriptID : isToScriptID script with
      | some found =>
          rw [scriptID] at compressed
          cases compressed
          exact reads_scriptID scriptID
      | none =>
          rw [scriptID] at compressed
          obtain ⟨pubkey, found, shortened⟩ := Option.bind_eq_some_iff.mp compressed
          exact reads_pubKey recover found shortened

theorem reads_script (recover : keys.Recover) (fits : script.length + nSpecialScripts < 2 ^ 32)
    (old : CScript) :
    Reads (CScriptCompressor.unserialize keys old) (CScriptCompressor.serialize keys script)
      script := by
  rw [CScriptCompressor.serialize]
  cases compressed : compress keys script with
  | some compr => exact reads_compressed recover compressed
  | none =>
      have coded : codedSize script = script.length + nSpecialScripts := Nat.mod_eq_of_lt fits
      have code := reads_unserializeVarUInt fits
      have body : Reads (if script.length + nSpecialScripts < nSpecialScripts then do
          let vch ← Reader.take ReadFailure.endOfData
            (getSpecialSize (script.length + nSpecialScripts))
          pure (decompress keys (script.length + nSpecialScripts) vch old)
        else Reader.take .endOfData (script.length + nSpecialScripts - nSpecialScripts))
          script script := by
        rw [if_neg (by omega), Nat.add_sub_cancel]
        exact Reads.take _ script
      rw [coded]
      exact code.bind body

end Scripts

section Outputs

variable {keys : PubKeys} {txout : CTxOut}

/-- What is kept of an output: its value is an amount and its length is not lost. -/
structure CTxOut.Compressible (txout : CTxOut) : Prop where
  nValue : moneyRange txout.nValue = true
  scriptPubKey : txout.scriptPubKey.length + CScriptCompressor.nSpecialScripts < 2 ^ 32

theorem reads_txOut (recover : keys.Recover) (fits : txout.Compressible) (old : CTxOut) :
    Reads (CTxOutCompressor.unserialize keys old) (CTxOutCompressor.serialize keys txout) txout := by
  obtain ⟨lower, upper⟩ := moneyRange_iff.mp fits.nValue
  have most : MAX_MONEY < 2 ^ 60 := by decide
  have value : ((BitVec.ofInt 64 txout.nValue).toNat : Int) = txout.nValue := by
    rw [BitVec.toNat_ofInt, Int.toNat_of_nonneg (Int.emod_nonneg _ (by decide))]
    exact Int.emod_eq_of_lt lower (by omega)
  have amount : Reads (unserializeVarUInt 64)
      (writeVarInt (CTxOutCompressor.compressedValue txout))
      (CTxOutCompressor.compressedValue txout) := reads_unserializeVarUInt (compressAmount_lt _)
  have restored : (BitVec.ofNat 64 (CTxOutCompressor.decompressAmount
      (CTxOutCompressor.compressedValue txout))).toInt = txout.nValue := by
    rw [CTxOutCompressor.compressedValue, decompressAmount_compressAmount (by omega),
      BitVec.toInt_ofNat', value]
    exact Int.bmod_eq_of_le (by omega) (by omega)
  have script := reads_script recover fits.scriptPubKey old.scriptPubKey
  have read : Reads (CTxOutCompressor.unserialize keys old)
      (CTxOutCompressor.serialize keys txout)
      { nValue := (BitVec.ofNat 64 (CTxOutCompressor.decompressAmount
          (CTxOutCompressor.compressedValue txout))).toInt
        scriptPubKey := txout.scriptPubKey } := amount.bind script.bind_pure
  rwa [restored] at read

end Outputs

section Samples

/-- The generator of the curve in its long form. -/
def generatorKey : List UInt8 := [
  0x04,
  0x79, 0xBE, 0x66, 0x7E, 0xF9, 0xDC, 0xBB, 0xAC, 0x55, 0xA0, 0x62, 0x95, 0xCE, 0x87, 0x0B, 0x07,
  0x02, 0x9B, 0xFC, 0xDB, 0x2D, 0xCE, 0x28, 0xD9, 0x59, 0xF2, 0x81, 0x5B, 0x16, 0xF8, 0x17, 0x98,
  0x48, 0x3A, 0xDA, 0x77, 0x26, 0xA3, 0xC4, 0x65, 0x5D, 0xA4, 0xFB, 0xFC, 0x0E, 0x11, 0x08, 0xA8,
  0xFD, 0x17, 0xB4, 0x48, 0xA6, 0x85, 0x54, 0x19, 0x9C, 0x47, 0xD0, 0x8F, 0xFB, 0x10, 0xD4, 0xB8]

def generatorScript : CScript := 65 :: generatorKey ++ [CScript.OP_CHECKSIG]

/-- The curve as far as its generator goes. -/
def generatorKeys : PubKeys where
  isFullyValid pubkey := pubkey == generatorKey
  decompress compr := if compr = 2 :: (generatorKey.drop 1).take 32 then some generatorKey else none

theorem generatorKeys_recover : generatorKeys.Recover := by
  intro pubkey _ _ isValid
  obtain rfl : pubkey = generatorKey := eq_of_beq isValid
  rfl

end Samples

end Lycancoin
