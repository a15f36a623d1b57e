import Lycancoin.Net.NetAddr

namespace Lycancoin

def CNetAddr.isIPv6 (addr : CNetAddr) : Bool := !addr.isIPv4 && !addr.isTor

def cStr (str : List Char) : List Char := str.takeWhile (· ≠ '\x00')

/-- What `strtol` reads in a string of base ten, none where characters are left over: space, a sign
and digits.  Where there are no digits nothing is read. -/
def strtol (str : List Char) : Option Int :=
  let body := str.dropWhile fun char => char = ' ' || ('\t' ≤ char && char ≤ '\r')
  let (negative, digits) :=
    match body with
    | '-' :: digits => (true, digits)
    | '+' :: digits => (false, digits)
    | _ => (false, body)
  if digits = [] || !digits.all Char.isDigit then
    if str = [] then some 0 else none
  else
    let value : Int := Nat.ofDigitChars 10 digits 0
    some (if negative then -value else value)

def parseInt32 (str : List Char) : Option Int :=
  (strtol (cStr str)).filter fun n => decide (-2 ^ 31 ≤ n ∧ n ≤ 2 ^ 31 - 1)

/-- The resolver: `DecodeBase32` and the addresses that `getaddrinfo` lists for a name, where
looking it up is allowed or not. -/
structure Resolver where
  decodeBase32 : List Char → List UInt8
  getaddrinfo : List Char → Bool → List CNetAddr

namespace Resolver

def setSpecial (resolver : Resolver) (strName : List Char) : Option CNetAddr :=
  if strName.length > 6 ∧ strName.drop (strName.length - 6) = ".onion".toList then
    let vchAddr := resolver.decodeBase32 (strName.take (strName.length - 6))
    if vchAddr.length ≠ 10 then none
    else some ⟨BitVec.ofNat 128
      (vchAddr.foldl (fun value byte => value * 256 + byte.toNat) 0xFD87D87EEB43)⟩
  else none

def lookupIntern (resolver : Resolver) (pszName : List Char) (fAllowLookup : Bool) :
    Option CNetAddr :=
  match resolver.setSpecial pszName with
  | some addr => some addr
  | none => (resolver.getaddrinfo pszName fAllowLookup).head?

def lookupHost (resolver : Resolver) (pszName : List Char) (fAllowLookup : Bool) :
    Option CNetAddr :=
  let strHost := cStr pszName
  if strHost = [] then none
  else if strHost.head? = some '[' ∧ strHost.getLast? = some ']' then
    resolver.lookupIntern ((strHost.drop 1).take (strHost.length - 2)) fAllowLookup
  else resolver.lookupIntern strHost fAllowLookup

end Resolver

/-- A string in front of its last slash, and behind it where there is one. -/
def splitAtSlash (str : List Char) : List Char × Option (List Char) :=
  match str.reverse.dropWhile (· ≠ '/') with
  | [] => (str, none)
  | _ :: front => (front.reverse, some (str.reverse.takeWhile (· ≠ '/')).reverse)

/-- `CSubNet`, with the 16 bytes of the netmask. -/
structure CSubNet where
  network : CNetAddr
  netmask : List UInt8
  valid : Bool
deriving DecidableEq

namespace CSubNet

/-- The loop that clears the bits from `n` on. -/
def clearBits (n : Nat) (netmask : List UInt8) : List UInt8 :=
  (List.range' n (128 - n)).foldl
    (fun netmask n =>
      netmask.modify (n >>> 3) fun byte => byte &&& ~~~((1 : UInt8) <<< UInt8.ofNat (n &&& 7)))
    netmask

/-- The loop that copies the last bytes of an address. -/
def copyMask (addr : CNetAddr) (asize : Nat) (netmask : List UInt8) : List UInt8 :=
  (List.range asize).foldl (fun netmask x => netmask.set (15 - x) (UInt8.ofNat (addr.getByte x)))
    netmask

def ofString (resolver : Resolver) (strSubnet : List Char) (fAllowLookup : Bool) : CSubNet :=
  let netmask := List.replicate 16 255
  let (strAddress, slash) := splitAtSlash strSubnet
  match resolver.lookupHost strAddress fAllowLookup with
  | none => { network := ⟨0⟩, netmask, valid := false }
  | some network =>
      match slash with
      | none => { network, netmask, valid := true }
      | some strNetmask =>
          let noffset : Nat := if network.isIPv4 then 12 * 8 else 0
          match parseInt32 strNetmask with
          | some n =>
              if n ≥ 0 ∧ n ≤ 128 - noffset then
                { network, netmask := clearBits (n.toNat + noffset) netmask, valid := true }
              else { network, netmask, valid := false }
          | none =>
              match resolver.lookupHost strNetmask false with
              | some addr =>
                  { network, netmask := copyMask addr (if network.isIPv4 then 4 else 16) netmask
                    valid := true }
              | none => { network, netmask, valid := false }

def matchAddr (subnet : CSubNet) (addr : CNetAddr) : Bool :=
  subnet.valid && addr.isValid &&
    (List.range 16).all fun x =>
      addr.getByte x &&& (subnet.netmask.getD (15 - x) 0).toNat == subnet.network.getByte x

end CSubNet

namespace CNetAddr

def bits (addr : CNetAddr) : Nat := if addr.isIPv4 then 32 else 128

/-- Where the bits of the family start among all. -/
def offset (addr : CNetAddr) : Nat := 128 - addr.bits

def Agrees (n : Nat) (first second : CNetAddr) : Prop :=
  ∀ i < n, first.ip.getMsbD (first.offset + i) = second.ip.getMsbD (first.offset + i)

def SameFamily (first second : CNetAddr) : Prop :=
  (first.isIPv4 = true ∧ second.isIPv4 = true) ∨ (first.isIPv6 = true ∧ second.isIPv6 = true)

/-- The bits behind the first ones are zero. -/
def HostZero (n : Nat) (addr : CNetAddr) : Prop :=
  ∀ i, addr.offset + n ≤ i → i < 128 → addr.ip.getMsbD i = false

/-- The netmask of a prefix as an address of the family. -/
def maskAddress (addr : CNetAddr) (n : Nat) : CNetAddr where
  ip :=
    if addr.isIPv4 then (0xffff : BitVec 96) ++ ~~~(BitVec.allOnes 32 >>> n)
    else ~~~(BitVec.allOnes 128 >>> n)

theorem testBit_getByte (addr : CNetAddr) (x j : Nat) :
    (addr.getByte x).testBit j = (decide (j < 8) && addr.ip.getLsbD (8 * x + j)) := by
  rw [getByte, BitVec.testBit_toNat, BitVec.getLsbD_extractLsb']

theorem testBit_getByte_place (addr : CNetAddr) {p : Nat} (inside : p < 128) :
    (addr.getByte (15 - p / 8)).testBit (7 - p % 8) = addr.ip.getMsbD p := by
  rw [testBit_getByte, BitVec.getMsbD_eq_getLsbD,
    show 8 * (15 - p / 8) + (7 - p % 8) = 128 - 1 - p by omega]
  simp [inside]
  omega

theorem getMsbD_maskAddress (addr : CNetAddr) {n p : Nat} (inside : p < 128)
    (own : addr.offset ≤ p) :
    (addr.maskAddress n).ip.getMsbD p = decide (p < addr.offset + n) := by
  have shifted : ∀ {w p : Nat}, p < w →
      (~~~(BitVec.allOnes w >>> n)).getMsbD p = decide (p < n) := by
    intro w p inside
    rw [BitVec.getMsbD_not, BitVec.getMsbD_ushiftRight, BitVec.getMsbD_allOnes]
    by_cases low : p < n
    · simp [inside, low]
    · have less : p - n < w := by omega
      simp [inside, low, less]
  unfold maskAddress offset bits at *
  by_cases isIPv4 : addr.isIPv4
  · simp only [isIPv4, if_true] at own ⊢
    rw [BitVec.getMsbD_append, if_pos own, shifted (by omega)]
    simp only [decide_eq_decide]
    omega
  · simp only [isIPv4, Bool.false_eq_true, if_false] at own ⊢
    rw [shifted inside]
    simp

theorem getMsbD_of_isIPv4 {addr : CNetAddr} (isIPv4 : addr.isIPv4 = true) {p : Nat} (low : p < 96) :
    addr.ip.getMsbD p = Nat.testBit 0xffff (95 - p) := by
  have front : addr.ip.toNat >>> 32 = 0xffff := by
    simpa [CNetAddr.isIPv4, startsWith] using isIPv4
  rw [← front, Nat.testBit_shiftRight, BitVec.getMsbD_eq_getLsbD, ← BitVec.testBit_toNat,
    show 32 + (95 - p) = 128 - 1 - p by omega]
  simp
  omega

theorem offset_add_bits (addr : CNetAddr) :
    addr.offset + addr.bits = 128 ∧ addr.offset % 8 = 0 := by
  unfold offset bits
  split <;> decide

/-- In front of the bits of the family two addresses do not differ. -/
theorem SameFamily.front {first second : CNetAddr} (family : first.SameFamily second) {p : Nat}
    (low : p < first.offset) : first.ip.getMsbD p = second.ip.getMsbD p := by
  obtain ⟨first4, second4⟩ | ⟨first6, second6⟩ := family
  · have small : p < 96 := by simpa [offset, CNetAddr.bits, first4] using low
    rw [getMsbD_of_isIPv4 first4 small, getMsbD_of_isIPv4 second4 small]
  · have first4 : first.isIPv4 = false := by
      unfold isIPv6 at first6
      simp only [Bool.and_eq_true, Bool.not_eq_true'] at first6
      exact first6.1
    simp [offset, CNetAddr.bits, first4] at low

theorem SameFamily.agrees_iff {first second : CNetAddr} (family : first.SameFamily second)
    {n : Nat} : first.Agrees n second ↔
      ∀ p < first.offset + n, first.ip.getMsbD p = second.ip.getMsbD p := by
  constructor
  · intro agree p inside
    by_cases low : p < first.offset
    · exact family.front low
    · have bit := agree (p - first.offset) (by omega)
      rwa [show first.offset + (p - first.offset) = p by omega] at bit
  · intro agree i inside
    exact agree _ (by omega)

end CNetAddr

namespace CSubNet

/-- A bit of the netmask, counted as in network byte order. -/
def maskBit (netmask : List UInt8) (p : Nat) : Bool :=
  (netmask.getD (p / 8) 0).toNat.testBit (7 - p % 8)

theorem testBit_clear (byte : UInt8) {j k : Nat} (inside : j < 8) (inside' : k < 8) :
    (byte &&& ~~~((1 : UInt8) <<< UInt8.ofNat k)).toNat.testBit j =
      (byte.toNat.testBit j && decide (j ≠ k)) := by
  have mask : ∀ k < 8, ∀ j < 8,
      (~~~((1 : UInt8) <<< UInt8.ofNat k)).toNat.testBit j = decide (j ≠ k) := by decide
  rw [UInt8.toNat_and, Nat.testBit_and, mask k inside' j inside]

theorem testBit_clearRange (n count : Nat) (netmask : List UInt8) {i j : Nat} (inside : j < 8) :
    (((List.range' n count).foldl (fun netmask n => netmask.modify (n >>> 3) fun byte =>
        byte &&& ~~~((1 : UInt8) <<< UInt8.ofNat (n &&& 7))) netmask).getD i 0).toNat.testBit j =
      ((netmask.getD i 0).toNat.testBit j && !decide (n ≤ 8 * i + j ∧ 8 * i + j < n + count)) := by
  induction count generalizing n netmask with
  | zero =>
      have none : ¬ (n ≤ 8 * i + j ∧ 8 * i + j < n + 0) := by omega
      rw [decide_eq_false none]
      simp
  | succ count ih =>
      have low : n &&& 7 = n % 8 := Nat.and_two_pow_sub_one_eq_mod n 3
      have high : n >>> 3 = n / 8 := Nat.shiftRight_eq_div_pow n 3
      rw [List.range'_succ, List.foldl_cons, ih, low, high]
      simp only [List.getD_eq_getElem?_getD, List.getElem?_modify]
      cases netmask[i]? with
      | none => simp
      | some byte =>
          simp only [Option.map_eq_map, Option.map_some, Option.getD_some]
          by_cases same : n / 8 = i
          · rw [if_pos same, testBit_clear byte inside (Nat.mod_lt _ (by decide))]
            by_cases here : j = n % 8
            · have cleared : n ≤ 8 * i + j ∧ 8 * i + j < n + (count + 1) := by omega
              have bit : decide (j ≠ n % 8) = false := decide_eq_false (not_not.2 here)
              rw [decide_eq_true cleared, bit]
              simp
            · have others : (n + 1 ≤ 8 * i + j ∧ 8 * i + j < n + 1 + count) ↔
                  (n ≤ 8 * i + j ∧ 8 * i + j < n + (count + 1)) := by omega
              rw [decide_eq_decide.2 others, decide_eq_true here, Bool.and_true]
          · have others : (n + 1 ≤ 8 * i + j ∧ 8 * i + j < n + 1 + count) ↔
                (n ≤ 8 * i + j ∧ 8 * i + j < n + (count + 1)) := by omega
            rw [if_neg same, decide_eq_decide.2 others]

/-- The loop clears the bits of each byte from the low end: what is kept of a byte that the prefix
covers in part are its low bits. -/
theorem maskBit_clearBits {n p : Nat} (inside : p < 128) :
    maskBit (clearBits n (List.replicate 16 255)) p = decide (8 * (p / 8) + (7 - p % 8) < n) := by
  rw [maskBit, clearBits, testBit_clearRange _ _ _ (by omega)]
  have full : ((List.replicate 16 (255 : UInt8)).getD (p / 8) 0).toNat.testBit (7 - p % 8) =
      true := by
    have all : ∀ i < 16, ∀ j < 8,
        ((List.replicate 16 (255 : UInt8)).getD i 0).toNat.testBit j = true := by decide
    exact all _ (by omega) _ (by omega)
  rw [full, Bool.true_and, ← decide_not, decide_eq_decide]
  omega

theorem length_copyMask (addr : CNetAddr) (asize : Nat) (netmask : List UInt8) :
    (copyMask addr asize netmask).length = netmask.length := by
  unfold copyMask
  induction asize with
  | zero => rfl
  | succ asize ih => rw [List.range_succ, List.foldl_concat, List.length_set, ih]

theorem getD_copyMask (addr : CNetAddr) {asize i : Nat} (fits : asize ≤ 16) (inside : i < 16) :
    (copyMask addr asize (List.replicate 16 255)).getD i 0 =
      if 15 - i < asize then UInt8.ofNat (addr.getByte (15 - i)) else 255 := by
  induction asize with
  | zero =>
      have all : ∀ i < 16, (List.replicate 16 (255 : UInt8)).getD i 0 = 255 := by decide
      exact all i inside
  | succ asize ih =>
      have step : copyMask addr (asize + 1) (List.replicate 16 255) =
          (copyMask addr asize (List.replicate 16 255)).set (15 - asize)
            (UInt8.ofNat (addr.getByte asize)) := by
        rw [copyMask, List.range_succ, List.foldl_concat, ← copyMask]
      have length := length_copyMask addr asize (List.replicate 16 255)
      rw [List.length_replicate] at length
      rw [step, List.getD_eq_getElem?_getD, List.getElem?_set]
      by_cases here : 15 - asize = i
      · rw [if_pos here, if_pos (by omega), if_pos (by omega), show 15 - i = asize by omega]
        rfl
      · rw [if_neg here, ← List.getD_eq_getElem?_getD, ih (by omega)]
        have others : 15 - i < asize ↔ 15 - i < asize + 1 := by omega
        simp only [others]

theorem maskBit_copyMask (addr : CNetAddr) {asize p : Nat} (fits : asize ≤ 16) (inside : p < 128) :
    maskBit (copyMask addr asize (List.replicate 16 255)) p =
      (decide (p < 128 - 8 * asize) || addr.ip.getMsbD p) := by
  rw [maskBit, getD_copyMask addr fits (by omega)]
  have place : (UInt8.ofNat (addr.getByte (15 - p / 8))).toNat = addr.getByte (15 - p / 8) := by
    rw [UInt8.toNat_ofNat', Nat.mod_eq_of_lt]
    exact (addr.ip.extractLsb' (8 * (15 - p / 8)) 8).isLt
  by_cases own : 15 - p / 8 < asize
  · rw [if_pos own, place, CNetAddr.testBit_getByte_place addr inside]
    have low : ¬ p < 128 - 8 * asize := by omega
    simp [low]
  · have high : p < 128 - 8 * asize := by omega
    have all : ∀ j < 8, (255 : UInt8).toNat.testBit j = true := by decide
    rw [if_neg own, all _ (by omega)]
    simp [high]

theorem matchAddr_iff {subnet : CSubNet} {addr : CNetAddr} :
    subnet.matchAddr addr = true ↔ subnet.valid = true ∧ addr.isValid = true ∧
      ∀ p < 128, (addr.ip.getMsbD p && maskBit subnet.netmask p) = subnet.network.ip.getMsbD p := by
  have bytes : (∀ x < 16, addr.getByte x &&& (subnet.netmask.getD (15 - x) 0).toNat =
      subnet.network.getByte x) ↔
        ∀ p < 128, (addr.ip.getMsbD p && maskBit subnet.netmask p) =
          subnet.network.ip.getMsbD p := by
    constructor
    · intro same p inside
      have byte := congrArg (fun byte => byte.testBit (7 - p % 8)) (same (15 - p / 8) (by omega))
      simp only [Nat.testBit_and, CNetAddr.testBit_getByte_place _ inside,
        show 15 - (15 - p / 8) = p / 8 by omega] at byte
      exact byte
    · intro same x inside
      apply Nat.eq_of_testBit_eq
      intro j
      by_cases low : j < 8
      · have bit := same (8 * (15 - x) + (7 - j)) (by omega)
        rw [← CNetAddr.testBit_getByte_place _ (by omega),
          ← CNetAddr.testBit_getByte_place _ (by omega), maskBit,
          show 15 - (8 * (15 - x) + (7 - j)) / 8 = x by omega,
          show 7 - (8 * (15 - x) + (7 - j)) % 8 = j by omega,
          show (8 * (15 - x) + (7 - j)) / 8 = 15 - x by omega] at bit
        rw [Nat.testBit_and]
        exact bit
      · rw [Nat.testBit_and, CNetAddr.testBit_getByte, CNetAddr.testBit_getByte]
        simp [low]
  simp only [matchAddr, Bool.and_eq_true, List.all_eq_true, List.mem_range, beq_iff_eq, and_assoc,
    bytes]

theorem splitAtSlash_append {front back : List Char} (noSlash : '/' ∉ back) :
    splitAtSlash (front ++ '/' :: back) = (front, some back) := by
  have keep : ∀ char ∈ back.reverse, decide (char ≠ '/') = true := by
    intro char member
    simp only [decide_eq_true_eq]
    rintro rfl
    exact noSlash (List.mem_reverse.1 member)
  simp only [splitAtSlash, List.reverse_append, List.reverse_cons, List.append_assoc,
    List.singleton_append]
  rw [List.dropWhile_append_of_pos keep, List.takeWhile_append_of_pos keep]
  simp

theorem parseInt32_toDigits {n : Nat} (inside : n ≤ 128) :
    parseInt32 (Nat.toDigits 10 n) = some (n : Int) := by
  have all : ∀ n ≤ 128, parseInt32 (Nat.toDigits 10 n) = some (n : Int) := by decide
  exact all n inside

theorem noSlash_toDigits {n : Nat} (inside : n ≤ 128) : '/' ∉ Nat.toDigits 10 n := by
  have all : ∀ n ≤ 128, '/' ∉ Nat.toDigits 10 n := by decide
  exact all n inside

variable {resolver : Resolver} {strAddress strNetmask : List Char} {fAllowLookup : Bool}
  {addr : CNetAddr} {n : Nat}

theorem ofString_number (resolved : resolver.lookupHost strAddress fAllowLookup = some addr)
    (inside : n ≤ addr.bits) :
    ofString resolver (strAddress ++ '/' :: Nat.toDigits 10 n) fAllowLookup =
      { network := addr
        netmask := clearBits (addr.offset + n) (List.replicate 16 255)
        valid := true } := by
  have small : n ≤ 128 := by
    unfold CNetAddr.bits at inside
    split at inside <;> omega
  have range : (0 : Int) ≤ n ∧ (n : Int) ≤ 128 - ((if addr.isIPv4 then 12 * 8 else 0 : Nat) : Int) := by
    unfold CNetAddr.bits at inside
    split at inside
    · rename_i isIPv4
      simp only [isIPv4, if_true]
      omega
    · rename_i isIPv4
      simp only [isIPv4, Bool.false_eq_true, if_false]
      omega
  have offset : addr.offset = if addr.isIPv4 then 12 * 8 else 0 := by
    unfold CNetAddr.offset CNetAddr.bits
    split <;> rfl
  simp only [ofString, splitAtSlash_append (noSlash_toDigits small), resolved,
    parseInt32_toDigits small, if_pos range, Int.toNat_natCast, offset, Nat.add_comm n]

theorem ofString_address (resolved : resolver.lookupHost strAddress fAllowLookup = some addr)
    (masked : resolver.lookupHost strNetmask false = some (addr.maskAddress n))
    (noSlash : '/' ∉ strNetmask) (noNumber : parseInt32 strNetmask = none) :
    ofString resolver (strAddress ++ '/' :: strNetmask) fAllowLookup =
      { network := addr
        netmask := copyMask (addr.maskAddress n) (addr.bits / 8) (List.replicate 16 255)
        valid := true } := by
  have asize : addr.bits / 8 = if addr.isIPv4 then 4 else 16 := by
    unfold CNetAddr.bits
    split <;> rfl
  simp only [ofString, splitAtSlash_append noSlash, resolved, noNumber, masked, asize]

/-- The subnet is the prefix: it is valid and matches the valid addresses of the family that have
the first bits of the address. -/
def Covers (subnet : CSubNet) (addr : CNetAddr) (n : Nat) : Prop :=
  subnet.valid = true ∧ ∀ other : CNetAddr, other.isValid = true → addr.SameFamily other →
    (subnet.matchAddr other = true ↔ addr.Agrees n other)

theorem length_clearBits (n : Nat) (netmask : List UInt8) :
    (clearBits n netmask).length = netmask.length := by
  unfold clearBits
  induction List.range' n (128 - n) generalizing netmask with
  | nil => rfl
  | cons n rest ih => rw [List.foldl_cons, ih, List.length_modify]

theorem eq_of_maskBit {first second : List UInt8} (length : first.length = 16)
    (length' : second.length = 16)
    (same : ∀ p < 128, maskBit first p = maskBit second p) : first = second := by
  apply List.ext_getElem (by rw [length, length'])
  intro i inside inside'
  apply UInt8.toNat_inj.1
  apply Nat.eq_of_testBit_eq
  intro j
  by_cases low : j < 8
  · have bit := same (8 * i + (7 - j)) (by omega)
    simp only [maskBit, show (8 * i + (7 - j)) / 8 = i by omega,
      show 7 - (8 * i + (7 - j)) % 8 = j by omega] at bit
    rwa [List.getD_eq_getElem _ _ inside, List.getD_eq_getElem _ _ inside'] at bit
  · have high : ∀ byte : UInt8, byte.toNat.testBit j = false := by
      intro byte
      apply Nat.testBit_lt_two_pow
      calc byte.toNat < 2 ^ 8 := byte.toNat_lt
        _ ≤ 2 ^ j := Nat.pow_le_pow_right (by decide) (by omega)
    rw [high, high]

/-- The netmask in address form keeps the bits of the prefix. -/
theorem maskBit_copyMask_maskAddress {p : Nat} (inside : p < 128) :
    maskBit (copyMask (addr.maskAddress n) (addr.bits / 8) (List.replicate 16 255)) p =
      decide (p < addr.offset + n) := by
  have whole : 8 * (addr.bits / 8) = addr.bits ∧ addr.bits ≤ 128 := by
    unfold CNetAddr.bits
    split <;> decide
  rw [maskBit_copyMask _ (by omega) inside, whole.1, ← CNetAddr.offset]
  by_cases own : p < addr.offset
  · rw [decide_eq_true own, Bool.true_or]
    simp
    omega
  · rw [decide_eq_false own, Bool.false_or, addr.getMsbD_maskAddress inside (by omega)]

/-- The two forms of the netmask are one only where the prefix ends with a byte. -/
theorem clearBits_eq_copyMask_iff (inside : n ≤ addr.bits) :
    clearBits (addr.offset + n) (List.replicate 16 255) =
      copyMask (addr.maskAddress n) (addr.bits / 8) (List.replicate 16 255) ↔ n % 8 = 0 := by
  have whole := addr.offset_add_bits
  constructor
  · intro same
    by_contra part
    have bit := congrArg (fun netmask => maskBit netmask (8 * ((addr.offset + n) / 8))) same
    simp only [maskBit_clearBits (show 8 * ((addr.offset + n) / 8) < 128 by omega),
      maskBit_copyMask_maskAddress (show 8 * ((addr.offset + n) / 8) < 128 by omega),
      decide_eq_decide] at bit
    omega
  · intro bytes
    apply eq_of_maskBit
    · rw [length_clearBits, List.length_replicate]
    · rw [length_copyMask, List.length_replicate]
    · intro p small
      rw [maskBit_clearBits small, maskBit_copyMask_maskAddress small, decide_eq_decide]
      omega

/-- `Match` of a subnet whose netmask keeps the first bits: the bits behind them are compared with
zero. -/
theorem matchAddr_prefix_iff {netmask : List UInt8} {other : CNetAddr}
    (mask : ∀ p < 128, maskBit netmask p = decide (p < addr.offset + n)) (inside : n ≤ addr.bits)
    (isValid : other.isValid = true) (family : addr.SameFamily other) :
    matchAddr { network := addr, netmask, valid := true } other = true ↔
      addr.Agrees n other ∧ addr.HostZero n := by
  have whole := addr.offset_add_bits
  rw [matchAddr_iff, family.agrees_iff]
  constructor
  · intro compared
    constructor
    · intro p low
      have bit := compared.2.2 p (by omega)
      rw [mask p (by omega), decide_eq_true low, Bool.and_true] at bit
      exact bit.symm
    · intro p high small
      have bit := compared.2.2 p small
      rw [mask p small, decide_eq_false (by omega), Bool.and_false] at bit
      exact bit.symm
  · intro compared
    apply And.intro rfl
    apply And.intro isValid
    intro p small
    rw [mask p small]
    by_cases low : p < addr.offset + n
    · rw [decide_eq_true low, Bool.and_true, compared.1 p low]
    · rw [decide_eq_false low, Bool.and_false, compared.2 p (by omega) small]

/-- A subnet with a prefix length is that of the prefix, and the one with the netmask in address
form, if the prefix ends with a byte and the address has no bits behind it, or no valid address is
in the prefix. -/
theorem ofString_exact (resolved : resolver.lookupHost strAddress fAllowLookup = some addr)
    (inside : n ≤ addr.bits)
    (masked : resolver.lookupHost strNetmask false = some (addr.maskAddress n))
    (noSlash : '/' ∉ strNetmask) (noNumber : parseInt32 strNetmask = none) :
    ((ofString resolver (strAddress ++ '/' :: Nat.toDigits 10 n) fAllowLookup).Covers addr n ∧
      ofString resolver (strAddress ++ '/' :: Nat.toDigits 10 n) fAllowLookup =
        ofString resolver (strAddress ++ '/' :: strNetmask) fAllowLookup) ↔
      n % 8 = 0 ∧ (addr.HostZero n ∨ ∀ other : CNetAddr, other.isValid = true →
        addr.SameFamily other → ¬ addr.Agrees n other) := by
  have forms := clearBits_eq_copyMask_iff inside
  rw [ofString_number resolved inside, ofString_address resolved masked noSlash noNumber]
  simp only [CSubNet.mk.injEq, true_and, and_true, forms, Covers]
  rw [and_comm]
  apply and_congr_right
  intro bytes
  have mask : ∀ p < 128, maskBit (clearBits (addr.offset + n) (List.replicate 16 255)) p =
      decide (p < addr.offset + n) := by
    intro p small
    rw [forms.2 bytes, maskBit_copyMask_maskAddress small]
  constructor
  · intro covers
    by_cases host : addr.HostZero n
    · exact Or.inl host
    · right
      intro other isValid family agree
      exact host ((matchAddr_prefix_iff mask inside isValid family).1
        ((covers other isValid family).2 agree)).2
  · intro clean other isValid family
    rw [matchAddr_prefix_iff mask inside isValid family]
    constructor
    · exact And.left
    · intro agree
      cases clean with
      | inl host => exact ⟨agree, host⟩
      | inr nobody => exact absurd agree (nobody other isValid family)

def numericResolver (host netmask : CNetAddr) : Resolver where
  decodeBase32 _ := []
  getaddrinfo name _ :=
    if name = "1.2.3.0".toList ∨ name = "1.2.3.4".toList then [host]
    else if name = "255.255.255.0".toList then [netmask] else []

theorem ofString_exact_wholeNetwork :
    let host : CNetAddr := ⟨0xffff01020300⟩
    let resolver := numericResolver host (host.maskAddress 24)
    (ofString resolver ("1.2.3.0".toList ++ '/' :: Nat.toDigits 10 24) true).Covers host 24 ∧
      ofString resolver ("1.2.3.0".toList ++ '/' :: Nat.toDigits 10 24) true =
        ofString resolver ("1.2.3.0".toList ++ '/' :: "255.255.255.0".toList) true := by
  intro host resolver
  have hostZero : ∀ i < 128, host.offset + 24 ≤ i → host.ip.getMsbD i = false := by decide
  exact (ofString_exact (by decide) (by decide) (by decide)
    (by decide) (by decide)).2
    ⟨by decide, Or.inl fun i low small => hostZero i small low⟩

/-- An address with bits behind the prefix makes a subnet that matches nothing, not even it. -/
theorem hostPart_not_covered :
    let host : CNetAddr := ⟨0xffff01020304⟩
    let resolver := numericResolver host (host.maskAddress 24)
    resolver.lookupHost "1.2.3.4".toList true = some host ∧ host.isIPv4 = true ∧
      host.isValid = true ∧
      ¬ (ofString resolver ("1.2.3.4".toList ++ '/' :: Nat.toDigits 10 24) true).Covers host 24 := by
  intro host resolver
  have isIPv4 : host.isIPv4 = true := by decide
  have isValid : host.isValid = true := by decide
  have missed : (ofString resolver ("1.2.3.4".toList ++ '/' :: Nat.toDigits 10 24) true).matchAddr
      host = false := by decide
  apply And.intro (by decide)
  apply And.intro isIPv4
  apply And.intro isValid
  intro covers
  have found := (covers.2 host isValid (Or.inl ⟨isIPv4, isIPv4⟩)).2 fun _ _ => rfl
  rw [missed] at found
  cases found

end CSubNet

end Lycancoin
