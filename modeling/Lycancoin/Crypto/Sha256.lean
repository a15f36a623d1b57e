import Lycancoin.Data.BlockFold
import Mathlib

namespace Lycancoin

/-- The number that a big-endian word of bytes writes.  A byte behind the end counts as zero. -/
def readBE32 (chunk : List UInt8) (offset : Nat) : UInt32 :=
  let byte := fun i => (chunk.getD (offset + i) 0).toNat
  UInt32.ofNat (byte 0 * 2 ^ 24 + byte 1 * 2 ^ 16 + byte 2 * 2 ^ 8 + byte 3)

/-- A number in so many bytes, the highest first. -/
def writeBE (size value : Nat) : List UInt8 :=
  (List.range size).map fun i => UInt8.ofNat (value / 2 ^ (8 * (size - 1 - i)))

namespace Sha256

def ch (x y z : UInt32) : UInt32 := z ^^^ (x &&& (y ^^^ z))

def maj (x y z : UInt32) : UInt32 := (x &&& y) ||| (z &&& (x ||| y))

def bigSigma0 (x : UInt32) : UInt32 :=
  (x >>> 2 ||| x <<< 30) ^^^ (x >>> 13 ||| x <<< 19) ^^^ (x >>> 22 ||| x <<< 10)

def bigSigma1 (x : UInt32) : UInt32 :=
  (x >>> 6 ||| x <<< 26) ^^^ (x >>> 11 ||| x <<< 21) ^^^ (x >>> 25 ||| x <<< 7)

def sigma0 (x : UInt32) : UInt32 :=
  (x >>> 7 ||| x <<< 25) ^^^ (x >>> 18 ||| x <<< 14) ^^^ (x >>> 3)

def sigma1 (x : UInt32) : UInt32 :=
  (x >>> 17 ||| x <<< 15) ^^^ (x >>> 19 ||| x <<< 13) ^^^ (x >>> 10)

/-- The variables of `Transform`, `a` to `h` and `w0` to `w15`. -/
structure Work where
  v : Vector UInt32 8
  w : Vector UInt32 16

/-- The last argument of a round, which may assign to a `w`. -/
abbrev Argument := Vector UInt32 16 → UInt32 × Vector UInt32 16

/-- `w = ReadBE32(chunk + offset)`. -/
def load (chunk : List UInt8) (i : Fin 16) (offset : Nat) : Argument := fun w =>
  let word := readBE32 chunk offset
  (word, w.set i word)

/-- `wi += sigma1(wj) + wk + sigma0(wl)`. -/
def extend (i j k l : Fin 16) : Argument := fun w =>
  let word := w[i] + (sigma1 w[j] + w[k] + sigma0 w[l])
  (word, w.set i word)

/-- `wi + sigma1(wj) + wk + sigma0(wl)`. -/
def peek (i j k l : Fin 16) : Argument := fun w =>
  (w[i] + sigma1 w[j] + w[k] + sigma0 w[l], w)

/-- `Round`, on the variables that it is called with. -/
def round (a b c d e f g h : Fin 8) (k : UInt32) (w : Argument) (work : Work) : Work :=
  let (word, schedule) := w work.w
  let v := work.v
  let t1 := v[h] + bigSigma1 v[e] + ch v[e] v[f] v[g] + k + word
  let t2 := bigSigma0 v[a] + maj v[a] v[b] v[c]
  { v := (v.set d (v[d] + t1)).set h (t1 + t2), w := schedule }

/-- `Initialize`. -/
def initial : Vector UInt32 8 :=
  #v[0x6a09e667, 0xbb67ae85, 0x3c6ef372, 0xa54ff53a, 0x510e527f, 0x9b05688c, 0x1f83d9ab, 0x5be0cd19]

namespace Variables

abbrev a : Fin 8 := 0
abbrev b : Fin 8 := 1
abbrev c : Fin 8 := 2
abbrev d : Fin 8 := 3
abbrev e : Fin 8 := 4
abbrev f : Fin 8 := 5
abbrev g : Fin 8 := 6
abbrev h : Fin 8 := 7

end Variables

open Variables in
/-- The lines of `Transform`. -/
def rounds (chunk : List UInt8) : List (Work → Work) := [
    round a b c d e f g h 0x428a2f98 (load chunk 0 0),
    round h a b c d e f g 0x71374491 (load chunk 1 4),
    round g h a b c d e f 0xb5c0fbcf (load chunk 2 8),
    round f g h a b c d e 0xe9b5dba5 (load chunk 3 12),
    round e f g h a b c d 0x3956c25b (load chunk 4 16),
    round d e f g h a b c 0x59f111f1 (load chunk 5 20),
    round c d e f g h a b 0x923f82a4 (load chunk 6 24),
    round b c d e f g h a 0xab1c5ed5 (load chunk 7 28),
    round a b c d e f g h 0xd807aa98 (load chunk 8 32),
    round h a b c d e f g 0x12835b01 (load chunk 9 36),
    round g h a b c d e f 0x243185be (load chunk 10 40),
    round f g h a b c d e 0x550c7dc3 (load chunk 11 44),
    round e f g h a b c d 0x72be5d74 (load chunk 12 48),
    round d e f g h a b c 0x80deb1fe (load chunk 13 52),
    round c d e f g h a b 0x9bdc06a7 (load chunk 14 56),
    round b c d e f g h a 0xc19bf174 (load chunk 15 60),
    round a b c d e f g h 0xe49b69c1 (extend 0 14 9 1),
    round h a b c d e f g 0xefbe4786 (extend 1 15 10 2),
    round g h a b c d e f 0x0fc19dc6 (extend 2 0 11 3),
    round f g h a b c d e 0x240ca1cc (extend 3 1 12 4),
    round e f g h a b c d 0x2de92c6f (extend 4 2 13 5),
    round d e f g h a b c 0x4a7484aa (extend 5 3 14 6),
    round c d e f g h a b 0x5cb0a9dc (extend 6 4 15 7),
    round b c d e f g h a 0x76f988da (extend 7 5 0 8),
    round a b c d e f g h 0x983e5152 (extend 8 6 1 9),
    round h a b c d e f g 0xa831c66d (extend 9 7 2 10),
    round g h a b c d e f 0xb00327c8 (extend 10 8 3 11),
    round f g h a b c d e 0xbf597fc7 (extend 11 9 4 12),
    round e f g h a b c d 0xc6e00bf3 (extend 12 10 5 13),
    round d e f g h a b c 0xd5a79147 (extend 13 11 6 14),
    round c d e f g h a b 0x06ca6351 (extend 14 12 7 15),
    round b c d e f g h a 0x14292967 (extend 15 13 8 0),
    round a b c d e f g h 0x27b70a85 (extend 0 14 9 1),
    round h a b c d e f g 0x2e1b2138 (extend 1 15 10 2),
    round g h a b c d e f 0x4d2c6dfc (extend 2 0 11 3),
    round f g h a b c d e 0x53380d13 (extend 3 1 12 4),
    round e f g h a b c d 0x650a7354 (extend 4 2 13 5),
    round d e f g h a b c 0x766a0abb (extend 5 3 14 6),
    round c d e f g h a b 0x81c2c92e (extend 6 4 15 7),
    round b c d e f g h a 0x92722c85 (extend 7 5 0 8),
    round a b c d e f g h 0xa2bfe8a1 (extend 8 6 1 9),
    round h a b c d e f g 0xa81a664b (extend 9 7 2 10),
    round g h a b c d e f 0xc24b8b70 (extend 10 8 3 11),
    round f g h a b c d e 0xc76c51a3 (extend 11 9 4 12),
    round e f g h a b c d 0xd192e819 (extend 12 10 5 13),
    round d e f g h a b c 0xd6990624 (extend 13 11 6 14),
    round c d e f g h a b 0xf40e3585 (extend 14 12 7 15),
    round b c d e f g h a 0x106aa070 (extend 15 13 8 0),
    round a b c d e f g h 0x19a4c116 (extend 0 14 9 1),
    round h a b c d e f g 0x1e376c08 (extend 1 15 10 2),
    round g h a b c d e f 0x2748774c (extend 2 0 11 3),
    round f g h a b c d e 0x34b0bcb5 (extend 3 1 12 4),
    round e f g h a b c d 0x391c0cb3 (extend 4 2 13 5),
    round d e f g h a b c 0x4ed8aa4a (extend 5 3 14 6),
    round c d e f g h a b 0x5b9cca4f (extend 6 4 15 7),
    round b c d e f g h a 0x682e6ff3 (extend 7 5 0 8),
    round a b c d e f g h 0x748f82ee (extend 8 6 1 9),
    round h a b c d e f g 0x78a5636f (extend 9 7 2 10),
    round g h a b c d e f 0x84c87814 (extend 10 8 3 11),
    round f g h a b c d e 0x8cc70208 (extend 11 9 4 12),
    round e f g h a b c d 0x90befffa (extend 12 10 5 13),
    round d e f g h a b c 0xa4506ceb (extend 13 11 6 14),
    round c d e f g h a b 0xbef9a3f7 (peek 14 12 7 15),
    round b c d e f g h a 0xc67178f2 (peek 15 13 8 0)]

/-- `Transform`.  Each `w` is loaded before it is read. -/
def transform (s : Vector UInt32 8) (chunk : List UInt8) : Vector UInt32 8 :=
  let work := (rounds chunk).foldl (fun work line => line work)
    { v := s, w := Vector.replicate 16 0 }
  Vector.ofFn fun i => s[i] + work.v[i]

end Sha256

structure CSHA256 where
  s : Vector UInt32 8
  buf : Vector UInt8 64
  bytes : UInt64

namespace CSHA256

open Sha256

/-- `memcpy(buf + place, data, data.length)`. -/
def copyInto {size : Nat} (buf : Vector UInt8 size) (place : Nat) (data : List UInt8) :
    Vector UInt8 size :=
  Vector.ofFn fun i =>
    if place ≤ i.val ∧ i.val < place + data.length then data.getD (i.val - place) 0 else buf[i]

/-- The constructor, over whatever the buffer holds. -/
def new (buf : Vector UInt8 64) : CSHA256 where
  s := initial
  buf := buf
  bytes := 0

/-- Whole chunks go from the source as they are.  What remains of it comes back. -/
def writeChunks (sha : CSHA256) (data : List UInt8) : CSHA256 × List UInt8 :=
  if 64 ≤ data.length then
    writeChunks { sha with s := transform sha.s (data.take 64), bytes := sha.bytes + 64 }
      (data.drop 64)
  else (sha, data)
termination_by data.length
decreasing_by
  rw [List.length_drop]
  omega

/-- The buffer is filled and processed where there is something in it and enough for it. -/
def fillBuffer (sha : CSHA256) (data : List UInt8) : CSHA256 × List UInt8 × Nat :=
  let bufsize := sha.bytes.toNat % 64
  if bufsize ≠ 0 ∧ bufsize + data.length ≥ 64 then
    let buf := copyInto sha.buf bufsize (data.take (64 - bufsize))
    ({ s := transform sha.s buf.toList
       buf := buf
       bytes := sha.bytes + UInt64.ofNat (64 - bufsize) },
      data.drop (64 - bufsize), 0)
  else (sha, data, bufsize)

/-- What remains goes into the buffer. -/
def keepRest (sha : CSHA256) (bufsize : Nat) (data : List UInt8) : CSHA256 :=
  if data.length > 0 then
    { sha with
      buf := copyInto sha.buf bufsize data
      bytes := sha.bytes + UInt64.ofNat data.length }
  else sha

def write (sha : CSHA256) (data : List UInt8) : CSHA256 :=
  let (sha, data, bufsize) := sha.fillBuffer data
  let (sha, data) := sha.writeChunks data
  sha.keepRest bufsize data

/-- The `pad` of `Finalize`. -/
def pad : List UInt8 := 0x80 :: List.replicate 63 0

/-- `Finalize`: the digest, and the object behind it. -/
def finalize (sha : CSHA256) : List UInt8 × CSHA256 :=
  let sizedesc := writeBE 8 (sha.bytes <<< 3).toNat
  let sha := sha.write (pad.take (1 + (119 - sha.bytes.toNat % 64) % 64))
  let sha := sha.write sizedesc
  (sha.s.toList.flatMap fun word => writeBE 4 word.toNat, sha)

def reset (sha : CSHA256) : CSHA256 := { sha with bytes := 0, s := initial }

end CSHA256

/-- `CHash256`, which `CHashWriter` writes to. -/
structure CHash256 where
  sha : CSHA256

namespace CHash256

def new (buf : Vector UInt8 64) : CHash256 := { sha := CSHA256.new buf }

def write (hasher : CHash256) (data : List UInt8) : CHash256 := { sha := hasher.sha.write data }

def finalize (hasher : CHash256) : List UInt8 :=
  let (buf, sha) := hasher.sha.finalize
  ((sha.reset.write buf).finalize).1

end CHash256

def hash (buf : Vector UInt8 64) (bytes : List UInt8) : List UInt8 :=
  ((CHash256.new buf).write bytes).finalize

/-- A `CHashWriter` that is given the bytes in parts, up to `GetHash`. -/
def hashWriter (buf : Vector UInt8 64) (parts : List (List UInt8)) : List UInt8 :=
  (parts.foldl CHash256.write (CHash256.new buf)).finalize

open Lycancoin.Data

/-! SHA-256 as the standard has it: a compression of 64 rounds over a schedule of 64 words, and the
padding of a message to whole blocks. -/

namespace Sha256.Standard

/-- Circular right shift. -/
def rotr (n : UInt32) (x : UInt32) : UInt32 := (x >>> n) ||| (x <<< (32 - n))

def ch (x y z : UInt32) : UInt32 := (x &&& y) ^^^ (~~~x &&& z)

def maj (x y z : UInt32) : UInt32 := (x &&& y) ^^^ (x &&& z) ^^^ (y &&& z)

def bigSigma0 (x : UInt32) : UInt32 := rotr 2 x ^^^ rotr 13 x ^^^ rotr 22 x

def bigSigma1 (x : UInt32) : UInt32 := rotr 6 x ^^^ rotr 11 x ^^^ rotr 25 x

def sigma0 (x : UInt32) : UInt32 := rotr 7 x ^^^ rotr 18 x ^^^ (x >>> 3)

def sigma1 (x : UInt32) : UInt32 := rotr 17 x ^^^ rotr 19 x ^^^ (x >>> 10)

def constants : List UInt32 := [
  0x428a2f98, 0x71374491, 0xb5c0fbcf, 0xe9b5dba5, 0x3956c25b, 0x59f111f1, 0x923f82a4, 0xab1c5ed5,
  0xd807aa98, 0x12835b01, 0x243185be, 0x550c7dc3, 0x72be5d74, 0x80deb1fe, 0x9bdc06a7, 0xc19bf174,
  0xe49b69c1, 0xefbe4786, 0x0fc19dc6, 0x240ca1cc, 0x2de92c6f, 0x4a7484aa, 0x5cb0a9dc, 0x76f988da,
  0x983e5152, 0xa831c66d, 0xb00327c8, 0xbf597fc7, 0xc6e00bf3, 0xd5a79147, 0x06ca6351, 0x14292967,
  0x27b70a85, 0x2e1b2138, 0x4d2c6dfc, 0x53380d13, 0x650a7354, 0x766a0abb, 0x81c2c92e, 0x92722c85,
  0xa2bfe8a1, 0xa81a664b, 0xc24b8b70, 0xc76c51a3, 0xd192e819, 0xd6990624, 0xf40e3585, 0x106aa070,
  0x19a4c116, 0x1e376c08, 0x2748774c, 0x34b0bcb5, 0x391c0cb3, 0x4ed8aa4a, 0x5b9cca4f, 0x682e6ff3,
  0x748f82ee, 0x78a5636f, 0x84c87814, 0x8cc70208, 0x90befffa, 0xa4506ceb, 0xbef9a3f7, 0xc67178f2]

def constant (t : Nat) : UInt32 := constants.getD t 0

/-- The words of a message block, and then each from four before it. -/
def schedule (block : List UInt8) (t : Nat) : UInt32 :=
  if t < 16 then readBE32 block (4 * t)
  else sigma1 (schedule block (t - 2)) + schedule block (t - 7) + sigma0 (schedule block (t - 15)) +
    schedule block (t - 16)
termination_by t

structure Working where
  a : UInt32
  b : UInt32
  c : UInt32
  d : UInt32
  e : UInt32
  f : UInt32
  g : UInt32
  h : UInt32

def Working.round (working : Working) (k w : UInt32) : Working :=
  let t1 := working.h + bigSigma1 working.e + ch working.e working.f working.g + k + w
  let t2 := bigSigma0 working.a + maj working.a working.b working.c
  { a := t1 + t2, b := working.a, c := working.b, d := working.c,
    e := working.d + t1, f := working.e, g := working.f, h := working.g }

/-- The working variables after so many rounds. -/
def working (hash : Vector UInt32 8) (block : List UInt8) : Nat → Working
  | 0 => ⟨hash[0], hash[1], hash[2], hash[3], hash[4], hash[5], hash[6], hash[7]⟩
  | t + 1 => (working hash block t).round (constant t) (schedule block t)

def Working.toVector (working : Working) : Vector UInt32 8 :=
  #v[working.a, working.b, working.c, working.d, working.e, working.f, working.g, working.h]

def compress (hash : Vector UInt32 8) (block : List UInt8) : Vector UInt32 8 :=
  Vector.ofFn fun i => hash[i] + (working hash block 64).toVector[i]

theorem exists_padding (length : Nat) : ∃ k, (length + 1 + k) % 64 = 56 :=
  ⟨119 - length % 64, by omega⟩

/-- The smallest number of zero bytes that leaves room for the length in the last block. -/
def zeros (length : Nat) : Nat := Nat.find (exists_padding length)

/-- The message, a one bit, zeros, and its length in bits. -/
def padded (message : List UInt8) : List UInt8 :=
  message ++ [0x80] ++ List.replicate (zeros message.length) 0 ++ writeBE 8 (8 * message.length)

def digest (message : List UInt8) : List UInt8 :=
  (BlockFold.absorbAll 64 compress initial (padded message)).1.toList.flatMap fun word =>
    writeBE 4 word.toNat

end Sha256.Standard

end Lycancoin

namespace Lycancoin.Sha256

open Lycancoin.Sha256.Standard (Working working schedule constant)

theorem ch_eq (x y z : UInt32) : ch x y z = Standard.ch x y z := by
  apply UInt32.eq_of_toBitVec_eq
  apply BitVec.eq_of_getLsbD_eq
  intro i within
  simp only [ch, Standard.ch, UInt32.toBitVec_xor, UInt32.toBitVec_and, UInt32.toBitVec_not,
    BitVec.getLsbD_xor, BitVec.getLsbD_and, BitVec.getLsbD_not, within, decide_true, Bool.true_and]
  cases x.toBitVec.getLsbD i <;> cases y.toBitVec.getLsbD i <;> cases z.toBitVec.getLsbD i <;> rfl

theorem maj_eq (x y z : UInt32) : maj x y z = Standard.maj x y z := by
  apply UInt32.eq_of_toBitVec_eq
  apply BitVec.eq_of_getLsbD_eq
  intro i within
  simp only [maj, Standard.maj, UInt32.toBitVec_xor, UInt32.toBitVec_and, UInt32.toBitVec_or,
    BitVec.getLsbD_xor, BitVec.getLsbD_and, BitVec.getLsbD_or]
  cases x.toBitVec.getLsbD i <;> cases y.toBitVec.getLsbD i <;> cases z.toBitVec.getLsbD i <;> rfl

theorem bigSigma0_eq (x : UInt32) : bigSigma0 x = Standard.bigSigma0 x := rfl

theorem bigSigma1_eq (x : UInt32) : bigSigma1 x = Standard.bigSigma1 x := rfl

theorem sigma0_eq (x : UInt32) : sigma0 x = Standard.sigma0 x := rfl

theorem sigma1_eq (x : UInt32) : sigma1 x = Standard.sigma1 x := rfl

/-- The variable that holds a working variable after so many rounds. -/
def heldBy (role : Fin 8) (t : Nat) : Fin 8 := role - Fin.ofNat 8 t

/-- The word of the schedule that a round is called with. -/
def argument (chunk : List UInt8) (t : Nat) : Argument :=
  let place := fun n => Fin.ofNat 16 n
  if t < 16 then load chunk (place t) (4 * t)
  else if t < 62 then extend (place t) (place (t + 14)) (place (t + 9)) (place (t + 1))
  else peek (place t) (place (t + 14)) (place (t + 9)) (place (t + 1))

def line (chunk : List UInt8) (t : Nat) : Work → Work :=
  round (heldBy 0 t) (heldBy 1 t) (heldBy 2 t) (heldBy 3 t) (heldBy 4 t) (heldBy 5 t) (heldBy 6 t)
    (heldBy 7 t) (constant t) (argument chunk t)

theorem rounds_eq (chunk : List UInt8) : rounds chunk = (List.range 64).map (line chunk) := rfl

theorem place_eq {m n : Nat} (same : m % 16 = n % 16) : Fin.ofNat 16 m = Fin.ofNat 16 n :=
  Fin.ext same

theorem place_ne {m n : Nat} (other : m % 16 ≠ n % 16) : Fin.ofNat 16 m ≠ Fin.ofNat 16 n :=
  fun same => other (congrArg Fin.val same)

theorem heldBy_succ (role : Fin 8) (t : Nat) : heldBy role (t + 1) = heldBy (role - 1) t := by
  apply Fin.ext
  simp only [heldBy, Fin.sub_def, Fin.ofNat]
  simp only [Fin.val_one]
  omega

theorem heldBy_inj {first second : Fin 8} {t : Nat} :
    heldBy first t = heldBy second t ↔ first = second := by
  rw [heldBy, heldBy, sub_left_inj]

/-- The words that are in use are the last sixteen. -/
def Words (chunk : List UInt8) (t : Nat) (w : Vector UInt32 16) : Prop :=
  ∀ n, n < t → n < 62 → t ≤ n + 16 → w[Fin.ofNat 16 n] = schedule chunk n

theorem Words.get {chunk : List UInt8} {t : Nat} {w : Vector UInt32 16} (words : Words chunk t w)
    {place n : Nat} (same : place % 16 = n % 16) (before : n < t) (assigned : n < 62)
    (recent : t ≤ n + 16) : w[Fin.ofNat 16 place] = schedule chunk n :=
  (congrArg (fun i : Fin 16 => w[i]) (place_eq same)).trans (words n before assigned recent)

theorem schedule_of_le {chunk : List UInt8} {t : Nat} (late : 16 ≤ t) :
    schedule chunk t = sigma1 (schedule chunk (t - 2)) + schedule chunk (t - 7) +
      sigma0 (schedule chunk (t - 15)) + schedule chunk (t - 16) := by
  rw [schedule, if_neg (by omega), sigma0_eq, sigma1_eq]

theorem Words.set {chunk : List UInt8} {t : Nat} {w : Vector UInt32 16} (words : Words chunk t w) :
    Words chunk (t + 1) (w.set (Fin.ofNat 16 t) (schedule chunk t)) := by
  intro n before _ recent
  by_cases here : n = t
  · subst here
    exact Vector.getElem_set_self _
  · rw [Fin.getElem_fin, Vector.getElem_set_ne _ _
      (fun same => place_ne (show t % 16 ≠ n % 16 by omega) (Fin.ext same))]
    exact words n (by omega) (by omega) (by omega)

theorem argument_spec {chunk : List UInt8} {t : Nat} {w : Vector UInt32 16} (inside : t < 64)
    (words : Words chunk t w) :
    (argument chunk t w).1 = schedule chunk t ∧ Words chunk (t + 1) (argument chunk t w).2 := by
  by_cases early : t < 16
  · have word : readBE32 chunk (4 * t) = schedule chunk t := by
      rw [schedule, if_pos early]
    rw [argument, if_pos early]
    simp only [load, word, true_and]
    exact words.set
  · have before : w[Fin.ofNat 16 t] = schedule chunk (t - 16) :=
      words.get (by omega) (by omega) (by omega) (by omega)
    have second : w[Fin.ofNat 16 (t + 14)] = schedule chunk (t - 2) :=
      words.get (by omega) (by omega) (by omega) (by omega)
    have seventh : w[Fin.ofNat 16 (t + 9)] = schedule chunk (t - 7) :=
      words.get (by omega) (by omega) (by omega) (by omega)
    have fifteenth : w[Fin.ofNat 16 (t + 1)] = schedule chunk (t - 15) :=
      words.get (by omega) (by omega) (by omega) (by omega)
    rw [argument, if_neg early]
    by_cases assigned : t < 62
    · have word : schedule chunk (t - 16) + (sigma1 (schedule chunk (t - 2)) +
          schedule chunk (t - 7) + sigma0 (schedule chunk (t - 15))) = schedule chunk t := by
        rw [schedule_of_le (Nat.le_of_not_lt early)]
        exact UInt32.add_comm _ _
      rw [if_pos assigned]
      simp only [extend, before, second, seventh, fifteenth, word, true_and]
      exact words.set
    · have word : schedule chunk (t - 16) + sigma1 (schedule chunk (t - 2)) +
          schedule chunk (t - 7) + sigma0 (schedule chunk (t - 15)) = schedule chunk t := by
        rw [schedule_of_le (Nat.le_of_not_lt early)]
        ac_rfl
      rw [if_neg assigned]
      simp only [peek, before, second, seventh, fifteenth, word, true_and]
      intro n _ unassigned recent
      exact words n (by omega) unassigned (by omega)

/-- After so many rounds each working variable is in the variable that is renamed to it. -/
structure Follows (s : Vector UInt32 8) (chunk : List UInt8) (t : Nat) (work : Work) : Prop where
  held : ∀ role : Fin 8, work.v[heldBy role t] = (working s chunk t).toVector[role]
  words : Words chunk t work.w

theorem getElem_set_heldBy (v : Vector UInt32 8) (changed role : Fin 8) (t : Nat)
    (value : UInt32) :
    (v.set (heldBy changed t) value)[heldBy role t] =
      if changed = role then value else v[heldBy role t] := by
  rw [Fin.getElem_fin, Vector.getElem_set]
  simp only [← Fin.ext_iff, heldBy_inj]
  rfl

/-- A round changes two of the variables, and their names do the rest. -/
theorem Follows.line {s : Vector UInt32 8} {chunk : List UInt8} {t : Nat} {work : Work}
    (follows : Follows s chunk t work) (inside : t < 64) :
    Follows s chunk (t + 1) (line chunk t work) := by
  obtain ⟨word, words⟩ := argument_spec inside follows.words
  constructor
  · intro role
    have held := follows.held
    have renamed : (Sha256.line chunk t work).v[heldBy role (t + 1)] =
        (Sha256.line chunk t work).v[heldBy (role - 1) t] :=
      congrArg (fun i : Fin 8 => (Sha256.line chunk t work).v[i]) (heldBy_succ role t)
    rw [renamed]
    simp only [Sha256.line, round, word, getElem_set_heldBy, held, working]
    have last : (-1 : Fin 8) = 7 := rfl
    fin_cases role
    all_goals
      simp [Working.round, Working.toVector, ch_eq, maj_eq, bigSigma0_eq, bigSigma1_eq, last]
  · exact words

theorem Follows.lines {s : Vector UInt32 8} {chunk : List UInt8} {work : Work}
    (follows : Follows s chunk 0 work) {t : Nat} (inside : t ≤ 64) :
    Follows s chunk t
      (((List.range t).map (Sha256.line chunk)).foldl (fun work line => line work) work) := by
  induction t with
  | zero => exact follows
  | succ t ih =>
      rw [List.range_succ, List.map_append, List.foldl_append]
      exact (ih (by omega)).line (by omega)

theorem transform_eq_compress (s : Vector UInt32 8) (chunk : List UInt8) :
    transform s chunk = Standard.compress s chunk := by
  have start : Follows s chunk 0 { v := s, w := Vector.replicate 16 0 } := by
    constructor
    · intro role
      have first : heldBy role 0 = role := sub_zero role
      simp only [first]
      fin_cases role
      all_goals rfl
    · intro n before
      exact absurd before (Nat.not_lt_zero n)
  have ends := start.lines (Nat.le_refl 64)
  rw [← rounds_eq] at ends
  apply Vector.ext
  intro i inside
  have role : heldBy ⟨i, inside⟩ 64 = ⟨i, inside⟩ := sub_zero _
  have held := ends.held ⟨i, inside⟩
  simp only [role] at held
  rw [transform, Standard.compress, Vector.getElem_ofFn, Vector.getElem_ofFn, held]

end Lycancoin.Sha256

namespace Lycancoin

open Lycancoin.Data Sha256

/-- The hash value after the whole blocks of a message, and the bytes behind them. -/
def taken (message : List UInt8) : Vector UInt32 8 × List UInt8 :=
  BlockFold.absorbAll 64 Standard.compress initial message

namespace CSHA256

/-- The object after so much of a message was written, in whatever parts. -/
structure Represents (sha : CSHA256) (message : List UInt8) : Prop where
  state : sha.s = (taken message).1
  buffered : sha.buf.toList.take (taken message).2.length = (taken message).2
  count : sha.bytes = UInt64.ofNat message.length

variable {sha : CSHA256} {message data : List UInt8}

theorem getElem_copyInto {size : Nat} (buf : Vector UInt8 size) (place : Nat) {i : Nat}
    (inside : i < size) :
    (copyInto buf place data)[i] =
      if place ≤ i ∧ i < place + data.length then data.getD (i - place) 0 else buf[i] := by
  unfold copyInto
  rw [Vector.getElem_ofFn]
  rfl

theorem copyInto_take {size : Nat} (buf : Vector UInt8 size) {place : Nat}
    (fits : place + data.length ≤ size) :
    (copyInto buf place data).toList.take (place + data.length) =
      buf.toList.take place ++ data := by
  have length : (buf.toList.take place).length = place :=
    List.length_take_of_le (by rw [Vector.length_toList]; omega)
  apply List.ext_getElem
  · rw [List.length_take_of_le (by rw [Vector.length_toList]; exact fits), List.length_append,
      length]
  · intro i first second
    have within : i < place + data.length := by
      rw [List.length_append, length] at second
      exact second
    rw [List.getElem_take, Vector.getElem_toList, getElem_copyInto]
    by_cases inside : place ≤ i
    · rw [if_pos ⟨inside, within⟩, List.getElem_append_right (by rw [length]; exact inside),
        List.getD_eq_getElem _ _ (by omega)]
      simp only [length]
    · rw [if_neg (fun both => inside both.1),
        List.getElem_append_left (by rw [length]; omega), List.getElem_take,
        Vector.getElem_toList]

theorem writeChunks_spec (sha : CSHA256) (data : List UInt8) :
    ((sha.writeChunks data).1.s, (sha.writeChunks data).2) =
        BlockFold.absorbAll 64 Standard.compress sha.s data ∧
      (sha.writeChunks data).1.buf = sha.buf ∧
      (sha.writeChunks data).1.bytes + UInt64.ofNat (sha.writeChunks data).2.length =
        sha.bytes + UInt64.ofNat data.length := by
  rw [writeChunks]
  split_ifs with long
  · obtain ⟨chunks, buf, bytes⟩ := writeChunks_spec
      { sha with s := transform sha.s (data.take 64), bytes := sha.bytes + 64 } (data.drop 64)
    refine ⟨?_, buf, ?_⟩
    · rw [chunks, BlockFold.absorbAll_of_le (by decide) long, transform_eq_compress]
    · rw [bytes, UInt64.add_assoc, List.length_drop]
      congr 1
      have sum : data.length = 64 + (data.length - 64) := by omega
      conv_rhs => rw [sum, UInt64.ofNat_add]
      rfl
  · rw [BlockFold.absorbAll_of_lt (Nat.lt_of_not_le long)]
    exact ⟨rfl, rfl, rfl⟩
termination_by data.length
decreasing_by
  rw [List.length_drop]
  omega

theorem keepRest_spec (sha : CSHA256) {bufsize : Nat} {data : List UInt8}
    (fits : bufsize + data.length ≤ 64) :
    (sha.keepRest bufsize data).s = sha.s ∧
      (sha.keepRest bufsize data).buf.toList.take (bufsize + data.length) =
        sha.buf.toList.take bufsize ++ data ∧
      (sha.keepRest bufsize data).bytes = sha.bytes + UInt64.ofNat data.length := by
  unfold keepRest
  split_ifs with some
  · exact ⟨rfl, copyInto_take sha.buf fits, rfl⟩
  · have none : data = [] := List.length_eq_zero_iff.mp (by omega)
    rw [none]
    exact ⟨rfl, (List.append_nil _).symm, (UInt64.add_zero _).symm⟩

theorem Represents.bufsize_eq (represents : Represents sha message) :
    sha.bytes.toNat % 64 = (taken message).2.length := by
  rw [taken, BlockFold.length_absorbAll (by decide), represents.count, UInt64.toNat_ofNat']
  exact Nat.mod_mod_of_dvd _ (by decide)

theorem length_taken_lt (message : List UInt8) : (taken message).2.length < 64 := by
  rw [taken, BlockFold.length_absorbAll (by decide)]
  exact Nat.mod_lt _ (by decide)

/-- The buffer is empty afterwards, or too little is left for a chunk. -/
theorem Represents.fillBuffer (represents : Represents sha message) (data : List UInt8) :
    ∃ next rest bufsize, sha.fillBuffer data = (next, rest, bufsize) ∧
      BlockFold.absorbAll 64 Standard.compress next.s (next.buf.toList.take bufsize ++ rest) =
        taken (message ++ data) ∧
      next.bytes + UInt64.ofNat rest.length = UInt64.ofNat (message ++ data).length ∧
      (bufsize = 0 ∨ bufsize + rest.length < 64) := by
  have total : BlockFold.absorbAll 64 Standard.compress sha.s
      ((taken message).2 ++ data) = taken (message ++ data) := by
    rw [represents.state]
    exact (BlockFold.absorbAll_append (by decide) initial message data).symm
  have small := length_taken_lt message
  have buffered := represents.buffered
  unfold CSHA256.fillBuffer
  simp only [represents.bufsize_eq]
  generalize (taken message).2 = front at total small buffered
  split_ifs with enough
  · have sum : message.length + (64 - front.length + (data.length - (64 - front.length))) =
        message.length + data.length := by omega
    have length : (data.take (64 - front.length)).length = 64 - front.length :=
      List.length_take_of_le (by omega)
    have full : (copyInto sha.buf front.length (data.take (64 - front.length))).toList =
        front ++ data.take (64 - front.length) := by
      have fits : front.length + (data.take (64 - front.length)).length ≤ 64 := by
        rw [length]
        omega
      have copied := copyInto_take sha.buf fits
      rw [length, Nat.add_sub_cancel' small.le, buffered, List.take_of_length_le
        (by rw [Vector.length_toList])] at copied
      exact copied
    refine ⟨_, _, _, rfl, ?_, ?_, Or.inl rfl⟩
    · rw [← total, List.take_zero, List.nil_append, full, transform_eq_compress]
      rw [← List.take_append_drop (64 - front.length) data, ← List.append_assoc,
        BlockFold.absorbAll_block_append (by decide) (by rw [List.length_append, length]; omega)]
      rw [List.take_append_drop]
    · simp only
      rw [represents.count, UInt64.add_assoc, ← UInt64.ofNat_add, ← UInt64.ofNat_add,
        List.length_drop, List.length_append, sum]
  · refine ⟨_, _, _, rfl, ?_, ?_, ?_⟩
    · rw [buffered]
      exact total
    · rw [represents.count, ← UInt64.ofNat_add, List.length_append]
    · omega

/-- A part is written, whatever its length. -/
theorem Represents.write (represents : Represents sha message) (data : List UInt8) :
    Represents (sha.write data) (message ++ data) := by
  obtain ⟨next, rest, bufsize, filled, total, bytes, room⟩ := represents.fillBuffer data
  obtain ⟨chunks, buf, chunkBytes⟩ := writeChunks_spec next rest
  have small := length_taken_lt (message ++ data)
  have written : sha.write data =
      (next.writeChunks rest).1.keepRest bufsize (next.writeChunks rest).2 := by
    unfold CSHA256.write
    rw [filled]
  rw [written]
  generalize next.writeChunks rest = written at chunks buf chunkBytes
  obtain ⟨after, left⟩ := written
  simp only at chunks buf chunkBytes
  have count := chunkBytes.trans bytes
  rcases room with rfl | short
  · rw [List.take_zero, List.nil_append, ← chunks] at total
    rw [← total] at small
    have fits : 0 + left.length ≤ 64 := by
      rw [Nat.zero_add]
      exact small.le
    obtain ⟨state, kept, keptBytes⟩ := after.keepRest_spec fits
    rw [Nat.zero_add, List.take_zero, List.nil_append] at kept
    exact ⟨by rw [state, ← total], by rw [← total]; exact kept, keptBytes.trans count⟩
  · rw [BlockFold.absorbAll_of_lt (Nat.lt_of_le_of_lt (Nat.le_add_left _ _) short)] at chunks
    obtain ⟨sameState, sameRest⟩ := Prod.mk.inj chunks
    have length : (next.buf.toList.take bufsize).length = bufsize :=
      List.length_take_of_le (by rw [Vector.length_toList]; omega)
    rw [BlockFold.absorbAll_of_lt (by rw [List.length_append, length]; exact short)] at total
    rw [← sameRest] at short total
    obtain ⟨state, kept, keptBytes⟩ := after.keepRest_spec short.le
    refine ⟨by rw [← total]; exact state.trans sameState, ?_, keptBytes.trans count⟩
    rw [← total]
    simp only [List.length_append, length]
    rw [kept, buf]

theorem Represents.writes (represents : Represents sha message) (parts : List (List UInt8)) :
    Represents (parts.foldl CSHA256.write sha) (message ++ parts.flatten) := by
  induction parts generalizing sha message with
  | nil =>
      rw [List.flatten_nil, List.append_nil]
      exact represents
  | cons part parts ih =>
      rw [List.flatten_cons, ← List.append_assoc]
      exact ih (represents.write part)

theorem represents_new (buf : Vector UInt8 64) : Represents (new buf) [] := by
  have nothing : taken [] = (initial, []) := BlockFold.absorbAll_of_lt (by decide)
  constructor
  · rw [nothing]
    rfl
  · rw [nothing]
    rfl
  · rfl

/-- Whatever was written before, an object that is reset is a new one. -/
theorem represents_reset (sha : CSHA256) : Represents sha.reset [] := represents_new sha.buf

theorem zeros_eq (length : Nat) : Standard.zeros length = (119 - length % 64) % 64 := by
  rw [Standard.zeros, Nat.find_eq_iff]
  constructor
  · omega
  · intro k fewer
    omega

theorem pad_take {k : Nat} (few : k < 64) : pad.take (1 + k) = 0x80 :: List.replicate k 0 := by
  rw [pad, Nat.add_comm, List.take_succ_cons, List.take_replicate, Nat.min_eq_left (by omega)]

/-- The padding is that of the standard where the length in bits fits its eight bytes. -/
theorem Represents.finalize (represents : Represents sha message)
    (bound : message.length < 2 ^ 61) : sha.finalize.1 = Standard.digest message := by
  have bits : (sha.bytes <<< 3).toNat = 8 * message.length := by
    have small : message.length % 2 ^ 64 = message.length := Nat.mod_eq_of_lt (by omega)
    rw [represents.count, UInt64.toNat_shiftLeft, UInt64.toNat_ofNat', small, Nat.shiftLeft_eq,
      Nat.mul_comm]
    exact Nat.mod_eq_of_lt (show 8 * message.length < 2 ^ 64 by omega)
  have count : sha.bytes.toNat % 64 = message.length % 64 := by
    rw [represents.bufsize_eq, taken, BlockFold.length_absorbAll (by decide)]
  have padding := (represents.write (0x80 :: List.replicate (Standard.zeros message.length) 0)).write
    (writeBE 8 (8 * message.length))
  have parts : message ++ 0x80 :: List.replicate (Standard.zeros message.length) 0 ++
      writeBE 8 (8 * message.length) = Standard.padded message := by
    rw [Standard.padded]
    simp only [List.append_assoc, List.nil_append, List.cons_append]
  rw [parts] at padding
  rw [CSHA256.finalize, bits, count, pad_take (Nat.mod_lt _ (by decide)), ← zeros_eq]
  simp only
  rw [padding.state]
  rfl

end CSHA256

namespace CHash256

theorem writes_sha (hasher : CHash256) (parts : List (List UInt8)) :
    (parts.foldl CHash256.write hasher).sha = parts.foldl CSHA256.write hasher.sha := by
  induction parts generalizing hasher with
  | nil => rfl
  | cons part parts ih => exact ih (hasher.write part)

theorem length_digest (message : List UInt8) : (Standard.digest message).length = 32 := by
  rw [Standard.digest, List.length_flatMap]
  generalize (BlockFold.absorbAll 64 Standard.compress initial (Standard.padded message)).1 = words
  have four : ∀ word : UInt32, (writeBE 4 word.toNat).length = 4 := by
    intro word
    rw [writeBE, List.length_map, List.length_range]
  simp [four]

theorem finalize_eq {hasher : CHash256} {message : List UInt8}
    (represents : hasher.sha.Represents message) (bound : message.length < 2 ^ 61) :
    hasher.finalize = Standard.digest (Standard.digest message) := by
  have second := (CSHA256.represents_reset hasher.sha.finalize.2).write hasher.sha.finalize.1
  have short : ([] ++ hasher.sha.finalize.1).length < 2 ^ 61 := by
    rw [List.nil_append, represents.finalize bound, length_digest]
    decide
  have digests := second.finalize short
  rw [List.nil_append, represents.finalize bound] at digests
  rw [CHash256.finalize]
  simp only
  rw [represents.finalize bound]
  exact digests

end CHash256

/-- The unrolled transformation is the compression of the standard, and a message that is written in
parts, to a new object or to one that is reset, has the digest of the standard. -/
theorem sha256_exact :
    (∀ s chunk, transform s chunk = Standard.compress s chunk) ∧
    (∀ (sha : CSHA256) (parts : List (List UInt8)), parts.flatten.length < 2 ^ 61 →
      (parts.foldl CSHA256.write (CSHA256.new sha.buf)).finalize.1 =
        Standard.digest parts.flatten ∧
      (parts.foldl CSHA256.write sha.reset).finalize.1 = Standard.digest parts.flatten) ∧
    ∀ (buf other : Vector UInt8 64) (parts : List (List UInt8)),
      parts.flatten.length < 2 ^ 61 →
        hash buf parts.flatten = Standard.digest (Standard.digest parts.flatten) ∧
        hashWriter other parts = hash buf parts.flatten := by
  refine ⟨transform_eq_compress, ?_, ?_⟩
  · intro sha parts bound
    exact ⟨((CSHA256.represents_new sha.buf).writes parts).finalize bound,
      ((CSHA256.represents_reset sha).writes parts).finalize bound⟩
  · intro buf other parts bound
    have whole : hash buf parts.flatten = Standard.digest (Standard.digest parts.flatten) :=
      CHash256.finalize_eq ((CSHA256.represents_new buf).write parts.flatten) bound
    have written := (CSHA256.represents_new other).writes parts
    have inParts : hashWriter other parts = Standard.digest (Standard.digest parts.flatten) := by
      refine CHash256.finalize_eq ?_ bound
      rw [CHash256.writes_sha]
      exact written
    exact ⟨whole, inParts.trans whole.symm⟩

theorem sha256_exact_abc :
    ([[97, 98], [], [99]].foldl CSHA256.write (CSHA256.new (Vector.replicate 64 0))).finalize.1 =
      Standard.digest [97, 98, 99] :=
  (sha256_exact.2.1 (CSHA256.new (Vector.replicate 64 0)) [[97, 98], [], [99]] (by decide)).1

end Lycancoin
