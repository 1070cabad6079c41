import Mathlib.Data.List.Basic

/-!
# SHA-256

The hash function of FIPS 180-4 on byte strings, with its hexadecimal digest
as `hashlib.sha256(data).hexdigest()` prints it. Words are 32-bit.
-/

namespace Sha256

def roundConstants : List UInt32 :=
  [0x428a2f98, 0x71374491, 0xb5c0fbcf, 0xe9b5dba5, 0x3956c25b, 0x59f111f1, 0x923f82a4, 0xab1c5ed5,
    0xd807aa98, 0x12835b01, 0x243185be, 0x550c7dc3, 0x72be5d74, 0x80deb1fe, 0x9bdc06a7, 0xc19bf174,
    0xe49b69c1, 0xefbe4786, 0x0fc19dc6, 0x240ca1cc, 0x2de92c6f, 0x4a7484aa, 0x5cb0a9dc, 0x76f988da,
    0x983e5152, 0xa831c66d, 0xb00327c8, 0xbf597fc7, 0xc6e00bf3, 0xd5a79147, 0x06ca6351, 0x14292967,
    0x27b70a85, 0x2e1b2138, 0x4d2c6dfc, 0x53380d13, 0x650a7354, 0x766a0abb, 0x81c2c92e, 0x92722c85,
    0xa2bfe8a1, 0xa81a664b, 0xc24b8b70, 0xc76c51a3, 0xd192e819, 0xd6990624, 0xf40e3585, 0x106aa070,
    0x19a4c116, 0x1e376c08, 0x2748774c, 0x34b0bcb5, 0x391c0cb3, 0x4ed8aa4a, 0x5b9cca4f, 0x682e6ff3,
    0x748f82ee, 0x78a5636f, 0x84c87814, 0x8cc70208, 0x90befffa, 0xa4506ceb, 0xbef9a3f7, 0xc67178f2]

/-- The eight working variables, or the eight words of the hash so far. -/
structure Words where
  a : UInt32
  b : UInt32
  c : UInt32
  d : UInt32
  e : UInt32
  f : UInt32
  g : UInt32
  h : UInt32

def initial : Words :=
  ⟨0x6a09e667, 0xbb67ae85, 0x3c6ef372, 0xa54ff53a, 0x510e527f, 0x9b05688c, 0x1f83d9ab, 0x5be0cd19⟩

def rotr (x : UInt32) (n : Nat) : UInt32 :=
  (x >>> UInt32.ofNat n) ||| (x <<< UInt32.ofNat (32 - n))

def ch (x y z : UInt32) : UInt32 := (x &&& y) ^^^ ((~~~x) &&& z)

def maj (x y z : UInt32) : UInt32 := (x &&& y) ^^^ (x &&& z) ^^^ (y &&& z)

def bigSigma0 (x : UInt32) : UInt32 := rotr x 2 ^^^ rotr x 13 ^^^ rotr x 22

def bigSigma1 (x : UInt32) : UInt32 := rotr x 6 ^^^ rotr x 11 ^^^ rotr x 25

def smallSigma0 (x : UInt32) : UInt32 := rotr x 7 ^^^ rotr x 18 ^^^ (x >>> 3)

def smallSigma1 (x : UInt32) : UInt32 := rotr x 17 ^^^ rotr x 19 ^^^ (x >>> 10)

/-- The `n` big-endian bytes of a number. -/
def bigEndian : Nat → Nat → List UInt8
  | 0, _ => []
  | n + 1, x => bigEndian n (x / 256) ++ [UInt8.ofNat (x % 256)]

/-- The message, a one bit, zeros up to 56 bytes mod 64, and the bit length. -/
def pad (data : List UInt8) : List UInt8 :=
  data ++ 0x80 :: (List.replicate ((119 - data.length % 64) % 64) 0 ++
    bigEndian 8 (data.length * 8))

def word : List UInt8 → UInt32
  | bytes => UInt32.ofNat (bytes.foldl (fun n b => n * 256 + b.toNat) 0)

def wordsOf : List UInt8 → List UInt32
  | w :: x :: y :: z :: rest => word [w, x, y, z] :: wordsOf rest
  | _ => []

/-- The window holds the last sixteen words of the schedule, oldest first. -/
def nextWord (window : List UInt32) : UInt32 :=
  smallSigma1 (window.getD 14 0) + window.getD 9 0 + smallSigma0 (window.getD 1 0) +
    window.getD 0 0

def round (k w : UInt32) (s : Words) : Words :=
  let t1 := s.h + bigSigma1 s.e + ch s.e s.f s.g + k + w
  let t2 := bigSigma0 s.a + maj s.a s.b s.c
  ⟨t1 + t2, s.a, s.b, s.c, s.d + t1, s.e, s.f, s.g⟩

def rounds : List UInt32 → List UInt32 → Words → Words
  | [], _, s => s
  | k :: ks, window, s =>
    rounds ks (window.drop 1 ++ [nextWord window]) (round k (window.getD 0 0) s)

def compress (hash : Words) (block : List UInt32) : Words :=
  let s := rounds roundConstants block hash
  ⟨hash.a + s.a, hash.b + s.b, hash.c + s.c, hash.d + s.d,
    hash.e + s.e, hash.f + s.f, hash.g + s.g, hash.h + s.h⟩

/-- Compress the first `n` blocks of sixteen words. -/
def blocks : Nat → List UInt32 → Words → Words
  | 0, _, hash => hash
  | n + 1, ws, hash => blocks n (ws.drop 16) (compress hash (ws.take 16))

def digest (data : List UInt8) : List UInt8 :=
  let ws := wordsOf (pad data)
  let hash := blocks (ws.length / 16) ws initial
  [hash.a, hash.b, hash.c, hash.d, hash.e, hash.f, hash.g, hash.h].flatMap
    (fun w => bigEndian 4 w.toNat)

def hexNibble (n : Nat) : Char := if n < 10 then Char.ofNat (48 + n) else Char.ofNat (87 + n)

def hexdigest (data : List UInt8) : String :=
  String.ofList ((digest data).flatMap
    (fun b => [hexNibble (b.toNat / 16), hexNibble (b.toNat % 16)]))

example : hexdigest [] =
    "e3b0c44298fc1c149afbf4c8996fb92427ae41e4649b934ca495991b7852b855" := by decide +kernel

end Sha256
