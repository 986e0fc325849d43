import Mathlib

-- The compression function of SHA-256 as FIPS 180-4 gives it.
namespace Fips180

abbrev Word := BitVec 32

def ch (x y z : Word) : Word :=
  (x &&& y) ^^^ (~~~x &&& z)

def maj (x y z : Word) : Word :=
  (x &&& y) ^^^ (x &&& z) ^^^ (y &&& z)

def bigSigma0 (x : Word) : Word :=
  x.rotateRight 2 ^^^ x.rotateRight 13 ^^^ x.rotateRight 22

def bigSigma1 (x : Word) : Word :=
  x.rotateRight 6 ^^^ x.rotateRight 11 ^^^ x.rotateRight 25

def smallSigma0 (x : Word) : Word :=
  x.rotateRight 7 ^^^ x.rotateRight 18 ^^^ x >>> 3

def smallSigma1 (x : Word) : Word :=
  x.rotateRight 17 ^^^ x.rotateRight 19 ^^^ x >>> 10

-- Section 4.2.2: the constants, row by row.
def constants : List (List Word) :=
  [[0x428a2f98, 0x71374491, 0xb5c0fbcf, 0xe9b5dba5, 0x3956c25b, 0x59f111f1, 0x923f82a4, 0xab1c5ed5],
   [0xd807aa98, 0x12835b01, 0x243185be, 0x550c7dc3, 0x72be5d74, 0x80deb1fe, 0x9bdc06a7, 0xc19bf174],
   [0xe49b69c1, 0xefbe4786, 0x0fc19dc6, 0x240ca1cc, 0x2de92c6f, 0x4a7484aa, 0x5cb0a9dc, 0x76f988da],
   [0x983e5152, 0xa831c66d, 0xb00327c8, 0xbf597fc7, 0xc6e00bf3, 0xd5a79147, 0x06ca6351, 0x14292967],
   [0x27b70a85, 0x2e1b2138, 0x4d2c6dfc, 0x53380d13, 0x650a7354, 0x766a0abb, 0x81c2c92e, 0x92722c85],
   [0xa2bfe8a1, 0xa81a664b, 0xc24b8b70, 0xc76c51a3, 0xd192e819, 0xd6990624, 0xf40e3585, 0x106aa070],
   [0x19a4c116, 0x1e376c08, 0x2748774c, 0x34b0bcb5, 0x391c0cb3, 0x4ed8aa4a, 0x5b9cca4f, 0x682e6ff3],
   [0x748f82ee, 0x78a5636f, 0x84c87814, 0x8cc70208, 0x90befffa, 0xa4506ceb, 0xbef9a3f7, 0xc67178f2]]

def constant (t : Nat) : Word :=
  constants.flatten.getD t 0

def schedule (m : Vector Word 16) (t : Nat) : Word :=
  if h : t < 16 then
    m[t]
  else
    smallSigma1 (schedule m (t - 2)) + schedule m (t - 7) +
      smallSigma0 (schedule m (t - 15)) + schedule m (t - 16)
termination_by t

structure Working (α : Type) where
  a : α
  b : α
  c : α
  d : α
  e : α
  f : α
  g : α
  h : α

def round (k w : Word) (v : Working Word) : Working Word :=
  let t₁ := v.h + bigSigma1 v.e + ch v.e v.f v.g + k + w
  let t₂ := bigSigma0 v.a + maj v.a v.b v.c
  ⟨t₁ + t₂, v.a, v.b, v.c, v.d + t₁, v.e, v.f, v.g⟩

-- The working variables after `n` rounds.
def rounds (h : Vector Word 8) (m : Vector Word 16) : Nat → Working Word
  | 0     => ⟨h[0], h[1], h[2], h[3], h[4], h[5], h[6], h[7]⟩
  | n + 1 => round (constant n) (schedule m n) (rounds h m n)

def compress (h : Vector Word 8) (m : Vector Word 16) : List Word :=
  let v := rounds h m 64
  [v.a + h[0], v.b + h[1], v.c + h[2], v.d + h[3], v.e + h[4], v.f + h[5], v.g + h[6], v.h + h[7]]

end Fips180
