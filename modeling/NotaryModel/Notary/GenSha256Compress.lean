import NotaryModel.Circuit.Gates
import NotaryModel.Crypto.Fips180

open Circuit
open Fips180 (Word Working)

namespace Notary.GenSha256Compress

structure Builder where
  nextWire : Nat
  gates    : List Gate
  zero     : Nat
  one      : Nat

abbrev Build := StateM Builder

-- The constants come from the first input bit: `zero` is its XOR with itself.
def Builder.new (nInputBits : Nat) : Builder where
  nextWire := nInputBits + 2
  gates    := [⟨.xor, 0, 0, nInputBits⟩, ⟨.inv, nInputBits, 0, nInputBits + 1⟩]
  zero     := nInputBits
  one      := nInputBits + 1

def allocWire : Build Nat :=
  modifyGet fun b => (b.nextWire, { b with nextWire := b.nextWire + 1 })

def gate (kind : GateKind) (in1 in2 : Nat) : Build Nat := do
  let out ← allocWire
  modify fun b => { b with gates := b.gates ++ [⟨kind, in1, in2, out⟩] }
  return out

def xor (a b : Nat) : Build Nat := gate .xor a b
def and (a b : Nat) : Build Nat := gate .and a b
def inv (a : Nat)   : Build Nat := gate .inv a 0

-- What is written of a circuit: the numbers of its header and its gates.
structure Bristol where
  nGates : Nat
  nWires : Nat
  n1     : Nat
  n2     : Nat
  n3     : Nat
  gates  : List Gate

def gateLine (g : Gate) : String :=
  match g.kind with
  | .inv => "1 1 " ++ toString g.in1 ++ " " ++ toString g.out ++ " INV\n"
  | .xor => "2 1 " ++ toString g.in1 ++ " " ++ toString g.in2 ++ " " ++ toString g.out ++ " XOR\n"
  | .and => "2 1 " ++ toString g.in1 ++ " " ++ toString g.in2 ++ " " ++ toString g.out ++ " AND\n"

def Bristol.text (c : Bristol) : String :=
  toString c.nGates ++ " " ++ toString c.nWires ++ "\n" ++
    toString c.n1 ++ " " ++ toString c.n2 ++ "   " ++ toString c.n3 ++ "\n\n" ++
    String.join (c.gates.map gateLine)

-- The gates that pass the outputs on to the last wires are added first.
def Builder.toBristol (b : Builder) (n1 n2 : Nat) (outputWires : List Nat) : Bristol :=
  let (finalOutputs, b') := (outputWires.mapM fun ow => xor ow b.zero).run b
  {
    nGates := b'.gates.length
    nWires := b'.nextWire
    n1
    n2
    n3     := finalOutputs.length
    gates  := b'.gates
  }

def Builder.write (b : Builder) (n1 n2 : Nat) (outputWires : List Nat) : String :=
  (b.toBristol n1 n2 outputWires).text

-- The 32 wires of a word, the most significant bit first.
abbrev U32 := Vector Nat 32

def constantU32 (value : Word) : Build U32 := do
  let b ← get
  return .ofFn fun i : Fin 32 => if (value >>> (31 - i.val)) &&& 1 = 1 then b.one else b.zero

def inputWord (startWire : Nat) : U32 :=
  .ofFn fun i => startWire + i

def xorU32 (x y : U32) : Build U32 :=
  Vector.ofFnM fun i => xor x[i] y[i]

def andU32 (x y : U32) : Build U32 :=
  Vector.ofFnM fun i => and x[i] y[i]

def notU32 (a : U32) : Build U32 :=
  Vector.ofFnM fun i => inv a[i]

def rotrU32 (a : U32) (n : Nat) : U32 :=
  .ofFn fun k => a[(k.val + 32 - n % 32) % 32]

def shrU32 (a : U32) (n : Nat) : Build U32 := do
  let b ← get
  return .ofFn fun k => if n ≤ k.val then a[k.val - n] else b.zero

-- A full adder for bit `i` of the sum.
def addBit (x y : U32) : U32 × Nat → Fin 31 → Build (U32 × Nat)
  | (sum, carry), i => do
    let i := i.castSucc
    let t1 ← xor x[i] y[i]
    let s ← xor t1 carry
    let t2 ← and x[i] y[i]
    let t3 ← and t1 carry
    let carry ← xor t2 t3
    return (sum.set i s, carry)

def addU32 (x y : U32) : Build U32 := do
  let i : Fin 32 := 31
  let s ← xor x[i] y[i]
  let carry ← and x[i] y[i]
  let sum := (Vector.replicate 32 0).set i s
  let (sum, _) ← (List.finRange 31).reverse.foldlM (addBit x y) (sum, carry)
  return sum

def ch (x y z : U32) : Build U32 := do
  let xy ← andU32 x y
  let nx ← notU32 x
  let nxz ← andU32 nx z
  xorU32 xy nxz

def maj (x y z : U32) : Build U32 := do
  let xy ← andU32 x y
  let xz ← andU32 x z
  let yz ← andU32 y z
  let a ← xorU32 xy xz
  xorU32 a yz

def bigSigma0 (x : U32) : Build U32 := do
  let e ← xorU32 (rotrU32 x 2) (rotrU32 x 13)
  xorU32 e (rotrU32 x 22)

def bigSigma1 (x : U32) : Build U32 := do
  let e ← xorU32 (rotrU32 x 6) (rotrU32 x 11)
  xorU32 e (rotrU32 x 25)

def smallSigma0 (x : U32) : Build U32 := do
  let d ← shrU32 x 3
  let e ← xorU32 (rotrU32 x 7) (rotrU32 x 18)
  xorU32 e d

def smallSigma1 (x : U32) : Build U32 := do
  let d ← shrU32 x 10
  let e ← xorU32 (rotrU32 x 17) (rotrU32 x 19)
  xorU32 e d

def k : List Word :=
  [0x428a2f98, 0x71374491, 0xb5c0fbcf, 0xe9b5dba5, 0x3956c25b, 0x59f111f1, 0x923f82a4, 0xab1c5ed5,
   0xd807aa98, 0x12835b01, 0x243185be, 0x550c7dc3, 0x72be5d74, 0x80deb1fe, 0x9bdc06a7, 0xc19bf174,
   0xe49b69c1, 0xefbe4786, 0x0fc19dc6, 0x240ca1cc, 0x2de92c6f, 0x4a7484aa, 0x5cb0a9dc, 0x76f988da,
   0x983e5152, 0xa831c66d, 0xb00327c8, 0xbf597fc7, 0xc6e00bf3, 0xd5a79147, 0x06ca6351, 0x14292967,
   0x27b70a85, 0x2e1b2138, 0x4d2c6dfc, 0x53380d13, 0x650a7354, 0x766a0abb, 0x81c2c92e, 0x92722c85,
   0xa2bfe8a1, 0xa81a664b, 0xc24b8b70, 0xc76c51a3, 0xd192e819, 0xd6990624, 0xf40e3585, 0x106aa070,
   0x19a4c116, 0x1e376c08, 0x2748774c, 0x34b0bcb5, 0x391c0cb3, 0x4ed8aa4a, 0x5b9cca4f, 0x682e6ff3,
   0x748f82ee, 0x78a5636f, 0x84c87814, 0x8cc70208, 0x90befffa, 0xa4506ceb, 0xbef9a3f7, 0xc67178f2]

def scheduleWord (w : Nat → U32) (i : Nat) : Build (Nat → U32) := do
  let s1 ← smallSigma1 (w (i - 2))
  let s0 ← smallSigma0 (w (i - 15))
  let t ← addU32 s1 (w (i - 7))
  let u ← addU32 s0 (w (i - 16))
  let wi ← addU32 t u
  return Function.update w i wi

def round (w : Nat → U32) (v : Working U32) (i : Nat) : Build (Working U32) := do
  let ki ← constantU32 (k.getD i 0)
  let s1 ← bigSigma1 v.e
  let chv ← ch v.e v.f v.g
  let t ← addU32 v.h s1
  let t ← addU32 t chv
  let t ← addU32 t ki
  let t1 ← addU32 t (w i)
  let s0 ← bigSigma0 v.a
  let mj ← maj v.a v.b v.c
  let t2 ← addU32 s0 mj
  let e ← addU32 v.d t1
  let a ← addU32 t1 t2
  return ⟨a, v.a, v.b, v.c, e, v.e, v.f, v.g⟩

def compression : Build (List Nat) := do
  let h i := inputWord (i * 32)
  let w i := if i < 16 then inputWord (256 + i * 32) else .replicate 32 0
  let w ← (List.range' 16 48).foldlM scheduleWord w
  let v ← (List.range' 0 64).foldlM (round w) ⟨h 0, h 1, h 2, h 3, h 4, h 5, h 6, h 7⟩
  let a ← addU32 v.a (h 0)
  let b ← addU32 v.b (h 1)
  let c ← addU32 v.c (h 2)
  let d ← addU32 v.d (h 3)
  let e ← addU32 v.e (h 4)
  let f ← addU32 v.f (h 5)
  let g ← addU32 v.g (h 6)
  let hh ← addU32 v.h (h 7)
  return [a, b, c, d, e, f, g, hh].flatMap Vector.toList

def buildCompression : List Nat × Builder :=
  compression.run (Builder.new 768)

end Notary.GenSha256Compress
