import NotaryModel.Crypto.Gcm

namespace Notary

-- The bits of each byte, most significant bit first.
def bytesToBits (bytes : Bytes) : List Bool :=
  bytes.flatMap fun b => (List.range 8).reverse.map fun i => b.toNat.testBit i

def bitsToBytes (n : Nat) (bits : List Bool) : Arr n :=
  .ofFn fun i => (List.range 8).foldl
    (fun out j => if bits.getD (8 * i + j) false then out ||| (1 <<< UInt8.ofNat (7 - j)) else out) 0

def bitsToBytes16 (bits : List Bool) : Arr 16 :=
  .ofFn fun i => (List.range 8).foldl
    (fun out j => if bits.getD (8 * i + j) false then out ||| (1 <<< UInt8.ofNat (7 - j)) else out) 0

-- One round of the multiplication: `z` collects the product, `v` is the second factor shifted to the
-- bit `xi` at hand and reduced by `1 + x + x^2 + x^7`.
def ghashMulRound : List Bool × List Bool → Bool → List Bool × List Bool
  | (z, v), xi =>
    let z := if xi then List.zipWith xor z v else z
    let lsb := v.getD 127 false
    let v := false :: v.take 127
    let v := if lsb then [0, 1, 2, 7].foldl (fun v r => v.modify r not) v else v
    (z, v)

-- The bit-serial multiplication of GF(2^128).
def ghashMulReference (x y : Arr 16) : Arr 16 :=
  let start := (List.replicate 128 false, bytesToBits y.toList)
  bitsToBytes16 ((bytesToBits x.toList).foldl ghashMulRound start).1

def ghashChainReference (h : Arr 16) (blocks : List (Arr 16)) : Arr 16 :=
  blocks.foldl (fun acc block => ghashMulReference (acc ^^^ block) h) 0

def zeroPadBlock (block : Arr 16) (validBytes : Nat) : Arr 16 :=
  if validBytes < 16 then block.mapIdx fun i b => if i < validBytes then b else 0 else block

-- Equality of two tags that looks at every byte.
def ctEq16 (a b : Arr 16) : Bool :=
  (List.finRange 16).foldl (fun diff i => diff ||| (a[i] ^^^ b[i])) 0 == 0

@[simp]
theorem getElem_zeroPadBlock (h : i < 16) :
    (zeroPadBlock block validBytes)[i] = if i < validBytes then block[i] else 0 := by
  unfold zeroPadBlock
  split
  case isTrue    => simp
  case isFalse h => simp [show i < validBytes by omega]

theorem zeroPadBlock_xor :
    zeroPadBlock (a ^^^ b) n = zeroPadBlock a n ^^^ zeroPadBlock b n := by
  ext i h
  by_cases hi : i < n <;> simp [hi]

theorem foldl_or_eq_zero_iff {l : List ι} {f : ι → Byte} {d : Byte} :
    l.foldl (fun d i => d ||| f i) d = 0 ↔ d = 0 ∧ ∀ i ∈ l, f i = 0 := by
  induction l generalizing d
  case nil          => simp
  case cons i l hi => simp [hi, UInt8.or_eq_zero_iff, and_assoc]

theorem ctEq16_iff : ctEq16 a b = true ↔ a = b := by
  simp only [ctEq16, beq_iff_eq, foldl_or_eq_zero_iff]
  simp [Vector.ext_iff, Fin.forall_iff]

theorem ghashChainReference_eq : ghashChainReference h bs = Gcm.ghash ghashMulReference h bs :=
  rfl

end Notary
