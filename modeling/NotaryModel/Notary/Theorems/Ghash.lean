import NotaryModel.Crypto.BinaryPoly
import NotaryModel.Notary.Ghash

open BinaryPoly Polynomial

namespace Notary

-- Bit `i` of a block, where bit 0 is the most significant bit of byte 0.
def blockBit (x : Arr 16) (i : Fin 128) : Bool :=
  x[i.val / 8].toNat.testBit (7 - i.val % 8)

-- A block as a polynomial over GF(2): bit `i` is the coefficient of `x ^ i`.
noncomputable def blockPoly (x : Arr 16) : Poly :=
  ∑ i : Fin 128, bit (blockBit x i) * X ^ i.val

noncomputable def gcmPoly : Poly :=
  X ^ 128 + X ^ 7 + X ^ 2 + X + 1

section

theorem length_bytesToBits (bs : Bytes) : (bytesToBits bs).length = 8 * bs.length := by
  simp [bytesToBits, List.length_flatMap, Nat.mul_comm]

theorem getElem?_bytesToBits (bs : Bytes) (h : j < 8) :
    (bytesToBits bs)[8 * i + j]? = bs[i]?.map fun b => b.toNat.testBit (7 - j) := by
  induction bs generalizing i
  case nil          => simp [bytesToBits]
  case cons b bs hi =>
    have hb : bytesToBits (b :: bs) =
        (List.range 8).reverse.map (fun i => b.toNat.testBit i) ++ bytesToBits bs := rfl
    have hl : ((List.range 8).reverse.map fun i => b.toNat.testBit i).length = 8 := by simp
    rw [hb]
    cases i
    case zero =>
      rw [Nat.mul_zero, Nat.zero_add, List.getElem?_append_left (by omega)]
      simp [h]
    case succ i =>
      rw [List.getElem?_append_right (by omega), hl, Nat.mul_succ, Nat.add_right_comm,
        Nat.add_sub_cancel, hi]
      simp

theorem getD_bytesToBits (x : Arr 16) (i : Fin 128) :
    (bytesToBits x.toList).getD i false = blockBit x i := by
  have hd : 8 * (i.val / 8) + i.val % 8 = i := Nat.div_add_mod _ _
  have hi : i.val / 8 < 16 := by omega
  have h := getElem?_bytesToBits (i := i.val / 8) x.toList (Nat.mod_lt i.val (by decide : 0 < 8))
  rw [hd] at h
  rw [List.getD_eq_getElem?_getD, h]
  simp [blockBit, hi]

theorem blockPoly_eq (x : Arr 16) : blockPoly x = toPoly (bytesToBits x.toList) := by
  rw [toPoly_eq_sum, length_bytesToBits, Vector.length_toList, Finset.sum_range]
  exact Finset.sum_congr rfl fun i _ => by rw [getD_bytesToBits]

theorem byte_ext {a b : Byte} (h : ∀ j < 8, a.toNat.testBit j = b.toNat.testBit j) : a = b := by
  refine UInt8.toNat_inj.mp <| Nat.eq_of_testBit_eq fun j => ?_
  by_cases hj : j < 8
  · exact h j hj
  · have hb (b : Byte) : b.toNat < 2 ^ j :=
      Nat.lt_of_lt_of_le (UInt8.toNat_lt b) (Nat.pow_le_pow_right Nat.two_pos (not_lt.mp hj))
    rw [Nat.testBit_lt_two_pow (hb _), Nat.testBit_lt_two_pow (hb _)]

theorem blockBit_injective (h : ∀ i, blockBit x i = blockBit y i) : x = y := by
  ext i hi
  refine congrArg _ <| byte_ext fun j hj => ?_
  have h := h ⟨8 * i + (7 - j), by omega⟩
  have hd : (8 * i + (7 - j)) / 8 = i := by omega
  have hm : 7 - (8 * i + (7 - j)) % 8 = j := by omega
  simpa only [blockBit, hd, hm] using h

theorem testBit_bitsToByte (f : Nat → Bool) (h : j < 8) :
    ((List.range 8).foldl (fun out j => if f j then out ||| (1 <<< UInt8.ofNat (7 - j)) else out)
      (0 : Byte)).toNat.testBit (7 - j) = f j := by
  have hb : ∀ b₀ b₁ b₂ b₃ b₄ b₅ b₆ b₇ : Bool, ∀ j < 8, ((List.range 8).foldl (fun out j =>
      if [b₀, b₁, b₂, b₃, b₄, b₅, b₆, b₇].getD j false then
        out ||| (1 <<< UInt8.ofNat (7 - j)) else out) (0 : Byte)).toNat.testBit (7 - j) =
      [b₀, b₁, b₂, b₃, b₄, b₅, b₆, b₇].getD j false := by
    decide +kernel
  have hf : ∀ j < 8, [f 0, f 1, f 2, f 3, f 4, f 5, f 6, f 7].getD j false = f j := by
    intro j hj
    interval_cases j <;> rfl
  have h := hb (f 0) (f 1) (f 2) (f 3) (f 4) (f 5) (f 6) (f 7) j h
  rw [hf j ‹_›] at h
  rw [←h]
  rfl

theorem bytesToBits_bitsToBytes (h : bits.length = 8 * n) :
    bytesToBits (bitsToBytes n bits).toList = bits := by
  refine List.ext_getElem? fun i => ?_
  have hd : 8 * (i / 8) + i % 8 = i := Nat.div_add_mod _ _
  rw [←hd, getElem?_bytesToBits _ (Nat.mod_lt i (by decide))]
  by_cases hi : i < 8 * n
  · have hi8 : i / 8 < n := by omega
    have hl : i < bits.length := by omega
    have hb := testBit_bitsToByte (fun j => bits.getD (8 * (i / 8) + j) false)
      (Nat.mod_lt i (by decide : 0 < 8))
    rw [hd, List.getD_eq_getElem _ _ hl] at hb
    rw [hd, List.getElem?_eq_getElem hl, ←hb]
    simp [bitsToBytes, hi8]
  · have hi8 : n ≤ i / 8 := by omega
    simp [hi8, hd, h, Nat.not_lt.mp hi]

theorem bytesToBits_bitsToBytes16 (h : bits.length = 128) :
    bytesToBits (bitsToBytes16 bits).toList = bits :=
  bytesToBits_bitsToBytes (n := 16) h

end

theorem degree_gcmPoly_tail : (X ^ 7 + X ^ 2 + X + 1 : Poly).degree < (128 : Nat) := by
  refine lt_of_le_of_lt (b := ((7 : Nat) : WithBot Nat)) ?_ (by norm_cast)
  compute_degree
  norm_num

theorem gcmPoly_eq : gcmPoly = X ^ 128 + (X ^ 7 + X ^ 2 + X + 1) := by
  unfold gcmPoly
  generalize (X ^ 128 : Poly) = p
  ring

theorem gcmPoly_monic : gcmPoly.Monic :=
  gcmPoly_eq ▸ monic_X_pow_add degree_gcmPoly_tail

theorem degree_gcmPoly : gcmPoly.degree = (128 : Nat) := by
  rw [gcmPoly_eq, degree_add_eq_left_of_degree_lt, degree_X_pow]
  rw [degree_X_pow]
  exact degree_gcmPoly_tail

noncomputable abbrev residue : Poly →+* AdjoinRoot gcmPoly :=
  AdjoinRoot.mk gcmPoly

-- The reduction of the loop: what is shifted out is put back in at four places.
theorem residue_X_pow : residue (X ^ 128) = residue (1 + X + X ^ 2 + X ^ 7) := by
  refine AdjoinRoot.mk_eq_mk.mpr ⟨1, ?_⟩
  rw [gcmPoly_eq, mul_one, CharTwo.sub_eq_add]
  congr 1
  ring

theorem residue_shift (h : v.length = 128) : residue (toPoly (ghashMulRound (z, v) b).2) =
    residue X * residue (toPoly v) := by
  have hl : (false :: v.take 127).length = 128 := by simp [h]
  rw [←map_mul, X_mul_toPoly (n := 127) h, map_add]
  simp only [ghashMulRound]
  cases v.getD 127 false
  case false => simp
  case true =>
    simp only [if_true, List.foldl_cons, List.foldl_nil]
    rw [toPoly_modify_not (by simp [h]), toPoly_modify_not (by simp [h]),
      toPoly_modify_not (by simp [h]), toPoly_modify_not (by simp [h])]
    rw [bit_true, one_mul, residue_X_pow, ←map_add]
    congr 1
    ring

theorem toPoly_accumulate (h : z.length = v.length) :
    toPoly (ghashMulRound (z, v) b).1 = toPoly z + bit b * toPoly v := by
  cases b
  case false => simp [ghashMulRound]
  case true  => simp [ghashMulRound, toPoly_zipWith_xor h]

theorem length_ghashMulRound (hz : z.length = 128) (hv : v.length = 128) :
    (ghashMulRound (z, v) b).1.length = 128 ∧ (ghashMulRound (z, v) b).2.length = 128 := by
  constructor
  · cases b <;> simp [ghashMulRound, hz, hv]
  · simp only [ghashMulRound]
    split <;> simp [hv]

-- `v` is the second factor times the power of `x` that the next bit stands for.
theorem residue_foldl (bits : List Bool) (hz : z.length = 128) (hv : v.length = 128) :
    (bits.foldl ghashMulRound (z, v)).1.length = 128 ∧
    residue (toPoly (bits.foldl ghashMulRound (z, v)).1) =
      residue (toPoly z) + residue (toPoly bits) * residue (toPoly v) := by
  induction bits generalizing z v
  case nil          => simp [hz]
  case cons b bs hi =>
    have ⟨hz', hv'⟩ := length_ghashMulRound (b := b) hz hv
    have ⟨hl, hr⟩ := hi hz' hv'
    refine ⟨hl, hr.trans ?_⟩
    rw [residue_shift hv, toPoly_accumulate (hz.trans hv.symm), toPoly_cons]
    simp only [map_add, map_mul]
    ring

theorem degree_blockPoly_lt (x : Arr 16) : (blockPoly x).degree < gcmPoly.degree := by
  rw [blockPoly_eq, degree_gcmPoly]
  have h := degree_toPoly_lt (bytesToBits x.toList)
  rwa [length_bytesToBits, Vector.length_toList] at h

theorem residue_ghashMulReference (x y : Arr 16) :
    residue (blockPoly (ghashMulReference x y)) = residue (blockPoly x) * residue (blockPoly y) := by
  have hl (x : Arr 16) : (bytesToBits x.toList).length = 128 := by
    rw [length_bytesToBits, Vector.length_toList]
  have ⟨h, hr⟩ := residue_foldl (bytesToBits x.toList)
    (List.length_replicate (n := 128) (a := false)) (hl y)
  rw [blockPoly_eq, ghashMulReference, bytesToBits_bitsToBytes16 h, hr, toPoly_replicate_false,
    map_zero, zero_add, blockPoly_eq, blockPoly_eq]

theorem blockPoly_injective (h : blockPoly x = blockPoly y) : x = y := by
  rw [blockPoly_eq, blockPoly_eq, toPoly_inj (by simp [length_bytesToBits])] at h
  refine blockBit_injective fun i => ?_
  rw [←getD_bytesToBits, ←getD_bytesToBits, h]

theorem blockPoly_xor (x y : Arr 16) : blockPoly (x ^^^ y) = blockPoly x + blockPoly y := by
  rw [blockPoly, blockPoly, blockPoly, ←Finset.sum_add_distrib]
  refine Finset.sum_congr rfl fun i _ => ?_
  have hb : blockBit (x ^^^ y) i = (blockBit x i ^^ blockBit y i) := by
    simp [blockBit, Nat.testBit_xor]
  rw [hb, bit_xor, add_mul]

theorem blockPoly_ghashMulReference (x y : Arr 16) :
    blockPoly (ghashMulReference x y) = (blockPoly x * blockPoly y) %ₘ gcmPoly := by
  have h := residue_ghashMulReference x y
  rw [←map_mul] at h
  rw [←modByMonic_eq_of_dvd_sub gcmPoly_monic (AdjoinRoot.mk_eq_mk.mp h)]
  exact ((modByMonic_eq_self_iff gcmPoly_monic).mpr (degree_blockPoly_lt _)).symm

theorem residue_injective (h : residue (blockPoly x) = residue (blockPoly y)) : x = y := by
  refine blockPoly_injective ?_
  have h := modByMonic_eq_of_dvd_sub gcmPoly_monic (AdjoinRoot.mk_eq_mk.mp h)
  rwa [(modByMonic_eq_self_iff gcmPoly_monic).mpr (degree_blockPoly_lt _),
    (modByMonic_eq_self_iff gcmPoly_monic).mpr (degree_blockPoly_lt _)] at h

theorem ghashMulReference_comm (x y : Arr 16) : ghashMulReference x y = ghashMulReference y x := by
  refine residue_injective ?_
  rw [residue_ghashMulReference, residue_ghashMulReference, mul_comm]

theorem ghashMulReference_assoc (x y z : Arr 16) :
    ghashMulReference (ghashMulReference x y) z = ghashMulReference x (ghashMulReference y z) := by
  refine residue_injective ?_
  simp only [residue_ghashMulReference, mul_assoc]

theorem ghashMulReference_xor (x y z : Arr 16) :
    ghashMulReference x (y ^^^ z) = ghashMulReference x y ^^^ ghashMulReference x z := by
  refine residue_injective ?_
  simp only [residue_ghashMulReference, blockPoly_xor, map_add, mul_add]

theorem ghashMulReference_isFieldMul (x y z : Arr 16) :
    blockPoly (ghashMulReference x y) = (blockPoly x * blockPoly y) %ₘ gcmPoly ∧
    ghashMulReference x y = ghashMulReference y x ∧
    ghashMulReference (ghashMulReference x y) z = ghashMulReference x (ghashMulReference y z) ∧
    ghashMulReference x (y ^^^ z) = ghashMulReference x y ^^^ ghashMulReference x z :=
  ⟨blockPoly_ghashMulReference x y, ghashMulReference_comm x y, ghashMulReference_assoc x y z,
    ghashMulReference_xor x y z⟩

end Notary
