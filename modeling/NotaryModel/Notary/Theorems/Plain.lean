import NotaryModel.Notary.Plain
import NotaryModel.Notary.Theorems.Ghash

open Circuit

namespace Notary

namespace Plain

theorem bytesToBits_append (a b : Bytes) : bytesToBits (a ++ b) = bytesToBits a ++ bytesToBits b :=
  List.flatMap_append

theorem bytesToBits_zipWith_xor (a b : Bytes) : bytesToBits (List.zipWith (· ^^^ ·) a b) =
    List.zipWith xor (bytesToBits a) (bytesToBits b) := by
  induction a generalizing b
  case nil          => simp [bytesToBits]
  case cons x a hi =>
    cases b
    case nil       => simp [bytesToBits]
    case cons y b =>
      rw [List.zipWith_cons_cons, ←List.singleton_append, ←List.singleton_append (l := a),
        ←List.singleton_append (l := b), bytesToBits_append, bytesToBits_append, bytesToBits_append,
        hi, List.zipWith_append (by simp [length_bytesToBits])]
      simp [bytesToBits, List.zipWith_map, -List.map_reverse, List.zipWith_self]

theorem bytesToBits_xor (a b : Arr n) : bytesToBits (a ^^^ b).toList =
    List.zipWith xor (bytesToBits a.toList) (bytesToBits b.toList) := by
  rw [←bytesToBits_zipWith_xor]
  congr 1
  exact Vector.toList_zipWith

theorem bytesToBits_inj (hl : a.length = b.length) (h : bytesToBits a = bytesToBits b) : a = b := by
  refine List.ext_getElem hl fun i hi hi' => byte_ext fun j hj => ?_
  have h := congrArg (·[8 * i + (7 - j)]?) h
  simp only [getElem?_bytesToBits _ (show 7 - j < 8 by omega), List.getElem?_eq_getElem hi,
    List.getElem?_eq_getElem hi', Option.map_some, Option.some.injEq] at h
  rwa [show 7 - (7 - j) = j by omega] at h

theorem bitsToBytes_bytesToBits (x : Arr n) : bitsToBytes n (bytesToBits x.toList) = x :=
  Arr.toList_inj <| bytesToBits_inj (by simp) <| bytesToBits_bitsToBytes (by simp [length_bytesToBits])

theorem bitsToBytes_xor {mask : Arr n} (h : out.length = 8 * n) :
    bitsToBytes n (List.zipWith xor out (bytesToBits mask.toList)) = bitsToBytes n out ^^^ mask := by
  refine Arr.toList_inj <| bytesToBits_inj (by simp) ?_
  rw [bytesToBits_bitsToBytes (by simp [length_bytesToBits, h]), bytesToBits_xor,
    bytesToBits_bitsToBytes h]

theorem take_bitsToBytes (h : k ≤ n) :
    (bitsToBytes n l).toList.take k = (bitsToBytes k l).toList := by
  refine List.ext_getElem (by simp [h]) fun i _ _ => ?_
  simp [bitsToBytes]

section

namespace GhashMulCircuit

theorem round_eq (s : Vector Bool 128 × Vector Bool 128) (xi : Bool) :
    ghashMulRound (s.1.toList, s.2.toList) xi =
    ((round (M := Id) false s xi).run.1.toList, (round (M := Id) false s xi).run.2.toList) := by
  obtain ⟨z, v⟩ := s
  have hz : (Vector.ofFn fun j : Fin 128 => z[j.val] ^^ (xi && v[j.val])).toList =
      if xi then List.zipWith xor z.toList v.toList else z.toList := by
    refine List.ext_getElem (by cases xi <;> simp) fun i _ _ => ?_
    cases xi <;> simp
  have hv : (Vector.ofFn fun j : Fin 128 => if j.val = 0 then false else v[j.val - 1]).toList =
      false :: v.toList.take 127 := by
    refine List.ext_getElem (by simp) fun i _ _ => ?_
    cases i <;> simp
  have hr := toList_foldl_set_xor [0, 1, 2, 7]
    (.ofFn fun j : Fin 128 => if j.val = 0 then false else v[j.val - 1]) v[127]
  rw [hv] at hr
  have hl : v.toList.getD 127 false = v[127] := by simp [List.getD_eq_getElem?_getD]
  simp only [ghashMulRound, round, hl, ←hz, Id.run_bind, Vector.idRun_ofFnM, List.idRun_foldlM,
    Id.run_pure, FancyBinary.run_xor, FancyBinary.run_and]
  rw [hr]
  rfl

theorem executeOn_eq (x y : Vector Bool 128) : (executeOn (M := Id) x y).run.toList =
    (x.toList.foldl ghashMulRound (List.replicate 128 false, y.toList)).1 := by
  let lists (s : Vector Bool 128 × Vector Bool 128) := (s.1.toList, s.2.toList)
  have h : x.toList.foldl ghashMulRound (lists (Vector.replicate 128 false, y)) = lists _ :=
    List.foldl_hom lists round_eq
  simp only [lists, Vector.toList_replicate] at h
  rw [h]
  simp [executeOn]

-- The circuit multiplies as the reference does.
theorem executeOn_bits {x y : Vector Bool 128} (hx : x.toList = bytesToBits a.toList)
    (hy : y.toList = bytesToBits b.toList) :
    (executeOn (M := Id) x y).run.toList = bytesToBits (ghashMulReference a b).toList := by
  have h := executeOn_eq x y
  rw [hx, hy] at h
  rw [ghashMulReference, ←h, bytesToBits_bitsToBytes16 (by simp)]

theorem value_eq (v : Vector Bool 256) : (GhashMulCircuit.value v).toList =
    bytesToBits (ghashMulReference
      (bitsToBytes16 (v.toList.take 128)) (bitsToBytes16 (v.toList.drop 128))).toList := by
  simp only [BinaryCircuit.value, GhashMulCircuit]
  refine executeOn_bits ?_ ?_
  all_goals
    rw [bytesToBits_bitsToBytes16 (by simp)]
    exact List.ext_getElem (by simp) fun i _ _ => by simp

end GhashMulCircuit

end

-- The inputs of the chain in the order of `chainBits`.
theorem length_chainBits (blocks : List (Arr 16)) (h : Arr 16) :
    (chainBits blocks h).length = 128 + blocks.length * 128 := by
  induction blocks
  case nil            => simp [chainBits, length_bytesToBits]
  case cons b bs hi =>
    simp only [chainBits, List.length_append, List.flatMap_cons, length_bytesToBits,
      Vector.length_toList, List.length_cons] at hi ⊢
    omega

theorem take_chainBits : (chainBits blocks h).take 128 = bytesToBits h.toList :=
  List.take_left' (by simp [length_bytesToBits])

theorem slice_chainBits (hj : j < blocks.length) :
    ((chainBits blocks h).drop (128 + j * 128)).take 128 = bytesToBits blocks[j].toList := by
  have hl (b : Arr 16) : (bytesToBits b.toList).length = 128 := by simp [length_bytesToBits]
  rw [chainBits, ←List.drop_drop, List.drop_left' (hl h)]
  induction blocks generalizing j
  case nil          => cases hj
  case cons b bs hi =>
    rw [List.flatMap_cons]
    cases j
    case zero   => rw [Nat.zero_mul, List.drop_zero, List.take_left' (hl b)]; rfl
    case succ j =>
      rw [Nat.succ_mul, Nat.add_comm, ←List.drop_drop, List.drop_left' (hl b)]
      exact hi (Nat.lt_of_succ_lt_succ hj)

theorem chainBits_xor (h : as.length = bs.length) :
    List.zipWith xor (chainBits as hN) (chainBits bs hC) =
    chainBits (List.zipWith (· ^^^ ·) as bs) (hN ^^^ hC) := by
  have hl (a : Arr 16) : (bytesToBits a.toList).length = 128 := by simp [length_bytesToBits]
  simp only [chainBits]
  rw [List.zipWith_append (by rw [hl, hl]), ←bytesToBits_xor]
  congr 1
  induction as generalizing bs
  case nil          => simp
  case cons a as hi =>
    cases bs
    case nil       => cases h
    case cons b bs =>
      rw [List.zipWith_cons_cons, List.flatMap_cons, List.flatMap_cons, List.flatMap_cons,
        List.zipWith_append (by rw [hl, hl]), hi (Nat.succ.inj h), bytesToBits_xor]

namespace GhashChainCircuit

theorem value_eq {blocks : List (Arr 16)} {h : Arr 16} {v : Vector Bool (128 + n * 128)}
    (hn : blocks.length = n) (hv : v.toList = chainBits blocks h) :
    ((GhashChainCircuit n).value v).toList = bytesToBits (ghashChainReference h blocks).toList := by
  subst hn
  have hh : (Vector.ofFn fun i : Fin 128 => v[i.val]).toList = bytesToBits h.toList := by
    rw [←take_chainBits, ←hv]
    exact List.ext_getElem (by simp) fun i _ _ => by simp
  have hb (j : Fin blocks.length) :
      (v.toList.drop (128 + j.val * 128)).take 128 = bytesToBits blocks[j].toList := by
    rw [hv, slice_chainBits j.isLt]
    rfl
  have hr : ghashChainReference h blocks = (List.finRange blocks.length).foldl
      (fun acc j => ghashMulReference (acc ^^^ blocks[j]) h) 0 := by
    have hm : (List.finRange blocks.length).map (fun j => blocks[j]) = blocks := by simp
    conv_lhs => rw [ghashChainReference, ←hm, List.foldl_map]
  rw [hr]
  simp only [BinaryCircuit.value, GhashChainCircuit, Id.run_bind, Vector.idRun_ofFnM,
    List.idRun_foldlM, FancyBinary.run_constant, FancyBinary.run_xor]
  refine List.foldl_rel (r := fun (acc : Vector Bool 128) (x : Arr 16) =>
    acc.toList = bytesToBits x.toList) ?_ fun j _ acc x ha => ?_
  · rfl
  · refine GhashMulCircuit.executeOn_bits ?_ hh
    rw [bytesToBits_xor, ←ha, ←hb j]
    exact List.ext_getElem (by simp; omega) fun i _ _ => by simp

end GhashChainCircuit

-- The sessions.
section

variable {F : Functionality wires} {inner : BinaryCircuit s m}

theorem get_append_castAdd (xs : Vector α n) (ys : Vector α m) (i : Fin n) :
    (xs ++ ys).get (i.castAdd m) = xs.get i :=
  Vector.getElem_append_left i.isLt

theorem get_append_natAdd (xs : Vector α n) (ys : Vector α m) (i : Fin m) :
    (xs ++ ys).get (i.natAdd n) = ys.get i := by
  have h : (xs ++ ys)[n + i.val] = ys[n + i.val - n] :=
    Vector.getElem_append_right (by omega) (by omega)
  simp only [Nat.add_sub_cancel_left] at h
  exact h

-- The shares are added in front of the inner circuit, and the masks behind it.
theorem splitSharedInputMask_append (inner : Vector Bool s → Id (Vector Bool m))
    (sN sC : Vector Bool s) (mN mC : Vector Bool m) :
    (splitSharedInputMask (M := Id) inner ((sN ++ mN) ++ (sC ++ mC))).run =
    (inner (sN.zipWith xor sC)).run.zipWith xor (mN.zipWith xor mC) := by
  have h : (Vector.ofFn fun i : Fin s => sN.get i ^^ sC.get i) = sN.zipWith xor sC := by
    ext i hi
    rw [Vector.getElem_ofFn, Vector.getElem_zipWith]
    rfl
  simp only [splitSharedInputMask, Id.run_bind, Vector.idRun_ofFnM, FancyBinary.run_xor,
    get_append_castAdd, get_append_natAdd, h]
  ext i hi
  rw [Vector.getElem_ofFn, Vector.getElem_zipWith, Vector.getElem_zipWith]
  rfl

theorem encodeMany_meets {v : Vector Bool n} : Meets F 0
    (encodeMany owner v.toList n) (receiveMany owner n) fun a b => a = v ∧ b = v := by
  rw [encodeMany, dif_pos (by simp), receiveMany]
  refine .bind (k := 0) (j := 0) (.send_recv (Φ := fun _ b => b = _) rfl) ?_
  rintro _ _ rfl
  refine .pure ⟨rfl, ?_⟩
  ext i hi
  cases hv : v[i] <;> simp [hv]

theorem receiveMany_meets {v : Vector Bool n} : Meets F 0
    (receiveMany owner n) (encodeMany owner v.toList n) fun a b => a = v ∧ b = v := by
  rw [encodeMany, dif_pos (by simp), receiveMany]
  refine .bind (k := 0) (j := 0) (.recv_send (Φ := fun a _ => a = _) rfl) ?_
  rintro _ _ rfl
  refine .pure ⟨?_, rfl⟩
  ext i hi
  cases hv : v[i] <;> simp [hv]

-- The client's result is the output under the notary's mask.
theorem maskedRun_meets {x y : Vector Bool s} (hm : 8 * mask.length = m) : Meets F 0
    (notaryMaskedRun (SplitSharedInputMaskCircuit inner) x.toList mask)
    (clientMaskedRun (SplitSharedInputMaskCircuit inner) y.toList) fun share vals => share = mask ∧
      vals.toList = List.zipWith xor (inner.value (x.zipWith xor y)).toList (bytesToBits mask) := by
  let mN : Vector Bool m := ⟨(bytesToBits mask).toArray, by simp [length_bytesToBits, hm]⟩
  have hN : x.toList ++ bytesToBits mask = (x ++ mN).toList := by simp [mN]
  have hC : y.toList ++ List.replicate m false = (y ++ Vector.replicate m false).toList := by simp
  unfold notaryMaskedRun clientMaskedRun
  rw [hN, hC]
  refine .bind (k := 0) (j := 0) encodeMany_meets ?_
  rintro _ _ ⟨rfl, rfl⟩
  refine .bind (k := 0) (j := 0) receiveMany_meets ?_
  rintro _ _ ⟨rfl, rfl⟩
  refine .pure ⟨rfl, ?_⟩
  rw [BinaryCircuit.value, SplitSharedInputMaskCircuit, splitSharedInputMask_append,
    Vector.toList_zipWith]
  congr 1
  exact List.ext_getElem (by simp [mN, length_bytesToBits, hm]) fun i _ _ => by simp [mN]

theorem wrk17MaskedRun_meets {sN sC : Vector Bool s} {mask : Arr (m / 8)} (h₈ : 8 ∣ m)
    (hm : m ≤ 256) : Meets F 0
    (wrk17NotaryMaskedRun inner sN.toList mask) (wrk17ClientMaskedRun inner sC.toList) fun y y' =>
      y = mask.toList ∧
      y' = (bitsToBytes (m / 8) (inner.value (sN.zipWith xor sC)).toList ^^^ mask).toList := by
  have hl : 8 * (m / 8) = m := Nat.mul_div_cancel' h₈
  have hk : m / 8 ≤ 32 := by omega
  unfold wrk17NotaryMaskedRun wrk17ClientMaskedRun
  rw [←Prog.bind_pure (notaryMaskedRun ..)]
  refine .bind (k := 0) (j := 0) (maskedRun_meets (by simp [hl])) ?_
  rintro _ vals ⟨rfl, hv⟩
  simp only [if_pos hk]
  refine .pure ⟨rfl, ?_⟩
  rw [take_bitsToBytes hk, hv, bitsToBytes_xor (by simp [hl])]

end

-- Whatever the mask, every way to run the two sides against each other ends with the mask and the
-- masked output, which are shares of the output: the bytes whose bits, most significant bit first,
-- are those of the inner circuit on the sum of the shares.
theorem wrk17MaskedRun_splits (inner : BinaryCircuit s m) (h₈ : 8 ∣ m) (hm : m ≤ 256)
    (sN sC : Vector Bool s) (mask : Arr (m / 8)) (F : Functionality wires) (r : Masks wires) :
    ∃ out yN yC : Arr (m / 8),
      bytesToBits out.toList = (inner.value (sN.zipWith xor sC)).toList ∧
      yN ^^^ yC = out ∧ yC = out ^^^ mask ∧
      let p := wrk17NotaryMaskedRun inner sN.toList mask
      let q := wrk17ClientMaskedRun inner sC.toList
      ∀ s, Steps F r (.init p q) s → Steps F r s (.final yN.toList yC.toList 0) := by
  have hl : 8 * (m / 8) = m := Nat.mul_div_cancel' h₈
  obtain ⟨_, _, ⟨rfl, rfl⟩, h⟩ := (wrk17MaskedRun_meets h₈ hm).steps_to_final r
  refine ⟨_, _, _, bytesToBits_bitsToBytes (by simp [hl]), ?_, rfl, h⟩
  rw [Arr.xor_comm, Arr.xor_xor_cancel_right]

-- A circuit of one byte that negates nothing: its output is its input.
theorem wrk17MaskedRun_splits_of_byte :
    let inner : BinaryCircuit 8 8 := ⟨fun x => pure x⟩
    let F : Functionality wires := ⟨fun q => q.elim⟩
    let r : Masks wires := fun _ q => q.elim
    let sN := Vector.replicate 8 true
    let sC := Vector.replicate 8 false
    ∃ out yN yC : Arr 1,
      bytesToBits out.toList = (inner.value (sN.zipWith xor sC)).toList ∧
      yN ^^^ yC = out ∧ yC = out ^^^ #v[0x0f] ∧
      let p := wrk17NotaryMaskedRun inner sN.toList #v[0x0f]
      let q := wrk17ClientMaskedRun inner sC.toList
      ∀ s, Steps F r (.init p q) s → Steps F r s (.final yN.toList yC.toList 0) :=
  wrk17MaskedRun_splits (m := 8) _ (by decide) (by decide) _ _ _ _ _

section

variable {F : Functionality wires}

theorem ghashChainWrk17_meets {blocksN blocksC : List (Arr 16)} {mask : Arr 16}
    (hl : blocksN.length = blocksC.length) : Meets F 0
    (notaryGhashChainWrk17 blocksN hN mask) (clientGhashChainWrk17 blocksC hC) fun y y' =>
      y = mask ∧
      y' = ghashChainReference (hN ^^^ hC) (List.zipWith (· ^^^ ·) blocksN blocksC) ^^^ mask := by
  let sN : Vector Bool (128 + blocksN.length * 128) :=
    ⟨(chainBits blocksN hN).toArray, by simp [length_chainBits]⟩
  let sC : Vector Bool (128 + blocksN.length * 128) :=
    ⟨(chainBits blocksC hC).toArray, by simp [length_chainBits, hl]⟩
  have hs : (sN.zipWith xor sC).toList =
      chainBits (List.zipWith (· ^^^ ·) blocksN blocksC) (hN ^^^ hC) := by
    rw [Vector.toList_zipWith, ←chainBits_xor hl]
    rfl
  unfold notaryGhashChainWrk17 clientGhashChainWrk17 runNotaryGhashChain runClientGhashChain
  rw [←hl, bind_assoc]
  refine .bind (k := 0) (j := 0) (maskedRun_meets (x := sN) (y := sC) (by simp)) ?_
  rintro _ vals ⟨rfl, hv⟩
  refine .pure ⟨Arr.ofBytes_toList _, ?_⟩
  rw [Arr.ofBytes_toList, hv, GhashChainCircuit.value_eq (by simp [hl]) hs]
  exact (bitsToBytes_xor (by simp [length_bytesToBits])).trans (by rw [bitsToBytes_bytesToBits])

end

-- The circuit multiplies as the reference does on every input. Whatever the mask, every way to run
-- the chain ends with shares of the reference chain on the shared key and blocks.
theorem ghashChainWrk17_splits :
    (∀ v : Vector Bool 256, (GhashMulCircuit.value v).toList =
      bytesToBits (ghashMulReference
        (bitsToBytes16 (v.toList.take 128)) (bitsToBytes16 (v.toList.drop 128))).toList) ∧
    ∀ (n : Nat) (hN hC : Arr 16) (blocksN blocksC : Vector (Arr 16) n) (mask : Arr 16)
      (F : Functionality wires) (r : Masks wires),
      let p := notaryGhashChainWrk17 blocksN.toList hN mask
      let q := clientGhashChainWrk17 blocksC.toList hC
      ∃ yN yC, yN ^^^ yC = ghashChainReference (hN ^^^ hC) (blocksN.zipWith (· ^^^ ·) blocksC).toList ∧
        ∀ s, Steps F r (.init p q) s → Steps F r s (.final yN yC 0) := by
  refine ⟨GhashMulCircuit.value_eq, fun n hN hC blocksN blocksC mask F r => ?_⟩
  have hl : blocksN.toList.length = blocksC.toList.length := by simp
  obtain ⟨_, _, ⟨rfl, rfl⟩, h⟩ := (ghashChainWrk17_meets hl).steps_to_final r
  refine ⟨_, _, ?_, h⟩
  rw [Arr.xor_comm, Arr.xor_xor_cancel_right, Vector.toList_zipWith]

end Plain

-- The bits of two byte arrays.
def bitsOf (x : Arr a) (y : Arr b) : Vector Bool (8 * (a + b)) :=
  ⟨(bytesToBits (x.toList ++ y.toList)).toArray, by simp [length_bytesToBits]⟩

-- A circuit for a function of two byte arrays, by what it does to bits.
def Computes (value : Vector Bool (8 * (a + b)) → Vector Bool (8 * n))
    (f : Arr a → Arr b → Arr n) : Prop :=
  ∀ v x y, v.toList = bytesToBits (x.toList ++ y.toList) →
    (value v).toList = bytesToBits (f x y).toList

theorem Computes.zipWith {xN xC : Arr a} {yN yC : Arr b} (h : Computes value f) :
    (value ((bitsOf xN yN).zipWith xor (bitsOf xC yC))).toList =
    bytesToBits (f (xN ^^^ xC) (yN ^^^ yC)).toList := by
  apply h
  rw [Vector.toList_zipWith, Plain.bytesToBits_append, Plain.bytesToBits_xor,
    Plain.bytesToBits_xor, ←List.zipWith_append (by simp [length_bytesToBits]),
    ←Plain.bytesToBits_append, ←Plain.bytesToBits_append]
  rfl

namespace Plain

-- The sessions answer the queries that the programs of the record layer and of the key schedule make.
section

variable {F : Functionality wires} {aes : Arr 16 → Arr 16 → Arr 16}
  {compress : Arr 32 → Arr 64 → Arr 32}

theorem computes_maskedRun_meets {inner : BinaryCircuit (8 * (a + b)) (8 * n)} {xN xC : Arr a}
    {yN yC : Arr b} {mask : Arr n} (hf : Computes inner.value f) : Meets F 0
    (notaryMaskedRun (SplitSharedInputMaskCircuit inner)
      (bytesToBits (xN.toList ++ yN.toList)) mask.toList)
    (clientMaskedRun (SplitSharedInputMaskCircuit inner) (bytesToBits (xC.toList ++ yC.toList)))
    fun y vals =>
      y = mask.toList ∧ bitsToBytes n vals.toList = f (xN ^^^ xC) (yN ^^^ yC) ^^^ mask := by
  refine (Plain.maskedRun_meets (x := bitsOf xN yN) (y := bitsOf xC yC) (by simp)).mono ?_
  rintro _ vals ⟨rfl, hv⟩
  refine ⟨rfl, ?_⟩
  rw [hv, hf.zipWith, bitsToBytes_xor (by simp [length_bytesToBits]), bitsToBytes_bytesToBits]

theorem ghashChainWrk17_realizes (hl : blocksN.length = blocksC.length) : Meets F 0
    (notaryGhashChainWrk17 blocksN hN mask) (clientGhashChainWrk17 blocksC hC) fun y y' =>
      (circuits aes compress).respond (.ghash blocksN hN) (.ghash blocksC hC) y = some y' := by
  refine (ghashChainWrk17_meets hl).mono ?_
  rintro _ _ ⟨rfl, rfl⟩
  exact if_pos hl

theorem aesBlockWrk17_realizes {c : BinaryCircuit 256 128}
    (hc : Computes (a := 16) (b := 16) (n := 16) c.value fun block key => aes key block) : Meets F 0
    (notaryAesBlockWrk17 c blockN keyN mask) (clientAesBlockWrk17 c blockC keyC) fun y y' =>
      (circuits aes compress).respond (.aes blockN keyN) (.aes blockC keyC) y = some y' := by
  unfold notaryAesBlockWrk17 clientAesBlockWrk17 wrk17NotaryMaskedRun wrk17ClientMaskedRun
  rw [←bytesToBits_append, ←bytesToBits_append, bind_assoc]
  refine .bind (k := 0) (j := 0) (computes_maskedRun_meets hc) ?_
  rintro _ vals ⟨rfl, hv⟩
  refine .pure (congrArg some ?_)
  rw [Arr.ofBytes_toList, ←hv, take_bitsToBytes (by decide)]
  exact (Arr.ofBytes_toList _).symm

theorem sha256CompressXor_realizes {c : BinaryCircuit 768 256}
    (hc : Computes (a := 32) (b := 64) (n := 32) c.value compress) : Meets F 0
    (notarySha256CompressXor c ivN blockN mask) (clientSha256CompressXor c ivC blockC) fun y y' =>
      (circuits aes compress).respond (.compress ivN blockN) (.compress ivC blockC) y = some y' := by
  unfold notarySha256CompressXor clientSha256CompressXor
  refine .bind (k := 0) (j := 0) (computes_maskedRun_meets hc) ?_
  rintro _ vals ⟨rfl, hv⟩
  refine .pure (congrArg some ?_)
  rw [Arr.ofBytes_toList]
  exact hv.symm

end

end Plain

end Notary
