import NotaryModel.Garbling.Dealer
import NotaryModel.Garbling.Theorems.Preprocesser
import NotaryModel.Notary.Theorems.Plain
import NotaryModel.Notary.Wrk17

open Circuit Garbling Exchange

namespace Notary.Wrk17

variable {L Q : Type} {A : Q → Type} {gb ev : AuthBits (channel L A)}
  {Paired : gb.Share → ev.Share → Prop} {F : Functionality (channel L A)} {sw : Swanky}
  {PairedTriples : gb.Triple → ev.Triple → Prop}

-- The parties start in sync, with the shares of the preprocessing.
theorem newWithAndGenerator_scheduled (hl : Lawful sw F gb ev Paired PairedTriples)
    {circ : Executor s n} (hc : GarblesCircuit circ k sw F Paired)
    (ha : sw.Counts circ k) (rng : Stream' Block) :
    Scheduled F (Garbler.newWithAndGenerator sw gb circ rng)
      (Evaluator.newWithAndGenerator sw ev circ) fun S T =>
        ∃ is ss ks : List (SharePair gb ev Paired), is.length = s ∧ Sync S T (is ++ ss) ks ∧
          Executes F sw circ is ss ks := by
  unfold Garbler.newWithAndGenerator Evaluator.newWithAndGenerator
  refine .bind (preprocessCircuit_scheduled hl hc ha.nands ha.ninputs) ?_
  rintro _ _ ⟨is, ss, ks, hi, rfl, rfl, he⟩
  refine .bind writeBlock_readBlock ?_
  rintro _ _ rfl
  refine .pure ⟨is, ss, ks, hi, ?_, he⟩
  exact {
    garblerDelta    := rfl
    evaluatorDelta  := rfl
    one             := rfl
    gateIndex       := rfl
    garblerShares   := rfl
    evaluatorShares := rfl
    garblerAnds     := rfl
    evaluatorAnds   := rfl
  }

-- From inputs to outputs, where `sb₁` are the garbler's inputs with their masks and `sb₂` those of
-- the evaluator.
theorem session_scheduled (hl : Lawful sw F gb ev Paired PairedTriples)
    {circ : Executor (k + l) n} {S : Garbler sw gb} {T : Evaluator sw ev}
    (sb₁ sb₂ : List (SharePair gb ev Paired × Bool)) (v : Vector Bool (k + l)) (hk : sb₁.length = k)
    (hn : sb₂.length = l) (hv : sb₁.map (·.2) ++ sb₂.map (·.2) = v.toList)
    (hs : Sync S T (sb₁.map (·.1) ++ (sb₂.map (·.1) ++ ss)) ks)
    (he : Executes F sw circ (sb₁.map (·.1) ++ sb₂.map (·.1)) ss ks) : Scheduled F
      (StateT.run (do
        let mine ← Garbler.encodeMany (sb₁.map fun x => toU16 x.2) k
        let theirs ← Garbler.receiveMany l
        let out ← executeOn circ (mine ++ theirs)
        Garbler.outputs out.toList) S)
      (StateT.run (do
        let theirs ← Evaluator.receiveMany k
        let mine ← Evaluator.encodeMany (sb₂.map fun x => toU16 x.2) l
        let out ← executeOn circ (theirs ++ mine)
        Evaluator.outputs out.toList) T)
      fun x y => x.1 = none ∧ y.1 = some ((circ.value v).toList.map toU16) := by
  subst hk hn
  simp only [StateT.run_bind]
  refine .bind (encodeMany_receiveMany hl sb₁ hs) ?_
  rintro ⟨_, S⟩ ⟨_, T⟩ ⟨ws₁, rfl, rfl, rfl, hs⟩
  refine .bind (receiveMany_encodeMany hl sb₂ hs) ?_
  rintro ⟨_, S⟩ ⟨_, T⟩ ⟨ws₂, rfl, rfl, rfl, hs⟩
  rw [List.map_map, List.map_map, ←List.map_append] at hv he
  rw [←List.map_append, ←List.map_append]
  refine .bind (he _ v rfl hv S T hs) ?_
  rintro ⟨out, S⟩ ⟨out', T⟩ ⟨os, ss', ho, ho', hb, hs⟩
  simp only at ho ho' hs
  rw [ho, ho', hb, List.map_map]
  exact outputs_outputs hl os hs

theorem garble_evaluate (hl : Lawful sw F gb ev Paired PairedTriples)
    {circ : Executor (k + l) n} (hc : GarblesCircuit circ j sw F Paired)
    (ha : sw.Counts circ j) (x : Vector Bool k) (y : Vector Bool l) (rng : Stream' Block) :
    Scheduled F (garble sw gb circ (x.toList.map toU16) rng)
      (evaluate sw ev circ (y.toList.map toU16)) fun r r' =>
        r = none ∧ r' = some ((circ.value (x ++ y)).toList.map toU16) := by
  refine .bind (newWithAndGenerator_scheduled hl hc ha rng) ?_
  rintro S T ⟨is, ss, ks, hlen, hs, he⟩
  obtain ⟨is₁, is₂, rfl, h₁, h₂⟩ : ∃ is₁ is₂, is = is₁ ++ is₂ ∧ is₁.length = k ∧ is₂.length = l :=
    ⟨is.take k, is.drop k, (List.take_append_drop k is).symm, by simp [hlen], by simp [hlen]⟩
  have hm₁ : (is₁.zip x.toList).map (·.1) = is₁ := List.map_fst_zip (by simp [h₁])
  have hb₁ : (is₁.zip x.toList).map (·.2) = x.toList := List.map_snd_zip (by simp [h₁])
  have hm₂ : (is₂.zip y.toList).map (·.1) = is₂ := List.map_fst_zip (by simp [h₂])
  have hb₂ : (is₂.zip y.toList).map (·.2) = y.toList := List.map_snd_zip (by simp [h₂])
  have hu₁ : (is₁.zip x.toList).map (fun z => toU16 z.2) = x.toList.map toU16 :=
    List.map_map.symm.trans (congrArg (·.map toU16) hb₁)
  have hu₂ : (is₂.zip y.toList).map (fun z => toU16 z.2) = y.toList.map toU16 :=
    List.map_map.symm.trans (congrArg (·.map toU16) hb₂)
  rw [List.append_assoc, ←hm₁, ←hm₂] at hs
  rw [←hm₁, ←hm₂] at he
  refine .run' ?_
  rw [←hu₁, ←hu₂]
  exact session_scheduled hl _ _ (x ++ y) (by simp [h₁]) (by simp [h₂])
    (by rw [hb₁, hb₂, Vector.toList_append]) hs he

-- Whatever a straight-line circuit computes, every way to run the garbler against the evaluator
-- ends with its outputs at the evaluator, and nothing at the garbler.
theorem garble_steps_to_final (hl : Lawful sw F gb ev Paired PairedTriples)
    (c : StraightLine (k + l) n) (ha : sw.Counts c.executor c.nands) (x : Vector Bool k)
    (y : Vector Bool l) (rng : Stream' Block) (m : Masks (channel L A)) :
    let p := garble sw gb c.executor (x.toList.map toU16) rng
    let q := evaluate sw ev c.executor (y.toList.map toU16)
    let out := (c.executor.value (x ++ y)).toList.map toU16
    ∃ j, ∀ s, Exchange.Steps F m (.init p q) s →
      s.aligned ∧ Exchange.Steps F m s (.final none (some out) j) := by
  have hc := garblesCircuit_straightLine (F := F) hl c
  obtain ⟨_, _, j, ⟨rfl, rfl⟩, h⟩ := (garble_evaluate hl hc ha x y rng).steps_to_final m
  exact ⟨j, h⟩

theorem garble_steps_to_final_and :
    let sw := Dealer.swanky fun x _ => x
    let c : StraightLine (1 + 1) 1 := .negate 0 (.and 1 2 (.outputs #v[3]))
    let p := garble sw (Dealer.garbler (.replicate 16 1) 0) c.executor [0] (.const 0)
    let q := evaluate sw (Dealer.evaluator (.replicate 16 1) 0) c.executor [1]
    ∃ j, ∀ s, Exchange.Steps Dealer.functionality Dealer.zeros (.init p q) s → s.aligned ∧
      Exchange.Steps Dealer.functionality Dealer.zeros s (.final none (some [1]) j) := by
  let c : StraightLine (1 + 1) 1 := .negate 0 (.and 1 2 (.outputs #v[3]))
  have h := garble_steps_to_final (Dealer.lawful Dealer.lsb_ones 0 fun x _ => x) c
    (Dealer.Counted.counts (.straightLine c) _) #v[false] #v[true] (.const 0) Dealer.zeros
  have hv : (c.executor.value (#v[false] ++ #v[true])).toList.map toU16 = [1] := by decide +kernel
  rw [hv] at h
  exact h

namespace SplitSharedInputMaskCircuit

variable {inner : Executor s m}

theorem garbles (hl : Lawful sw F gb ev Paired PairedTriples)
    (hc : GarblesCircuit inner k sw F Paired) :
    GarblesCircuit (SplitSharedInputMaskCircuit inner) k sw F Paired := by
  intro xs xs' ws ws' vs h
  have hx (i j) := Garbles.xor (F := F) hl (h (Fin.val i) i.isLt) (h (Fin.val j) j.isLt)
  let masked (out : Vector Bool m) : Vector Bool m := .ofFn fun i =>
    out.get i ^^ (vs.get ((i.natAdd s).castAdd (s + m)) ^^ vs.get ((i.natAdd s).natAdd (s + m)))
  have hv : (SplitSharedInputMaskCircuit inner).value vs = masked (inner.value (.ofFn fun i =>
      vs.get ((i.castAdd m).castAdd (s + m)) ^^ vs.get ((i.castAdd m).natAdd (s + m)))) := by
    simp only [masked, Executor.value, SplitSharedInputMaskCircuit, Plain.splitSharedInputMask,
      Id.run_bind, Vector.idRun_ofFnM, FancyBinary.run_xor]
  rw [hv]
  refine .of_eq (n := s * 0 + (k + m * (0 + 0))) ?_ (by omega)
  refine .bind (f := fun v => masked (inner.value v)) (.ofFnM fun i =>
    hx ((i.castAdd m).castAdd (s + m)) ((i.castAdd m).natAdd (s + m))) fun _ _ _ _ _ hu => ?_
  refine .bind (f := masked) (hc _ _ _ _ _ hu) fun _ _ _ _ _ ho => ?_
  refine .ofFnM fun i => .bind (f := fun b => _ ^^ b)
    (hx ((i.natAdd s).castAdd (s + m)) ((i.natAdd s).natAdd (s + m))) fun _ _ _ _ _ hm => ?_
  exact .xor hl (ho i i.isLt) hm

theorem counted (h : ∀ ws, Dealer.Counted k (inner.execute (M := StateM Nat) ws))
    (ws : Vector Unit ((s + m) + (s + m))) :
    Dealer.Counted k ((SplitSharedInputMaskCircuit inner).execute (M := StateM Nat) ws) := by
  refine .of_eq (k := s * 0 + (k + m * (0 + 0))) ?_ (by omega)
  exact (Dealer.Counted.ofFnM fun _ => .xor).bind fun _ => (h _).bind fun _ => .ofFnM fun _ =>
    Dealer.Counted.xor.bind fun _ => .xor

end SplitSharedInputMaskCircuit

theorem map_toU16_beq (l : List Bool) : (l.map toU16).map (· == 1) = l := by
  rw [List.map_map]
  exact (List.map_congr_left fun b _ => by cases b <;> rfl).trans (List.map_id l)

-- The client's result is the output under the notary's mask.
theorem maskedRun_scheduled (hl : Lawful sw F gb ev Paired PairedTriples) {inner : Executor s m}
    (hc : GarblesCircuit inner k sw F Paired)
    (ha : sw.Counts (SplitSharedInputMaskCircuit inner) k)
    (hm : 8 * mask.length = m) (sN sC : Vector Bool s) (rng : Stream' Block) :
    Scheduled F (notaryMaskedRun sw gb inner sN.toList mask rng)
      (clientMaskedRun sw ev inner sC.toList) fun y vals => y = mask ∧
        vals.map (· == 1) =
          List.zipWith xor (inner.value (sN.zipWith xor sC)).toList (bytesToBits mask) := by
  let mN : Vector Bool m := ⟨(bytesToBits mask).toArray, by simp [length_bytesToBits, hm]⟩
  have hN : sN.toList ++ bytesToBits mask = (sN ++ mN).toList := by simp [mN]
  have hC : sC.toList ++ List.replicate m false = (sC ++ Vector.replicate m false).toList := by simp
  have hz : mN.zipWith xor (Vector.replicate m false) = mN := by
    ext i hi
    simp
  unfold notaryMaskedRun clientMaskedRun
  rw [hN, hC]
  refine .bind (garble_evaluate hl (SplitSharedInputMaskCircuit.garbles hl hc) ha _ _ rng) ?_
  rintro _ _ ⟨rfl, rfl⟩
  refine .pure ⟨rfl, ?_⟩
  rw [map_toU16_beq, Executor.value, SplitSharedInputMaskCircuit, Plain.splitSharedInputMask_append,
    hz, Vector.toList_zipWith]
  rfl

theorem wrk17MaskedRun_scheduled (hl : Lawful sw F gb ev Paired PairedTriples)
    {inner : Executor s m} (hc : GarblesCircuit inner k sw F Paired)
    (ha : sw.Counts (SplitSharedInputMaskCircuit inner) k)
    (h₈ : 8 ∣ m) (hm : m ≤ 256) (sN sC : Vector Bool s) (mask : Arr (m / 8)) (rng : Stream' Block) :
    Scheduled F (wrk17NotaryMaskedRun sw gb inner sN.toList mask rng)
      (wrk17ClientMaskedRun sw ev inner sC.toList) fun y y' => y = mask.toList ∧
        y' = (bitsToBytes (m / 8) (inner.value (sN.zipWith xor sC)).toList ^^^ mask).toList := by
  have h₈ : 8 * (m / 8) = m := Nat.mul_div_cancel' h₈
  have h₃₂ : m / 8 ≤ 32 := by omega
  unfold wrk17NotaryMaskedRun wrk17ClientMaskedRun
  rw [←Prog.bind_pure (notaryMaskedRun ..)]
  refine .bind (maskedRun_scheduled hl hc ha (by simp [h₈]) sN sC rng) ?_
  rintro _ vals ⟨rfl, hv⟩
  simp only [if_pos h₃₂]
  refine .pure ⟨rfl, ?_⟩
  rw [hv, Plain.take_bitsToBytes h₃₂, Plain.bitsToBytes_xor (by simp [h₈])]

-- Whatever the mask and the randomness of the garbler, every way to run the two sides of the
-- session ends with the mask and the masked output, which are shares of the output of the inner
-- circuit on the sum of the shares.
theorem maskedRun_steps_to_final (hl : Lawful sw F gb ev Paired PairedTriples)
    (inner : StraightLine s m)
    (ha : sw.Counts (SplitSharedInputMaskCircuit inner.executor) inner.nands)
    (h₈ : 8 ∣ m) (hm : m ≤ 256) (sN sC : Vector Bool s) (mask : Arr (m / 8)) (rng : Stream' Block)
    (r : Masks (channel L A)) :
    let p := wrk17NotaryMaskedRun sw gb inner.executor sN.toList mask rng
    let q := wrk17ClientMaskedRun sw ev inner.executor sC.toList
    ∃ (out yN yC : Arr (m / 8)) (j : Nat),
      bytesToBits out.toList = (inner.executor.value (sN.zipWith xor sC)).toList ∧
      yN = mask ∧ yN ^^^ yC = out ∧
      ∀ s, Exchange.Steps F r (.init p q) s →
        s.aligned ∧ Exchange.Steps F r s (.final yN.toList yC.toList j) := by
  have hl₈ : 8 * (m / 8) = m := Nat.mul_div_cancel' h₈
  have hc := garblesCircuit_straightLine (F := F) hl inner
  obtain ⟨_, _, j, ⟨rfl, rfl⟩, h⟩ :=
    (wrk17MaskedRun_scheduled hl hc ha h₈ hm sN sC mask rng).steps_to_final r
  refine ⟨_, mask, _, j, bytesToBits_bitsToBytes (by simp [hl₈]), rfl, ?_, h⟩
  rw [Arr.xor_comm, Arr.xor_xor_cancel_right]

theorem maskedRun_steps_to_final_or :
    let sw := Dealer.swanky fun x _ => x
    let inner : StraightLine 2 8 := .and 0 1 (.xor 2 0 (.xor 3 1 (.outputs (.replicate 8 4))))
    let p := wrk17NotaryMaskedRun sw (Dealer.garbler (.replicate 16 1) 0) inner.executor
      [true, true] #v[0x0f] (.const 0)
    let q := wrk17ClientMaskedRun sw (Dealer.evaluator (.replicate 16 1) 0) inner.executor
      [true, false]
    ∃ (out yN yC : Arr 1) (j : Nat), bytesToBits out.toList = List.replicate 8 true ∧
      yN = #v[0x0f] ∧ yN ^^^ yC = out ∧
      ∀ s, Exchange.Steps Dealer.functionality Dealer.zeros (.init p q) s → s.aligned ∧
        Exchange.Steps Dealer.functionality Dealer.zeros s (.final yN.toList yC.toList j) := by
  let inner : StraightLine 2 8 := .and 0 1 (.xor 2 0 (.xor 3 1 (.outputs (.replicate 8 4))))
  have h := maskedRun_steps_to_final (Dealer.lawful Dealer.lsb_ones 0 fun x _ => x) inner
    (Dealer.Counted.counts (SplitSharedInputMaskCircuit.counted (.straightLine inner)) _)
    (by decide) (by decide) #v[true, true] #v[true, false] #v[0x0f] (.const 0) Dealer.zeros
  have hv : (inner.executor.value (#v[true, true].zipWith xor #v[true, false])).toList =
      List.replicate 8 true := by decide +kernel
  rw [hv] at h
  exact h

end Notary.Wrk17
