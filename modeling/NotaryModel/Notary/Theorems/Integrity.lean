import NotaryModel.Garbling.Theorems.Audited
import NotaryModel.Garbling.Theorems.Integrity
import NotaryModel.Notary.Theorems.Wrk17
import NotaryModel.TwoParty.Stream

open Circuit Garbling

-- The client against a notary that need not keep to the protocol.
namespace Notary.Wrk17

variable {L Q : Type} {A : Q → Type} {b : AuthBits (channel L A)} {value : b.Share → Bool}
  {sw : Swanky}

theorem newWithAndGenerator_ensures (ha : Authentic b value) {circ : Executor s n}
    (hc : EnforcesCircuit circ k sw value) (hk : sw.Counts circ k) :
    (Evaluator.newWithAndGenerator sw b circ).Ensures fun T => ∃ is ss ks, is.length = s ∧
      Ready T (is ++ ss) ks ∧ Executable sw value circ is ss ks := by
  unfold Evaluator.newWithAndGenerator
  refine .bind (preprocessCircuit_ensures ha hc hk) ?_
  rintro ⟨_, ks⟩ ⟨is, ss, hi, rfl, he⟩
  exact .of_forall fun _ => .pure ⟨is, ss, ks, hi, ⟨rfl, rfl, rfl⟩, he⟩

theorem evaluate_executor_ensures (ha : Authentic b value) {circ : Executor (k + l) n}
    (hc : EnforcesCircuit circ j sw value) (hk : sw.Counts circ j) (y : Vector Bool l) :
    (evaluate sw b circ (y.toList.map toU16)).Ensures fun out =>
      ∃ x : Vector Bool k, out = some ((circ.value (x ++ y)).toList.map toU16) := by
  refine .bind (newWithAndGenerator_ensures ha hc hk) ?_
  rintro T ⟨is, ss, ks, hlen, hT, he⟩
  obtain ⟨is₁, is₂, rfl, rfl, h₂⟩ : ∃ is₁ is₂, is = is₁ ++ is₂ ∧ is₁.length = k ∧ is₂.length = l :=
    ⟨is.take k, is.drop k, (List.take_append_drop k is).symm, by simp [hlen], by simp [hlen]⟩
  have hm : (is₂.zip y.toList).map (·.1) = is₂ := List.map_fst_zip (by simp [h₂])
  have hb : (is₂.zip y.toList).map (·.2) = y.toList := List.map_snd_zip (by simp [h₂])
  have hu : (is₂.zip y.toList).map (fun z => toU16 z.2) = y.toList.map toU16 :=
    List.map_map.symm.trans (congrArg (·.map toU16) hb)
  have hl : (is₂.zip y.toList).length = l := by simp [h₂]
  rw [List.append_assoc] at hT
  rw [StateT.run'_eq, map_eq_pure_bind]
  simp only [StateT.run_bind, bind_assoc]
  refine .bind (receiveMany_ensures is₁ hT) ?_
  rintro ⟨theirs, T⟩ ⟨hs₁, hT⟩
  rw [←hm] at hT
  have hen := encodeMany_ensures ha _ hT
  rw [hu, hl, hm, hb] at hen
  refine .bind hen ?_
  rintro ⟨mine, T⟩ ⟨hs₂, hc₂, hT⟩
  have hx : theirs.length = is₁.length := by simpa using congrArg List.length hs₁
  let x : Vector Bool is₁.length := ⟨(theirs.map (carried value)).toArray, by simp [hx]⟩
  refine .bind (he (theirs ++ mine) (x ++ y) (by rw [List.map_append, hs₁, hs₂])
    (by rw [List.map_append, hc₂, Vector.toList_append]; simp [x]) T hT) ?_
  rintro ⟨out, T⟩ ⟨ho, hT⟩
  refine .bind (outputs_ensures ha out.toList hT) ?_
  rintro ⟨_, _⟩ rfl
  refine .pure ⟨x, ?_⟩
  rw [←ho, List.map_map]
  rfl

theorem evaluate_guarded (c : StraightLine (k + l) n) (vals : List UInt16) (dealt : Nat → Bool) :
    Guarded (I := channel L A) AuthBits.forged id (evaluate sw b c.executor vals)
      (evaluate sw (b.audited dealt) c.executor vals) := by
  unfold evaluate
  refine .bind (Evaluator.newWithAndGenerator_guarded c) fun T => ?_
  simp only [StateT.run'_eq, map_eq_pure_bind]
  refine .bind (GuardedT.bind (h := id) (Evaluator.receiveMany_guarded k) (fun theirs => ?_) T)
    fun y => .pure (a := y.1)
  refine .bind (Evaluator.encodeMany_guarded vals l) fun mine => ?_
  rw [←List.map_append]
  refine .bind (executeOn_guarded Evaluator.guarded c _) fun out => ?_
  rw [Vector.toList_map]
  exact Evaluator.outputs_guarded _

-- Whatever the garbler sends, an evaluation that does not fail ends with what the circuit computes
-- from the evaluator's own inputs and some inputs of the garbler, or else a bit has been opened, and
-- passed the library's check, that the garbler did not hold.
theorem evaluate_ok (hb : b.Linear) (dealt : Nat → Bool) (c : StraightLine (k + l) n)
    (hc : sw.Counts c.executor c.nands) (y : Vector Bool l)
    (hr : Run eof (evaluate sw b c.executor (y.toList.map toU16)) es (.ok out)) :
    (∃ x : Vector Bool k, out = some ((c.executor.value (x ++ y)).toList.map toU16)) ∨
    ∃ es₁, es₁ <+: es ∧ Run eof (evaluate sw (b.audited dealt) c.executor (y.toList.map toU16)) es₁
      (.error AuthBits.forged) := by
  refine ((evaluate_guarded c _ dealt).run hr).imp_left fun ⟨_, ho, hr⟩ => ?_
  have ha : Authentic (b.audited dealt) b.value := hb.authentic
  obtain ⟨x, hx⟩ :=
    evaluate_executor_ensures ha (enforcesCircuit_straightLine ha c) hc y _ _ _ hr
  exact ⟨x, ho.symm.trans hx⟩

theorem evaluator_linear (Δg Δe : Block) : (Dealer.evaluator Δg Δe).Linear where
  bit_xor         := rfl
  bit_mul         := rfl
  generateTriples := .of_forall fun _ => .pure (by simp)
  generate        := .of_forall fun _ => .pure (by simp)
  toKnownTriple h _ := .of_forall fun _ => .pure (by simp [h])

def sampleCircuit : StraightLine (1 + 1) 1 :=
  .negate 0 (.and 1 2 (.outputs #v[3]))

-- With all labels, tables and deals zero, a garbler sends zeros but for the bit of the AND gate.
def sampleStream : Bytes :=
  List.replicate 98 0 ++ 1 :: List.replicate 34 0

theorem sample_feed : ((evaluate (Dealer.swanky fun x _ => x)
    ((Dealer.evaluator (.replicate 16 1) 0).audited fun _ => false) sampleCircuit.executor
    [1]).feed (Dealer.zeros 0) sampleStream).result.toOption = some (some [1]) := by
  decide +kernel

-- A run over shares that are opened with their MACs, in which nothing is forged.
theorem evaluate_ok_of_sample :
    let sw := Dealer.swanky fun x _ => x
    let b := Dealer.evaluator (.replicate 16 1) 0
    let c := sampleCircuit
    ∃ es, Run True (evaluate sw b c.executor [1]) es (.ok (some [1])) ∧
      Run True (evaluate sw (b.audited fun _ => false) c.executor [1]) es (.ok (some [1])) ∧
      ((∃ x : Vector Bool 1, some [1] = some ((c.executor.value (x ++ #v[true])).toList.map toU16)) ∨
      ∃ es₁, es₁ <+: es ∧ Run True (evaluate sw (b.audited fun _ => false) c.executor [1]) es₁
        (.error AuthBits.forged)) := by
  intro sw b c
  obtain ⟨es, _, ha, -⟩ := @Prog.run_feed _ _ (Dealer.zeros 0)
    (evaluate sw (b.audited fun _ => false) c.executor [1]) sampleStream
  have hs := sample_feed
  cases hf : ((evaluate sw (b.audited fun _ => false) c.executor [1]).feed (Dealer.zeros 0)
      sampleStream).result
  case error =>
    rw [hf] at hs
    cases hs
  case ok out =>
    rw [hf] at hs ha
    cases hs
    have hr := (evaluate_guarded c [1] fun _ => false).run_ok ha
    exact ⟨es, hr, ha, evaluate_ok (evaluator_linear _ _) _ c
      (Dealer.Counted.counts (.straightLine c) _) #v[true] hr⟩

end Notary.Wrk17
