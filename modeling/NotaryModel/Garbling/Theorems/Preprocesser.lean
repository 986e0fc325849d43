import NotaryModel.Garbling.Theorems.Inputs

open Circuit Exchange

namespace Garbling

variable {L Q : Type} {A : Q → Type} {gb ev : AuthBits (channel L A)}
  {Paired : gb.Share → ev.Share → Prop} {F : Functionality (channel L A)} {sw : Swanky}
  {PairedTriples : gb.Triple → ev.Triple → Prop}

-- The wires that a circuit drives are again of the form of its inputs.
theorem AllGarbled.exists_wires {ws : Vector (AuthenticatedWireMod2 gb.Share) n}
    (h : AllGarbled Paired xs xs' ws ws' vs) : ∃ os : List (InputWire gb ev Paired),
      ws.toList = os.map (·.garbler) ∧ ws'.toList = os.map (·.evaluator) ∧
      vs.toList = os.map (·.bit) := by
  have hw (i : Fin n) : ∃ o : InputWire gb ev Paired,
      ws[i] = o.garbler ∧ ws'[i] = o.evaluator ∧ vs[i] = o.bit := by
    have h := h i i.isLt
    change ∃ o : InputWire gb ev Paired, ws[i.val] = _ ∧ ws'[i.val] = _ ∧ vs[i.val] = _
    generalize xs[i.val] = x, xs'[i.val] = x', ws[i.val] = w, ws'[i.val] = w', vs[i.val] = v at h ⊢
    cases h
    case mk p m l =>
      have hm : InputWire.masked ⟨p, m ^^ p.value, l⟩ = m := by
        rw [InputWire.masked, Bool.xor_assoc, Bool.xor_self, Bool.xor_false]
      refine ⟨⟨p, m ^^ p.value, l⟩, ?_, ?_, rfl⟩
      · rw [InputWire.garbler, hm]
      · rw [InputWire.evaluator, hm]
  choose f hf using hw
  refine ⟨List.ofFn f, ?_, ?_, ?_⟩
  all_goals
    refine List.ext_getElem (by simp) fun i hi _ => ?_
    have hi : i < n := by simpa using hi
    rw [Vector.getElem_toList, List.getElem_map, List.getElem_ofFn]
  · exact (hf ⟨i, hi⟩).left
  · exact (hf ⟨i, hi⟩).right.left
  · exact (hf ⟨i, hi⟩).right.right

theorem GarblesCircuit.executeOn {circ : Executor s n} (hc : GarblesCircuit circ k sw F Paired)
    (ws : List (InputWire gb ev Paired)) (v : Vector Bool s) (hv : ws.map (·.bit) = v.toList) :
    Garbles F Paired k (executeOn circ (ws.map fun w => ⟨w.mask.garbler⟩))
      (executeOn circ (ws.map fun w => ⟨w.mask.evaluator⟩))
      (executeOn circ (ws.map (·.garbler)) : GarblerM sw gb _)
      (executeOn circ (ws.map (·.evaluator)) : EvaluatorM sw ev _)
      (circ.value v) (AllGarbled Paired) := by
  have hl : ws.length = s := by simpa using congrArg List.length hv
  simp only [Garbling.executeOn, List.length_map, dif_pos hl]
  refine hc _ _ _ _ _ fun i hi => ?_
  have hb : v[i] = ws[i].bit := by
    have h := congrArg (·[i]?) hv
    simpa [hi, hl] using h.symm
  simpa [hb] using ws[i].garbled

-- With the shares `ss` and the products `ks`, both parties can run the circuit on inputs that are
-- masked by `is`.
def Executes (F : Functionality (channel L A)) (sw : Swanky) (circ : Executor s n)
    (is ss ks : List (SharePair gb ev Paired)) : Prop :=
  ∀ (ws : List (InputWire gb ev Paired)) (v : Vector Bool s), ws.map (·.mask) = is →
    ws.map (·.bit) = v.toList → ∀ S T, Sync S T ss ks → Scheduled F
      ((executeOn circ (ws.map (·.garbler)) : GarblerM sw gb _).run S)
      ((executeOn circ (ws.map (·.evaluator)) : EvaluatorM sw ev _).run T)
      fun x y => ∃ (os : List (InputWire gb ev Paired)) (ss' : List (SharePair gb ev Paired)),
        x.1.toList = os.map (·.garbler) ∧ y.1.toList = os.map (·.evaluator) ∧
        (circ.value v).toList = os.map (·.bit) ∧ Sync x.2 y.2 ss' []

-- The shares of wires and the products of both parties after the preprocessing.
def Preprocessed (F : Functionality (channel L A)) (sw : Swanky) (circ : Executor s n)
    (Paired : gb.Share → ev.Share → Prop) (x : List gb.Share × List gb.Share)
    (y : List ev.Share × List ev.Share) : Prop :=
  ∃ is ss ks : List (SharePair gb ev Paired), is.length = s ∧
    x = ((is ++ ss).map (·.garbler), ks.map (·.garbler)) ∧
    y = ((is ++ ss).map (·.evaluator), ks.map (·.evaluator)) ∧ Executes F sw circ is ss ks

theorem generateTriples_scheduled (hl : Lawful sw F gb ev Paired PairedTriples) (k : Nat) :
    Scheduled F
      (if k > 0 then gb.generateTriples (if 0 < k ∧ k < 320 then 320 else k) else pure [])
      (if k > 0 then ev.generateTriples (if 0 < k ∧ k < 320 then 320 else k) else pure [])
      fun ts ts' => k ≤ ts.length ∧ List.Forall₂ PairedTriples ts ts' := by
  by_cases h : k > 0
  case pos =>
    rw [if_pos h, if_pos h]
    refine hl.generateTriples.mono fun ts ts' ht => ⟨?_, ht.right⟩
    rw [ht.left]
    split <;> omega
  case neg =>
    rw [if_neg h, if_neg h]
    exact .pure ⟨by simpa using h, .nil⟩

theorem toKnownTriple_scheduled (hl : Lawful sw F gb ev Paired PairedTriples)
    (ps : List (SharePair gb ev Paired × SharePair gb ev Paired)) (hk : ps.length ≤ ts.length)
    (ht : List.Forall₂ PairedTriples ts ts') : Scheduled F
      (if ps.length > 0 then gb.toKnownTriple (ts.take ps.length) (ps.map (·.1.garbler))
        (ps.map (·.2.garbler)) else pure [])
      (if ps.length > 0 then ev.toKnownTriple (ts'.take ps.length) (ps.map (·.1.evaluator))
        (ps.map (·.2.evaluator)) else pure [])
      fun zs ws => ∃ ks : List (SharePair gb ev Paired),
        List.Forall₂ Product ps ks ∧ zs = ks.map (·.garbler) ∧ ws = ks.map (·.evaluator) := by
  by_cases h : ps.length > 0
  case pos =>
    rw [if_pos h, if_pos h]
    exact hl.toKnownTriple ps (List.length_take_of_le hk) (List.forall₂_take _ ht)
  case neg =>
    rw [if_neg h, if_neg h]
    obtain rfl : ps = [] := List.length_eq_zero_iff.mp (by omega)
    exact .pure ⟨[], .nil, rfl, rfl⟩

theorem preprocessCircuit_scheduled (hl : Lawful sw F gb ev Paired PairedTriples)
    {circ : Executor s n} (hc : GarblesCircuit circ k sw F Paired)
    (hk : (sw.analyze circ).nands = k) (hs : (sw.analyze circ).ninputs = s) :
    Scheduled F (preprocessCircuit sw gb circ) (preprocessCircuit sw ev circ)
      (Preprocessed F sw circ Paired) := by
  unfold preprocessCircuit
  generalize sw.analyze circ = counts at hk hs
  obtain ⟨nands, ninputs, nconstants⟩ := counts
  subst hk hs
  refine .bind (generateTriples_scheduled hl nands) ?_
  rintro ts ts' ⟨hn, ht⟩
  refine .bind hl.generate ?_
  rintro _ _ ⟨ss, hss, rfl, rfl⟩
  -- The first shares mask the inputs, the next ones the outputs of AND gates.
  obtain ⟨is, us, rest, rfl, rfl, hu⟩ : ∃ is us rest, ss = is ++ (us ++ rest) ∧
      is.length = ninputs ∧ us.length = nands :=
    ⟨ss.take ninputs, (ss.drop ninputs).take nands, (ss.drop ninputs).drop nands, by simp,
      by simp; omega, by simp; omega⟩
  have hg (ws : List (InputWire gb ev Paired)) (v : Vector Bool is.length)
      (hv : ws.map (·.bit) = v.toList) := hc.executeOn ws v hv us hu
  obtain ⟨a, b, ps, hp, hga, hea, -, -⟩ := hg (is.map fun p => ⟨p, false, 0⟩)
    (.replicate _ false) (by simp [Function.comp_def])
  rw [List.map_map] at hga hea
  have hgr := (Preprocesses.receiveMany (is.map (·.garbler))).bind (f := executeOn circ)
    (by rw [List.map_map]; exact hga)
  have her := (Preprocesses.receiveMany (is.map (·.evaluator))).bind (f := executeOn circ)
    (by rw [List.map_map]; exact hea)
  rw [List.length_map] at hgr her
  have hgr := hgr (.new ((is ++ (us ++ rest)).map (·.garbler)) gb.delta) (rest.map (·.garbler)) rfl
    (by simp [WirePreProcessor.new])
  have her := her (.new ((is ++ (us ++ rest)).map (·.evaluator)) ev.delta)
    (rest.map (·.evaluator)) rfl
    (by simp [WirePreProcessor.new])
  simp only [hgr, her, Prog.pure_bind]
  simp only [WirePreProcessor.new, List.nil_append]
  subst hp
  refine .bind (toKnownTriple_scheduled hl ps hn ht) ?_
  rintro _ _ ⟨ks, hk, rfl, rfl⟩
  refine .pure ⟨is, us ++ rest, ks, rfl, rfl, rfl, ?_⟩
  intro ws v hm hv S T hs
  obtain ⟨a', b', ps', -, hga', hea', -, ho⟩ := hg ws v hv
  subst hm
  rw [List.map_map] at hga hea
  obtain ⟨rfl, hgl, hgr⟩ := hga.unique hga'
  obtain ⟨rfl, hel, her⟩ := hea.unique hea'
  obtain rfl : ps = ps' := SharePair.pairs_ext hgl hgr hel her
  refine (ho ks hk S T rest [] (by rwa [List.append_nil])).mono ?_
  rintro ⟨x, S⟩ ⟨y, T⟩ ⟨ha, hs⟩
  obtain ⟨os, ho⟩ := ha.exists_wires
  exact ⟨os, rest, ho.left, ho.right.left, ho.right.right, hs⟩

end Garbling
