import NotaryModel.Garbling.Theorems.Gates

open Circuit Exchange

namespace Garbling

variable {L Q : Type} {A : Q → Type} {gb ev : AuthBits (channel L A)}
  {Paired : gb.Share → ev.Share → Prop} {F : Functionality (channel L A)} {sw : Swanky}
  {PairedTriples : gb.Triple → ev.Triple → Prop}

-- The wires of all backends carry the bits `vs`.
def AllGarbled (Paired : gb.Share → ev.Share → Prop) (xs : Vector (PreProcessedWire gb.Share) n)
    (xs' : Vector (PreProcessedWire ev.Share) n) (ws : Vector (AuthenticatedWireMod2 gb.Share) n)
    (ws' : Vector (AuthenticatedWireMod2 ev.Share) n) (vs : Vector Bool n) : Prop :=
  ∀ i, (h : i < n) → Garbled Paired xs[i] xs'[i] ws[i] ws'[i] vs[i]

theorem AllGarbled.push (h : AllGarbled Paired xs xs' ws ws' vs) (hx : Garbled Paired x x' w w' v) :
    AllGarbled Paired (xs.push x) (xs'.push x') (ws.push w) (ws'.push w') (vs.push v) := by
  intro i hi
  rcases Nat.lt_succ_iff_lt_or_eq.mp hi with hl | rfl
  · simpa [Vector.getElem_push_lt, hl] using h i hl
  · simpa using hx

theorem AllGarbled.set {vs : Vector Bool n} (h : AllGarbled Paired xs xs' ws ws' vs)
    (hx : Garbled Paired x x' w w' v) (hr : r < n) :
    AllGarbled Paired (xs.set r x) (xs'.set r x') (ws.set r w) (ws'.set r w') (vs.set r v) := by
  intro i hi
  by_cases he : r = i
  case pos =>
    subst he
    simpa using hx
  case neg => simpa [Vector.getElem_set_ne _ _ he] using h i hi

-- A circuit that all backends can run on wires that carry bits. It has `k` AND gates.
def GarblesCircuit (c : Executor s n) (k : Nat) (sw : Swanky) (F : Functionality (channel L A))
    (Paired : gb.Share → ev.Share → Prop) : Prop :=
  ∀ xs xs' ws ws' vs, AllGarbled Paired xs xs' ws ws' vs →
    Garbles F Paired k (c.execute xs) (c.execute xs') (c.execute ws : GarblerM sw gb _)
      (c.execute ws' : EvaluatorM sw ev _) (c.value vs) (AllGarbled Paired)

namespace Garbles

variable {pg : PreM gb α} {pe : PreM ev β} {g : GarblerM sw gb γ} {e : EvaluatorM sw ev δ} {v : ε}
  {Φ : α → β → γ → δ → ε → Prop}

theorem ofFnM {pg : Fin m → PreM gb α} {pe : Fin m → PreM ev β} {g : Fin m → GarblerM sw gb γ}
    {e : Fin m → EvaluatorM sw ev δ} {v : Fin m → ε}
    (h : ∀ i, Garbles F Paired n (pg i) (pe i) (g i) (e i) (v i) Φ) :
    Garbles F Paired (m * n) (Vector.ofFnM pg) (Vector.ofFnM pe) (Vector.ofFnM g) (Vector.ofFnM e)
      (Vector.ofFn v) fun as bs cs ds vs =>
        ∀ i, (h : i < m) → Φ as[i] bs[i] cs[i] ds[i] vs[i] := by
  induction m
  case zero =>
    rw [Nat.zero_mul]
    simp only [Vector.ofFnM_zero]
    exact pure nofun
  case succ m hi =>
    rw [Nat.succ_mul]
    simp only [Vector.ofFnM_succ, Vector.ofFn_succ]
    refine bind (f := fun vs => vs.push (v (Fin.last m))) (hi fun i => h i.castSucc) ?_
    intro as bs cs ds vs hΦ
    refine map (f := vs.push) (h (Fin.last m)) fun a b c d u hu i him => ?_
    rcases Nat.lt_succ_iff_lt_or_eq.mp him with hl | rfl
    · simpa [Vector.getElem_push_lt, hl] using hΦ i hl
    · simpa using hu

theorem foldlM {l : List ι} {pg : α → ι → PreM gb α} {pe : β → ι → PreM ev β}
    {g : γ → ι → GarblerM sw gb γ} {e : δ → ι → EvaluatorM sw ev δ} {f : ε → ι → ε}
    (hf : ∀ a b c d v i, Φ a b c d v →
      Garbles F Paired n (pg a i) (pe b i) (g c i) (e d i) (f v i) Φ)
    (h : Φ a b c d v) : Garbles F Paired (l.length * n) (l.foldlM pg a) (l.foldlM pe b)
      (l.foldlM g c) (l.foldlM e d) (l.foldl f v) Φ := by
  induction l generalizing a b c d v
  case nil =>
    rw [List.length_nil, Nat.zero_mul]
    exact pure h
  case cons i l hi =>
    simp only [List.foldlM_cons, List.foldl_cons]
    rw [List.length_cons, Nat.succ_mul, Nat.add_comm]
    exact bind (f := fun v => l.foldl f v) (hf a b c d v i h) fun a b c d v h => hi h

end Garbles

theorem garblesCircuit_straightLine (hl : Lawful sw F gb ev Paired PairedTriples)
    (c : StraightLine s n) : GarblesCircuit c.executor c.nands sw F Paired := by
  induction c
  case outputs outs =>
    intro xs xs' ws ws' vs h
    refine .pure fun i hi => ?_
    have hv : ((StraightLine.outputs outs).executor.value vs)[i] = vs.get outs[i] :=
      Vector.getElem_map _ hi
    rw [Vector.getElem_map, Vector.getElem_map, Vector.getElem_map, Vector.getElem_map, hv]
    exact h outs[i] outs[i].isLt
  case constant b rest hi =>
    intro xs xs' ws ws' vs h
    rw [StraightLine.nands, ←Nat.zero_add rest.nands]
    refine .bind (f := fun b => rest.executor.value (vs.push b)) (.constant hl b) ?_
    exact fun _ _ _ _ _ hx => hi _ _ _ _ _ (h.push hx)
  case negate x rest hi =>
    intro xs xs' ws ws' vs h
    rw [StraightLine.nands, ←Nat.zero_add rest.nands]
    refine .bind (f := fun b => rest.executor.value (vs.push b)) (.negate (h x x.isLt)) ?_
    exact fun _ _ _ _ _ hx => hi _ _ _ _ _ (h.push hx)
  case xor x y rest hi =>
    intro xs xs' ws ws' vs h
    rw [StraightLine.nands, ←Nat.zero_add rest.nands]
    refine .bind (f := fun b => rest.executor.value (vs.push b))
      (.xor hl (h x x.isLt) (h y y.isLt)) ?_
    exact fun _ _ _ _ _ hx => hi _ _ _ _ _ (h.push hx)
  case and x y rest hi =>
    intro xs xs' ws ws' vs h
    rw [StraightLine.nands, Nat.add_comm]
    refine .bind (f := fun b => rest.executor.value (vs.push b))
      (.and hl (h x x.isLt) (h y y.isLt)) ?_
    exact fun _ _ _ _ _ hx => hi _ _ _ _ _ (h.push hx)

end Garbling
