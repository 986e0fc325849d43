import NotaryModel.Garbling.Theorems.Shares

open Circuit Exchange
open Circuit.FancyBinary (constant xor and)

namespace Garbling

variable {L Q : Type} {A : Q → Type}

-- Writes and reads of the same message.
section

variable {F : Functionality (channel L A)} {sw : Swanky}

theorem writeBlock_readBlock : Scheduled F (writeBlock l x) (readBlock l) fun _ y => y = x :=
  .send_recv rfl

theorem ofExcept_ofByte {v : Arr 1} (h : v = #v[sw.toByte b]) :
    (ofExcept (sw.ofByte v.byte) : Prog (channel L A) Bool) = .pure b := by
  have hb : v.byte = sw.toByte b := by rw [h]; rfl
  rw [hb, sw.ofByte_toByte]
  rfl

theorem writeF2_readF2 : Scheduled F (writeF2 sw l b) (readF2 sw l) fun _ c => c = b := by
  rw [←Prog.bind_pure (writeF2 sw l b)]
  refine .bind (.send_recv (Φ := fun _ v => v = #v[sw.toByte b]) rfl) fun _ v hv => ?_
  rw [ofExcept_ofByte hv]
  exact .pure rfl

theorem readF2_writeF2 : Scheduled F (readF2 sw l) (writeF2 sw l b) fun c _ => c = b := by
  rw [←Prog.bind_pure (writeF2 sw l b)]
  refine .bind (.recv_send (Φ := fun v _ => v = #v[sw.toByte b]) rfl) fun v _ hv => ?_
  rw [ofExcept_ofByte hv]
  exact .pure rfl

end

-- Run on shares that begin with `xs`, the preprocessing `p` uses these up, returns `a` and appends
-- to the inputs of AND gates.
def Preprocesses (b : AuthBits (channel L A)) (p : PreM b α) (xs ls rs : List b.Share) (a : α) :
    Prop :=
  ∀ (P : WirePreProcessor b) (rest : List b.Share), P.delta = b.delta →
    P.authShares.drop P.authSharesIndex = xs ++ rest →
    p.run P = .pure (a, { P with
      authSharesIndex := P.authSharesIndex + xs.length
      andGateLeftInputs := P.andGateLeftInputs ++ ls
      andGateRightInputs := P.andGateRightInputs ++ rs })

namespace Preprocesses

variable {b : AuthBits (channel L A)}

theorem pure {a : α} : Preprocesses b (Pure.pure a) [] [] [] a := by
  intro P rest _ _
  simp

theorem bind {p : PreM b α} {f : α → PreM b β} (h : Preprocesses b p xs ls rs a)
    (hf : Preprocesses b (f a) xs' ls' rs' c) :
    Preprocesses b (p >>= f) (xs ++ xs') (ls ++ ls') (rs ++ rs') c := by
  intro P rest hd hs
  rw [List.append_assoc] at hs
  rw [StateT.run_bind, h P _ hd hs, Prog.pure_bind]
  let P' := { P with
    authSharesIndex := P.authSharesIndex + xs.length
    andGateLeftInputs := P.andGateLeftInputs ++ ls
    andGateRightInputs := P.andGateRightInputs ++ rs }
  refine (hf P' rest hd ?_).trans ?_
  · rw [←List.drop_drop, hs, List.drop_left]
  · simp [P', Nat.add_assoc]

theorem map {p : PreM b α} (h : Preprocesses b p xs ls rs a) (f : α → β) :
    Preprocesses b (do Pure.pure (f (← p))) xs ls rs (f a) := by
  have h := h.bind (f := fun a => Pure.pure (f a)) pure
  rwa [List.append_nil, List.append_nil, List.append_nil] at h

theorem nextAuthShare {x : b.Share} :
    Preprocesses b WirePreProcessor.nextAuthShare [x] [] [] x := by
  intro P rest _ hs
  rw [WirePreProcessor.run_nextAuthShare hs]
  simp

theorem constant {c : Bool} :
    Preprocesses b (constant c) [] [] [] ⟨b.constantWithDelta false b.delta⟩ := by
  intro P rest hd _
  simp [FancyBinary.constant, ←hd]

theorem and {x y : PreProcessedWire b.Share} {z : b.Share} :
    Preprocesses b (and x y) [z] [x.authShare] [y.authShare] ⟨z⟩ := by
  intro P rest hd hs
  let P' := { P with
    andGateLeftInputs := P.andGateLeftInputs ++ [x.authShare]
    andGateRightInputs := P.andGateRightInputs ++ [y.authShare] }
  have hn := WirePreProcessor.run_nextAuthShare (P := P') hs
  simp [FancyBinary.and, P', hn]

-- The preprocessing is deterministic.
theorem unique {p : PreM b α} (h : Preprocesses b p xs ls rs a)
    (h' : Preprocesses b p xs ls' rs' a') : a = a' ∧ ls = ls' ∧ rs = rs' := by
  have he := (h (.new xs b.delta) [] rfl (by simp [WirePreProcessor.new])).symm.trans
    (h' (.new xs b.delta) [] rfl (by simp [WirePreProcessor.new]))
  simpa [WirePreProcessor.new] using he

end Preprocesses

section

variable {gb ev : AuthBits (channel L A)} {Paired : gb.Share → ev.Share → Prop}

-- The states of both parties between two gates: `ss` are the shares and `ks` the shares of products
-- that they have not used yet.
structure Sync (S : Garbler sw gb) (T : Evaluator sw ev) (ss ks : List (SharePair gb ev Paired)) :
    Prop where
  garblerDelta    : S.delta = gb.delta
  evaluatorDelta  : T.delta = ev.delta
  one             : T.one = S.zero ^^^ gb.delta
  gateIndex       : S.andGateIndex = T.andWireIndex
  garblerShares   : S.authShares.drop S.authSharesIndex = ss.map (·.garbler)
  evaluatorShares : T.authShares.drop T.authSharesIndex = ss.map (·.evaluator)
  garblerAnds     : S.andAuthShares.drop S.andAuthSharesIndex = ks.map (·.garbler)
  evaluatorAnds   : T.andAuthShares.drop T.andAuthSharesIndex = ks.map (·.evaluator)

-- One computation of all backends: the preprocessing of both parties, the two parties and bits. It
-- uses `n` shares, each for an AND gate, and the results are related by `Φ`.
def Garbles (F : Functionality (channel L A)) (Paired : gb.Share → ev.Share → Prop) (n : Nat)
    (pg : PreM gb α) (pe : PreM ev β) (g : GarblerM sw gb γ) (e : EvaluatorM sw ev δ) (v : ε)
    (Φ : α → β → γ → δ → ε → Prop) : Prop :=
  ∀ ss : List (SharePair gb ev Paired), ss.length = n →
    ∃ (a : α) (b : β) (ps : List (SharePair gb ev Paired × SharePair gb ev Paired)),
      ps.length = n ∧
      Preprocesses gb pg (ss.map (·.garbler)) (ps.map (·.1.garbler)) (ps.map (·.2.garbler)) a ∧
      Preprocesses ev pe (ss.map (·.evaluator)) (ps.map (·.1.evaluator))
        (ps.map (·.2.evaluator)) b ∧
      (∃ x y u, Φ a b x y u) ∧
      ∀ ks, List.Forall₂ Product ps ks → ∀ S T ss' ks', Sync S T (ss ++ ss') (ks ++ ks') →
        Scheduled F (g.run S) (e.run T) fun x y => Φ a b x.1 y.1 v ∧ Sync x.2 y.2 ss' ks'

namespace Garbles

variable {F : Functionality (channel L A)} {pg : PreM gb α} {pe : PreM ev β} {g : GarblerM sw gb γ}
  {e : EvaluatorM sw ev δ} {v : ε} {Φ : α → β → γ → δ → ε → Prop}

theorem pure (h : Φ a b x y v) :
    Garbles F Paired 0 (Pure.pure a) (Pure.pure b) (Pure.pure x : GarblerM sw gb γ)
      (Pure.pure y : EvaluatorM sw ev δ) v Φ := by
  intro ss hn
  obtain rfl := List.length_eq_zero_iff.mp hn
  refine ⟨a, b, [], rfl, .pure, .pure, ⟨x, y, v, h⟩, fun ks hk S T ss' ks' hs => ?_⟩
  obtain rfl := List.forall₂_nil_left_iff.mp hk
  exact .pure ⟨h, hs⟩

theorem bind {pg' : α → PreM gb α'} {pe' : β → PreM ev β'} {g' : γ → GarblerM sw gb γ'}
    {e' : δ → EvaluatorM sw ev δ'} {f : ε → ε'} {Ψ : α' → β' → γ' → δ' → ε' → Prop}
    (h : Garbles F Paired n pg pe g e v Φ)
    (hf : ∀ a b x y u, Φ a b x y u →
      Garbles F Paired n' (pg' a) (pe' b) (g' x) (e' y) (f u) Ψ) :
    Garbles F Paired (n + n') (pg >>= pg') (pe >>= pe') (g >>= g') (e >>= e') (f v) Ψ := by
  intro ss hn
  have ⟨ss₁, ss₂, hs, h₁, h₂⟩ : ∃ ss₁ ss₂, ss = ss₁ ++ ss₂ ∧ ss₁.length = n ∧ ss₂.length = n' :=
    ⟨ss.take n, ss.drop n, (List.take_append_drop n ss).symm, by simp [hn], by simp [hn]⟩
  subst hs
  obtain ⟨a, b, ps₁, hl₁, hg₁, he₁, ⟨x, y, u, hΦ⟩, ho₁⟩ := h ss₁ h₁
  obtain ⟨c, d, ps₂, hl₂, hg₂, he₂, hΨ, -⟩ := hf a b x y u hΦ ss₂ h₂
  refine ⟨c, d, ps₁ ++ ps₂, by simp [hl₁, hl₂], ?_, ?_, hΨ, ?_⟩
  · simpa using hg₁.bind hg₂
  · simpa using he₁.bind he₂
  · intro ks hk S T ss' ks' hs
    have hk₁ := (List.forall₂_take_append _ _ _ hk.flip).flip
    have hk₂ := (List.forall₂_drop_append _ _ _ hk.flip).flip
    rw [←List.take_append_drop ps₁.length ks] at hs
    rw [List.append_assoc, List.append_assoc] at hs
    rw [StateT.run_bind, StateT.run_bind]
    refine (ho₁ _ hk₁ S T _ _ hs).bind ?_
    rintro ⟨x, S⟩ ⟨y, T⟩ ⟨hΦ, hs⟩
    obtain ⟨c', d', ps', hl', hg', he', -, ho'⟩ := hf a b x y v hΦ ss₂ h₂
    obtain ⟨rfl, hgl, hgr⟩ := hg₂.unique hg'
    obtain ⟨rfl, hel, her⟩ := he₂.unique he'
    obtain rfl : ps₂ = ps' := SharePair.pairs_ext hgl hgr hel her
    exact ho' _ hk₂ S T ss' ks' hs

theorem of_eq (h : Garbles F Paired n pg pe g e v Φ) (hn : n = n') :
    Garbles F Paired n' pg pe g e v Φ :=
  hn ▸ h

theorem map {p : α → α'} {q : β → β'} {r : γ → γ'} {t : δ → δ'} {f : ε → ε'}
    {Ψ : α' → β' → γ' → δ' → ε' → Prop} (h : Garbles F Paired n pg pe g e v Φ)
    (hΨ : ∀ a b x y u, Φ a b x y u → Ψ (p a) (q b) (r x) (t y) (f u)) :
    Garbles F Paired n (do Pure.pure (p (← pg))) (do Pure.pure (q (← pe)))
      (do Pure.pure (r (← g))) (do Pure.pure (t (← e))) (f v) Ψ :=
  h.bind fun _ _ _ _ _ hΦ => pure (hΨ _ _ _ _ _ hΦ)

end Garbles

-- The items of all backends for a wire of value `v`: `m` is the masked value, `l` the label of the
-- masked value zero and `p` the mask.
inductive Garbled (Paired : gb.Share → ev.Share → Prop) : PreProcessedWire gb.Share →
    PreProcessedWire ev.Share → AuthenticatedWireMod2 gb.Share → AuthenticatedWireMod2 ev.Share →
    Bool → Prop
  | mk (p : SharePair gb ev Paired) (m : Bool) (l : Block) :
    Garbled Paired ⟨p.garbler⟩ ⟨p.evaluator⟩ ⟨m, l, p.garbler⟩
      ⟨m, l ^^^ scale m gb.delta, p.evaluator⟩ (m ^^ p.value)

theorem and_xor_xor (a b c d : Bool) :
    ((a ^^ c) && (b ^^ d)) = ((a && b) ^^ (a && d) ^^ (b && c) ^^ (c && d)) := by
  decide +revert

-- The bit that both parties open after an AND gate.
theorem validation_bit (m n a b d : Bool) :
    ((m && n) ^^ (((m ^^ a) && (n ^^ b)) ^^ d) ^^ (a && n) ^^ (b && m) ^^ (a && b) ^^ d) =
    false := by
  decide +revert

-- The label that the evaluator computes for an AND gate. `ma` and `mb` are the masked values of the
-- inputs, `ra ^^ sa` and `rb ^^ sb` their masks, `rc ^^ sc` is the mask of the output and `rt ^^ st`
-- the product of the masks.
theorem and_label (H : Block → Block) (la lb ka kb kc kt Δ : Block) (ma mb rc sc : Bool)
    (ht : (rt ^^ st) = ((ra ^^ sa) && (rb ^^ sb))) :
    H (la ^^^ scale ma Δ) ^^^ H (lb ^^^ scale mb Δ) ^^^ (kc ^^^ scale sc Δ) ^^^
      (kt ^^^ scale st Δ) ^^^
      scale ma (H la ^^^ H (la ^^^ Δ) ^^^ kb ^^^ scale rb Δ ^^^ (kb ^^^ scale sb Δ)) ^^^
      scale mb (H lb ^^^ H (lb ^^^ Δ) ^^^ ka ^^^ scale ra Δ ^^^ la ^^^ (ka ^^^ scale sa Δ) ^^^
        (la ^^^ scale ma Δ)) =
    H la ^^^ H lb ^^^ kc ^^^ scale rc Δ ^^^ kt ^^^ scale rt Δ ^^^
      scale (((ma ^^ (ra ^^ sa)) && (mb ^^ (rb ^^ sb))) ^^ (rc ^^ sc)) Δ := by
  rw [and_xor_xor, ←ht]
  cases ma <;> cases mb
  all_goals
    simp only [scale_xor, scale_true, scale_false, Bool.true_and, Bool.false_and, Bool.and_true,
      Bool.and_false, Arr.xor_zero, Arr.zero_xor]
    simp only [Arr.xor_assoc, Arr.xor_comm, Arr.xor_left_comm, Arr.xor_self,
      Arr.xor_xor_cancel_left, Arr.xor_zero]

theorem drop_succ {xs : List α} (h : xs.drop i = x :: rest) : xs.drop (i + 1) = rest := by
  rw [←List.drop_drop, h]
  rfl

namespace Garbles

variable {F : Functionality (channel L A)} {PairedTriples : gb.Triple → ev.Triple → Prop}

theorem and (hl : Lawful sw F gb ev Paired PairedTriples)
    (hx : Garbled Paired x x' w w' u) (hy : Garbled Paired y y' z z' v) :
    Garbles F Paired 1 (and x y) (and x' y') (and w z : GarblerM sw gb _)
      (and w' z' : EvaluatorM sw ev _) (u && v) (Garbled Paired) := by
  intro ss hn
  obtain ⟨s, rfl⟩ := List.length_eq_one_iff.mp hn
  cases hx
  case mk p m la =>
  cases hy
  case mk q n lb =>
  refine ⟨⟨s.garbler⟩, ⟨s.evaluator⟩, [(p, q)], rfl, .and, .and, ⟨_, _, _, .mk s false 0⟩, ?_⟩
  intro ks hk S T ss' ks' hs
  obtain ⟨k, ks, hp, hr, rfl⟩ := List.forall₂_cons_left_iff.mp hk
  obtain rfl := List.forall₂_nil_left_iff.mp hr
  let S₁ : Garbler sw gb := { S with andGateIndex := S.andGateIndex + 1 }
  let S₂ : Garbler sw gb := { S₁ with authSharesIndex := S.authSharesIndex + 1 }
  let T₁ : Evaluator sw ev := { T with andWireIndex := T.andWireIndex + 1 }
  let T₂ : Evaluator sw ev := { T₁ with authSharesIndex := T.authSharesIndex + 1 }
  have hS₁ := Garbler.run_nextAuthShare (S := S₁) hs.garblerShares
  have hS₂ := Garbler.run_nextAndAuthShare (S := S₂) hs.garblerAnds
  have hT₁ := Evaluator.run_nextAuthShare (T := T₁) hs.evaluatorShares
  have hT₂ := Evaluator.run_nextAndAuthShare (T := T₂) hs.evaluatorAnds
  simp only [S₁, S₂] at hS₁ hS₂
  simp only [T₁, T₂] at hT₁ hT₂
  simp only [FancyBinary.and, Garbler.and, Garbler.nextAndGateIndex, Evaluator.and,
    Evaluator.nextAndWireIndex, bind_pure_comp, Nat.toString_eq_repr, bind_assoc, bind_map_left,
    StateT.run_bind, StateT.run_get, Prog.pure_eq, StateT.run_set, StateT.run_monadLift,
    monadLift_self, Prog.pure_bind, hS₁, hS₂, hT₁, hT₂]
  refine .bind writeBlock_readBlock ?_
  rintro _ gateC0 rfl
  refine .bind writeBlock_readBlock ?_
  rintro _ gateC1 rfl
  refine .bind writeF2_readF2 ?_
  rintro _ bitC rfl
  refine .bind readF2_writeF2 ?_
  rintro lcValue _ rfl
  -- The masked value of the output, for which the evaluator gets the label.
  let c := ((m ^^ p.value) && (n ^^ q.value)) ^^ s.value
  have hlabel := and_label (fun x => sw.hash x T.andWireIndex) la lb (gb.key p.garbler)
    (gb.key q.garbler) (gb.key s.garbler) (gb.key k.garbler) gb.delta m n (gb.bit s.garbler)
    (ev.bit s.evaluator) hp
  simp only at hlabel
  simp only [hs.garblerDelta, hs.evaluatorDelta, hs.gateIndex, hl.mac_evaluator, hlabel,
    hl.lsb_label]
  let o := hl.xor
    (hl.xor (hl.xor (hl.xor (hl.constant ((m && n) ^^ c)) (hl.mul p n)) (hl.mul q m)) k) s
  have ho : o.value = false := by
    have hk : k.value = (p.value && q.value) := hp
    simp only [o, c, hl.value_xor, hl.value_mul, hl.value_constant, hk, validation_bit]
  refine .bind (hl.openBoth [o]) ?_
  rintro _ _ ⟨rfl, rfl⟩
  have hi : (index ([o].map (·.value)) 0 : Prog (channel L A) Bool) = .pure false := by
    rw [List.map_singleton, ho]
    rfl
  rw [hi]
  refine .pure ⟨?_, ?_⟩
  · have hv : ((m ^^ p.value) && (n ^^ q.value)) = (c ^^ s.value) := by
      rw [Bool.xor_assoc, Bool.xor_self, Bool.xor_false]
    rw [hv]
    exact .mk s c _
  · exact {
      garblerDelta    := rfl
      evaluatorDelta  := rfl
      one             := hs.one
      gateIndex       := rfl
      garblerShares   := drop_succ hs.garblerShares
      evaluatorShares := drop_succ hs.evaluatorShares
      garblerAnds     := drop_succ hs.garblerAnds
      evaluatorAnds   := drop_succ hs.evaluatorAnds
    }

theorem xor (hl : Lawful sw F gb ev Paired PairedTriples) (hx : Garbled Paired x x' w w' u)
    (hy : Garbled Paired y y' z z' v) :
    Garbles F Paired 0 (xor x y) (xor x' y') (xor w z : GarblerM sw gb _)
      (xor w' z' : EvaluatorM sw ev _) (u ^^ v) (Garbled Paired) := by
  cases hx
  case mk p m la =>
  cases hy
  case mk q n lb =>
  refine pure ?_
  have hv : ((m ^^ p.value) ^^ (n ^^ q.value)) = ((m ^^ n) ^^ (hl.xor p q).value) := by
    simp only [hl.value_xor, Bool.xor_assoc, Bool.xor_left_comm]
  have hb : la ^^^ scale m gb.delta ^^^ (lb ^^^ scale n gb.delta) =
      la ^^^ lb ^^^ scale (m ^^ n) gb.delta := by
    simp only [scale_xor, Arr.xor_assoc, Arr.xor_left_comm]
  simp only [hv, hb]
  exact .mk (hl.xor p q) (m ^^ n) (la ^^^ lb)

theorem constant (hl : Lawful sw F gb ev Paired PairedTriples) (c : Bool) :
    Garbles F Paired 0 (constant c) (constant c) (constant c : GarblerM sw gb _)
      (constant c : EvaluatorM sw ev _) c (Garbled Paired) := by
  intro ss hn
  obtain rfl := List.length_eq_zero_iff.mp hn
  have hv : c = (c ^^ (hl.constant false).value) := by rw [hl.value_constant, Bool.xor_false]
  have hg (m : Bool) (l : Block) := Garbled.mk (hl.constant false) m l
  refine ⟨_, _, [], rfl, .constant, .constant, ⟨_, _, _, hg false 0⟩, ?_⟩
  intro ks hk S T ss' ks' hs
  obtain rfl := List.forall₂_nil_left_iff.mp hk
  simp only [FancyBinary.constant, Garbler.rand, bind_pure_comp, bind_assoc, bind_map_left,
    LawfulMonadStateOf.get_bind_get_bind, StateT.run_bind, StateT.run_get, Prog.pure_eq,
    StateT.run_set, StateT.run_map, StateT.run_monadLift, monadLift_self, map_bind, Prog.map_pure,
    Prog.pure_bind]
  refine .bind writeBlock_readBlock ?_
  rintro _ wireLabel rfl
  refine .pure ⟨?_, ?_⟩
  · have hg := hg c S.rng.head
    rw [←hv] at hg
    simp only [hs.garblerDelta, hs.evaluatorDelta]
    exact hg
  · exact { hs with }

theorem negate (hx : Garbled Paired x x' w w' u) :
    Garbles F Paired 0 (Negating.negate x) (Negating.negate x')
      (Negating.negate w : GarblerM sw gb _) (Negating.negate w' : EvaluatorM sw ev _) (!u)
      (Garbled Paired) := by
  cases hx
  case mk p m l =>
  intro ss hn
  obtain rfl := List.length_eq_zero_iff.mp hn
  refine ⟨_, _, [], rfl, .pure, .pure, ⟨_, _, _, .mk p m l⟩, fun ks hk S T ss' ks' hs => ?_⟩
  obtain rfl := List.forall₂_nil_left_iff.mp hk
  have hv : (!(m ^^ p.value)) = ((m ^^ true) ^^ p.value) := by
    rw [Bool.xor_true, Bool.not_xor]
  have hb : l ^^^ scale m gb.delta ^^^ T.one =
      l ^^^ S.zero ^^^ scale (m ^^ true) gb.delta := by
    simp only [hs.one, scale_xor, scale_true, Arr.xor_assoc, Arr.xor_left_comm]
  have hg := Garbled.mk p (m ^^ true) (l ^^^ S.zero)
  rw [←hb, ←hv] at hg
  exact .pure ⟨hg, hs⟩

end Garbles

end

end Garbling
