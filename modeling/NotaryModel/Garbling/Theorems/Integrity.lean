import NotaryModel.Garbling.Audited
import NotaryModel.Garbling.Theorems.Inputs

open Circuit
open Circuit.FancyBinary (constant xor and)

namespace Prog.Ensures

variable {I : Interface}

theorem mono {p : Prog I α} {Φ Ψ : α → Prop} (h : p.Ensures Φ) (hi : ∀ a, Φ a → Ψ a) :
    p.Ensures Ψ :=
  fun eof es a hr => hi a (h eof es a hr)

-- A loop over inputs that its results still tell.
theorem mapM {σ : Type} {q : ι → StateT σ (Prog I) β} {f : β → ι}
    (h : ∀ x S, ((q x).run S).Ensures fun y => f y.1 = x ∧ y.2 = S) (xs : List ι) (S : σ) :
    ((xs.mapM q).run S).Ensures fun y => y.1.map f = xs ∧ y.2 = S := by
  induction xs
  case nil          => exact .pure ⟨rfl, rfl⟩
  case cons x xs hi =>
    rw [List.mapM_cons, StateT.run_bind]
    refine .bind (h x S) ?_
    rintro ⟨y, _⟩ ⟨rfl, rfl⟩
    rw [StateT.run_bind]
    refine .bind hi ?_
    rintro ⟨ys, _⟩ ⟨rfl, rfl⟩
    exact .pure ⟨rfl, rfl⟩

theorem forM {σ : Type} (p : ι → Prog I Unit) (xs : List ι) (S : σ) :
    ((forM xs fun x => (p x : StateT σ (Prog I) Unit)).run S).Ensures fun y => y.2 = S := by
  induction xs
  case nil          => exact .pure rfl
  case cons x xs hi =>
    simp only [List.forM_cons, StateT.run_bind, StateT.run_monadLift, monadLift_self, bind_assoc,
      Prog.pure_eq, Prog.pure_bind]
    exact .of_forall fun _ => hi

end Prog.Ensures

-- An evaluator whose peer need not keep to the protocol.
namespace Garbling

variable {L Q : Type} {A : Q → Type} {b : AuthBits (channel L A)} {value : b.Share → Bool}
  {sw : Swanky}

-- A library that opens shares only to the bits behind them, which `value` tells.
structure Authentic (b : AuthBits (channel L A)) (value : b.Share → Bool) : Prop where
  value_xor : value (b.xor x y) = (value x ^^ value y)
  value_mul : value (b.mulWithConst x c) = (value x && c)
  value_constant : value (b.constantWithDelta c b.delta) = c
  generateTriples : (b.generateTriples n).Ensures fun ts => ts.length = n
  generate : (b.generate n).Ensures fun xs => xs.length = n
  toKnownTriple (ps : List (b.Share × b.Share)) : ts.length = ps.length →
    (b.toKnownTriple ts (ps.map (·.1)) (ps.map (·.2))).Ensures fun ks =>
      List.Forall₂ (fun p k => value k = (value p.1 && value p.2)) ps ks
  openTheirShares : (b.openTheirShares xs b.delta).Ensures fun bs =>
    bs = xs.map fun x => value x ^^ b.bit x
  openShares : (b.openShares xs b.delta).Ensures fun bs => bs = xs.map value

-- The audit of a library makes it one.
section

variable {b : AuthBits (channel L A)} {dealt : Nat → Bool}

theorem AuthBits.checkDealt_ensures (dealt bits : List Bool) :
    (checkDealt dealt bits : Prog (channel L A) _).Ensures fun bs => bs = dealt := by
  rw [checkDealt]
  split
  case isTrue h  => exact .pure h
  case isFalse   => exact .fail

theorem AuthBits.value_products (ps : List (b.Dealt × b.Dealt)) (ks : List b.Share)
    (hl : ks.length = ps.length) :
    List.Forall₂ (fun p k => b.value k = (b.value p.1 && b.value p.2)) ps (ks.mapIdx fun i k =>
      (k, (b.products (ps.map (·.1)) (ps.map (·.2))).getD i false ^^ b.bit k)) := by
  induction ps generalizing ks
  case nil =>
    obtain rfl := List.length_eq_zero_iff.mp hl
    exact .nil
  case cons p ps hi =>
    cases ks
    case nil       => simp at hl
    case cons k ks =>
      have hx (x y : Bool) : (x ^^ (y ^^ x)) = y := by decide +revert
      rw [List.mapIdx_cons]
      exact .cons (hx _ _) (hi ks (Nat.succ.inj hl))

theorem AuthBits.Linear.toKnownTriple_audited (h : b.Linear) (ps : List (b.Dealt × b.Dealt))
    {ts : List b.Triple} (ht : ts.length = ps.length) :
    ((b.audited dealt).toKnownTriple ts (ps.map (·.1)) (ps.map (·.2))).Ensures fun ks =>
      List.Forall₂ (fun p k => b.value k = (b.value p.1 && b.value p.2)) ps ks := by
  have hk : (b.toKnownTriple ts ((ps.map (·.1)).map (·.1)) ((ps.map (·.2)).map (·.1))).Ensures
      fun ks => ks.length = ts.length := h.toKnownTriple (by simp [ht]) (by simp [ht])
  exact .bind hk fun ks hk => .pure <| AuthBits.value_products ps ks (hk.trans ht)

theorem AuthBits.openTheirShares_audited (xs : List b.Dealt) (δ : Block) :
    ((b.audited dealt).openTheirShares xs δ).Ensures fun bs =>
      bs = xs.map fun x => b.value x ^^ b.bit x.1 := by
  refine .of_forall fun bits => (AuthBits.checkDealt_ensures _ _).mono ?_
  rintro _ rfl
  refine List.map_congr_left fun x _ => ?_
  simp only [AuthBits.value, Bool.xor_comm, Bool.xor_left_comm, Bool.xor_self, Bool.false_xor]

theorem AuthBits.openShares_audited (xs : List b.Dealt) (δ : Block) :
    ((b.audited dealt).openShares xs δ).Ensures fun bs => bs = xs.map b.value :=
  .of_forall fun _ => AuthBits.checkDealt_ensures _ _

theorem AuthBits.Linear.authentic (h : b.Linear) : Authentic (b.audited dealt) b.value where
  value_xor {x y} := by
    simp only [AuthBits.value, h.bit_xor, Bool.xor_assoc, Bool.xor_left_comm]
  value_mul {x c} := by
    simp only [AuthBits.value, h.bit_mul, Bool.and_xor_distrib_right]
  value_constant {c} := by
    simp only [AuthBits.value, Bool.xor_left_comm, Bool.xor_self, Bool.xor_false]
  generateTriples := h.generateTriples
  generate := .bind h.generate fun xs hx => .pure (by rw [List.length_mapIdx, hx])
  toKnownTriple ps ht := h.toKnownTriple_audited ps ht
  openTheirShares := AuthBits.openTheirShares_audited _ _
  openShares := AuthBits.openShares_audited _ _

end

-- The evaluator between two gates, where `ss` are the shares and `ks` the shares of products that
-- it has not used yet.
structure Ready (T : Evaluator sw b) (ss ks : List b.Share) : Prop where
  delta  : T.delta = b.delta
  shares : T.authShares.drop T.authSharesIndex = ss
  ands   : T.andAuthShares.drop T.andAuthSharesIndex = ks

-- The bit that a wire of the evaluator stands for.
def carried (value : b.Share → Bool) (w : AuthenticatedWireMod2 b.Share) : Bool :=
  w.maskedValue ^^ value w.authShare

-- One computation of the preprocessing, the evaluator and bits. It uses `n` shares, each for an AND
-- gate. If the evaluator gets through, then the results are related by `Φ`.
def Enforces (value : b.Share → Bool) (n : Nat) (p : PreM b α) (e : EvaluatorM sw b β) (v : γ)
    (Φ : α → β → γ → Prop) : Prop :=
  ∀ ss : List b.Share, ss.length = n → ∃ (a : α) (ps : List (b.Share × b.Share)),
    ps.length = n ∧ Preprocesses b p ss (ps.map (·.1)) (ps.map (·.2)) a ∧ (∃ y u, Φ a y u) ∧
    ∀ ks, List.Forall₂ (fun p k => value k = (value p.1 && value p.2)) ps ks →
      ∀ T ss' ks', Ready T (ss ++ ss') (ks ++ ks') →
        (e.run T).Ensures fun y => Φ a y.1 v ∧ Ready y.2 ss' ks'

-- The items of all backends for a wire of value `v`.
def Enforced (value : b.Share → Bool) (x : PreProcessedWire b.Share)
    (w : AuthenticatedWireMod2 b.Share) (v : Bool) : Prop :=
  x = ⟨w.authShare⟩ ∧ carried value w = v

theorem pairs_ext {ps qs : List (α × β)} (h₁ : ps.map (·.1) = qs.map (·.1))
    (h₂ : ps.map (·.2) = qs.map (·.2)) : ps = qs := by
  rw [←List.zip_unzip ps, ←List.zip_unzip qs, List.unzip_eq_map, List.unzip_eq_map]
  exact congrArg₂ List.zip h₁ h₂

namespace Enforces

variable {p : PreM b α} {e : EvaluatorM sw b β} {v : γ} {Φ : α → β → γ → Prop}

theorem pure (h : Φ a y v) :
    Enforces value 0 (Pure.pure a) (Pure.pure y : EvaluatorM sw b β) v Φ := by
  intro ss hn
  obtain rfl := List.length_eq_zero_iff.mp hn
  refine ⟨a, [], rfl, .pure, ⟨y, v, h⟩, fun ks hk T ss' ks' hr => ?_⟩
  obtain rfl := List.forall₂_nil_left_iff.mp hk
  exact .pure ⟨h, hr⟩

theorem bind {p' : α → PreM b α'} {e' : β → EvaluatorM sw b β'} {f : γ → γ'}
    {Ψ : α' → β' → γ' → Prop} (h : Enforces value n p e v Φ)
    (hf : ∀ a y u, Φ a y u → Enforces value n' (p' a) (e' y) (f u) Ψ) :
    Enforces value (n + n') (p >>= p') (e >>= e') (f v) Ψ := by
  intro ss hn
  obtain ⟨ss₁, ss₂, rfl, h₁, h₂⟩ : ∃ ss₁ ss₂, ss = ss₁ ++ ss₂ ∧ ss₁.length = n ∧ ss₂.length = n' :=
    ⟨ss.take n, ss.drop n, (List.take_append_drop n ss).symm, by simp [hn], by simp [hn]⟩
  obtain ⟨a, ps₁, hl₁, hp₁, ⟨y, u, hΦ⟩, ho₁⟩ := h ss₁ h₁
  obtain ⟨c, ps₂, hl₂, hp₂, hΨ, -⟩ := hf a y u hΦ ss₂ h₂
  refine ⟨c, ps₁ ++ ps₂, by simp [hl₁, hl₂], ?_, hΨ, ?_⟩
  · simpa using hp₁.bind hp₂
  · intro ks hk T ss' ks' hr
    have hk₁ := (List.forall₂_take_append _ _ _ hk.flip).flip
    have hk₂ := (List.forall₂_drop_append _ _ _ hk.flip).flip
    rw [←List.take_append_drop ps₁.length ks, List.append_assoc, List.append_assoc] at hr
    rw [StateT.run_bind]
    refine .bind (ho₁ _ hk₁ T _ _ hr) ?_
    rintro ⟨y, T⟩ ⟨hΦ, hr⟩
    -- The preprocessing does the same for whatever wire the evaluator has got.
    obtain ⟨c', ps', -, hp', -, ho'⟩ := hf a y v hΦ ss₂ h₂
    obtain ⟨rfl, hl, hr'⟩ := hp₂.unique hp'
    obtain rfl : ps₂ = ps' := pairs_ext hl hr'
    exact ho' _ hk₂ T ss' ks' hr

theorem of_eq (h : Enforces value n p e v Φ) (hn : n = n') : Enforces value n' p e v Φ :=
  hn ▸ h

theorem map {q : α → α'} {r : β → β'} {f : γ → γ'} {Ψ : α' → β' → γ' → Prop}
    (h : Enforces value n p e v Φ) (hΨ : ∀ a y u, Φ a y u → Ψ (q a) (r y) (f u)) :
    Enforces value n (do Pure.pure (q (← p))) (do Pure.pure (r (← e))) (f v) Ψ :=
  h.bind fun _ _ _ hΦ => pure (hΨ _ _ _ hΦ)

theorem ofFnM {p : Fin m → PreM b α} {e : Fin m → EvaluatorM sw b β} {v : Fin m → γ}
    (h : ∀ i, Enforces value n (p i) (e i) (v i) Φ) :
    Enforces value (m * n) (Vector.ofFnM p) (Vector.ofFnM e) (Vector.ofFn v) fun as ys vs =>
      ∀ i, (h : i < m) → Φ as[i] ys[i] vs[i] := by
  induction m
  case zero =>
    rw [Nat.zero_mul]
    simp only [Vector.ofFnM_zero]
    exact pure nofun
  case succ m hi =>
    rw [Nat.succ_mul]
    simp only [Vector.ofFnM_succ, Vector.ofFn_succ]
    refine bind (f := fun vs => vs.push (v (Fin.last m))) (hi fun i => h i.castSucc) ?_
    intro as ys vs hΦ
    refine map (f := vs.push) (h (Fin.last m)) fun a y u hu i him => ?_
    rcases Nat.lt_succ_iff_lt_or_eq.mp him with hl | rfl
    · simpa [Vector.getElem_push_lt, hl] using hΦ i hl
    · simpa using hu

end Enforces

namespace Enforces

theorem xor (ha : Authentic b value) (hx : Enforced value x w u) (hy : Enforced value y z v) :
    Enforces value 0 (xor x y) (xor w z : EvaluatorM sw b _) (u ^^ v) (Enforced value) := by
  obtain ⟨rfl, rfl⟩ := hx
  obtain ⟨rfl, rfl⟩ := hy
  refine pure ⟨rfl, ?_⟩
  simp only [carried, ha.value_xor, Bool.xor_assoc, Bool.xor_left_comm]

theorem negate (hx : Enforced value x w u) : Enforces value 0 (Negating.negate x)
    (Negating.negate w : EvaluatorM sw b _) (!u) (Enforced value) := by
  obtain ⟨rfl, rfl⟩ := hx
  intro ss hn
  obtain rfl := List.length_eq_zero_iff.mp hn
  refine ⟨_, [], rfl, .pure, ⟨w, _, rfl, rfl⟩, fun ks hk T ss' ks' hr => ?_⟩
  obtain rfl := List.forall₂_nil_left_iff.mp hk
  refine .pure ⟨⟨rfl, ?_⟩, hr⟩
  simp only [carried, Bool.xor_true, Bool.not_xor]

theorem constant (ha : Authentic b value) (c : Bool) : Enforces value 0 (constant c)
    (constant c : EvaluatorM sw b _) c (Enforced value) := by
  intro ss hn
  obtain rfl := List.length_eq_zero_iff.mp hn
  have hc (l : Block) : Enforced value ⟨b.constantWithDelta false b.delta⟩
      ⟨c, l, b.constantWithDelta false b.delta⟩ c := ⟨rfl, by
    rw [carried, ha.value_constant, Bool.xor_false]⟩
  refine ⟨_, [], rfl, .constant, ⟨_, _, hc 0⟩, fun ks hk T ss' ks' hr => ?_⟩
  obtain rfl := List.forall₂_nil_left_iff.mp hk
  simp only [FancyBinary.constant, bind_assoc, StateT.run_bind, StateT.run_get, Prog.pure_eq,
    StateT.run_monadLift, monadLift_self, Prog.pure_bind, hr.delta]
  exact .of_forall fun l => .pure ⟨hc l, hr⟩

-- If the parties open the validation bit as zero, then the masked value that the evaluator has
-- computed is right.
theorem eq_of_validation_bit (m n a b c d : Bool)
    (h : ((m && n) ^^ c ^^ (a && n) ^^ (b && m) ^^ (a && b) ^^ d) = false) :
    (c ^^ d) = ((m ^^ a) && (n ^^ b)) := by
  decide +revert

-- Whatever the garbler has sent for the gate.
theorem and (ha : Authentic b value) (hx : Enforced value x w u) (hy : Enforced value y z v) :
    Enforces value 1 (and x y) (and w z : EvaluatorM sw b _) (u && v) (Enforced value) := by
  obtain ⟨rfl, rfl⟩ := hx
  obtain ⟨rfl, rfl⟩ := hy
  intro ss hn
  obtain ⟨s, rfl⟩ := List.length_eq_one_iff.mp hn
  refine ⟨⟨s⟩, [(w.authShare, z.authShare)], rfl, .and, ⟨⟨false, 0, s⟩, _, rfl, rfl⟩, ?_⟩
  intro ks hk T ss' ks' hr
  obtain ⟨k, ks, hp, hn, rfl⟩ := List.forall₂_cons_left_iff.mp hk
  obtain rfl := List.forall₂_nil_left_iff.mp hn
  let T₁ : Evaluator sw b := { T with andWireIndex := T.andWireIndex + 1 }
  let T₂ : Evaluator sw b := { T₁ with authSharesIndex := T.authSharesIndex + 1 }
  have hT₁ := Evaluator.run_nextAuthShare (T := T₁) hr.shares
  have hT₂ := Evaluator.run_nextAndAuthShare (T := T₂) hr.ands
  simp only [T₁, T₂] at hT₁ hT₂
  simp only [FancyBinary.and, Evaluator.and, Evaluator.nextAndWireIndex, bind_assoc,
    StateT.run_bind, StateT.run_get, StateT.run_pure, Prog.pure_eq, StateT.run_set,
    StateT.run_monadLift, monadLift_self, Prog.pure_bind, hT₁, hT₂]
  refine .of_forall fun gateC0 => .of_forall fun gateC1 => .of_forall fun bitC => ?_
  refine .of_forall fun _ => ?_
  rw [hr.delta]
  generalize (sw.lsb _ ^^ bitC) = c
  refine .bind ha.openShares ?_
  rintro _ rfl
  simp only [List.map_cons, List.map_nil, ha.value_xor, ha.value_mul, ha.value_constant, hp]
  rw [index_of_drop rfl, Prog.pure_eq, Prog.pure_bind]
  split
  case isTrue h =>
    have hc := eq_of_validation_bit _ _ _ _ _ _ h
    exact .pure ⟨⟨rfl, hc⟩, rfl, drop_succ hr.shares, drop_succ hr.ands⟩
  case isFalse => exact .fail

end Enforces

-- The wires of all backends carry the bits `vs`.
def AllEnforced (value : b.Share → Bool) (xs : Vector (PreProcessedWire b.Share) n)
    (ws : Vector (AuthenticatedWireMod2 b.Share) n) (vs : Vector Bool n) : Prop :=
  ∀ i, (h : i < n) → Enforced value xs[i] ws[i] vs[i]

theorem AllEnforced.push (h : AllEnforced value xs ws vs) (hx : Enforced value x w v) :
    AllEnforced value (xs.push x) (ws.push w) (vs.push v) := by
  intro i hi
  rcases Nat.lt_succ_iff_lt_or_eq.mp hi with hl | rfl
  · simpa [Vector.getElem_push_lt, hl] using h i hl
  · simpa using hx

-- A circuit whose outputs the evaluator gets right, if it gets them. It has `k` AND gates.
def EnforcesCircuit (c : Executor s n) (k : Nat) (sw : Swanky) (value : b.Share → Bool) : Prop :=
  ∀ xs ws vs, AllEnforced value xs ws vs → Enforces value k (c.execute xs)
    (c.execute ws : EvaluatorM sw b _) (c.value vs) (AllEnforced value)

theorem enforcesCircuit_straightLine (ha : Authentic b value) (c : StraightLine s n) :
    EnforcesCircuit c.executor c.nands sw value := by
  induction c
  case outputs outs =>
    intro xs ws vs h
    refine .pure fun i hi => ?_
    have hv : ((StraightLine.outputs outs).executor.value vs)[i] = vs.get outs[i] :=
      Vector.getElem_map _ hi
    rw [Vector.getElem_map, Vector.getElem_map, hv]
    exact h outs[i] outs[i].isLt
  case constant c rest hi =>
    intro xs ws vs h
    rw [StraightLine.nands, ←Nat.zero_add rest.nands]
    refine .bind (f := fun b => rest.executor.value (vs.push b)) (.constant ha c) ?_
    exact fun _ _ _ hx => hi _ _ _ (h.push hx)
  case negate x rest hi =>
    intro xs ws vs h
    rw [StraightLine.nands, ←Nat.zero_add rest.nands]
    refine .bind (f := fun b => rest.executor.value (vs.push b)) (.negate (h x x.isLt)) ?_
    exact fun _ _ _ hx => hi _ _ _ (h.push hx)
  case xor x y rest hi =>
    intro xs ws vs h
    rw [StraightLine.nands, ←Nat.zero_add rest.nands]
    refine .bind (f := fun b => rest.executor.value (vs.push b))
      (.xor ha (h x x.isLt) (h y y.isLt)) ?_
    exact fun _ _ _ hx => hi _ _ _ (h.push hx)
  case and x y rest hi =>
    intro xs ws vs h
    rw [StraightLine.nands, Nat.add_comm]
    refine .bind (f := fun b => rest.executor.value (vs.push b))
      (.and ha (h x x.isLt) (h y y.isLt)) ?_
    exact fun _ _ _ hx => hi _ _ _ (h.push hx)

theorem AllEnforced.map_carried {xs : Vector (PreProcessedWire b.Share) n}
    (h : AllEnforced value xs ws vs) : ws.toList.map (carried value) = vs.toList :=
  List.ext_getElem (by simp) fun i hi _ => by
    simpa using (h i (by simpa using hi)).right

-- With the shares `ss` and the products `ks`, the evaluator runs the circuit on wires that are
-- masked by `is`.
def Executable (sw : Swanky) (value : b.Share → Bool) (circ : Executor s n)
    (is ss ks : List b.Share) : Prop :=
  ∀ (ws : List (AuthenticatedWireMod2 b.Share)) (v : Vector Bool s), ws.map (·.authShare) = is →
    ws.map (carried value) = v.toList → ∀ T, Ready T ss ks →
    ((executeOn circ ws : EvaluatorM sw b _).run T).Ensures fun y =>
      y.1.toList.map (carried value) = (circ.value v).toList ∧ y.2.delta = b.delta

theorem EnforcesCircuit.executeOn {circ : Executor s n} (hc : EnforcesCircuit circ k sw value)
    (ws : List (AuthenticatedWireMod2 b.Share)) (v : Vector Bool s)
    (hv : ws.map (carried value) = v.toList) :
    Enforces value k (executeOn circ (ws.map fun w => ⟨w.authShare⟩))
      (executeOn circ ws : EvaluatorM sw b _) (circ.value v) (AllEnforced value) := by
  have hl : ws.length = s := by simpa using congrArg List.length hv
  simp only [Garbling.executeOn, List.length_map, dif_pos hl]
  refine hc _ _ _ fun i hi => ⟨by simp, ?_⟩
  have h := congrArg (·[i]?) hv
  simpa [hi, hl] using h

theorem generateTriples_ensures (ha : Authentic b value) (k : Nat) :
    (if k > 0 then b.generateTriples (if 0 < k ∧ k < 320 then 320 else k)
      else pure [] : Prog (channel L A) _).Ensures fun ts => k ≤ ts.length := by
  by_cases h : k > 0
  case pos =>
    rw [if_pos h]
    refine ha.generateTriples.mono fun ts ht => ?_
    rw [ht]
    split <;> omega
  case neg =>
    rw [if_neg h]
    exact .pure (by simpa using h)

theorem toKnownTriple_ensures (ha : Authentic b value) {ts : List b.Triple}
    (ps : List (b.Share × b.Share)) (hk : ps.length ≤ ts.length) :
    (if ps.length > 0 then
      b.toKnownTriple (ts.take ps.length) (ps.map (·.1)) (ps.map (·.2))
    else
      pure [] : Prog (channel L A) _).Ensures
        fun ks => List.Forall₂ (fun p k => value k = (value p.1 && value p.2)) ps ks := by
  by_cases h : ps.length > 0
  case pos =>
    rw [if_pos h]
    exact ha.toKnownTriple ps (List.length_take_of_le hk)
  case neg =>
    rw [if_neg h]
    obtain rfl : ps = [] := List.length_eq_zero_iff.mp (by omega)
    exact .pure .nil

theorem preprocessCircuit_ensures (ha : Authentic b value) {circ : Executor s n}
    (hc : EnforcesCircuit circ k sw value) (hk : sw.Counts circ k) :
    (preprocessCircuit sw b circ).Ensures fun y => ∃ is ss, is.length = s ∧ y.1 = is ++ ss ∧
      Executable sw value circ is ss y.2 := by
  unfold preprocessCircuit
  have hn := hk.nands
  have hs := hk.ninputs
  generalize sw.analyze circ = counts at hn hs
  obtain ⟨nands, ninputs, nconstants⟩ := counts
  subst hn hs
  refine .bind (generateTriples_ensures ha nands) ?_
  intro ts hn
  refine .bind ha.generate fun ss hss => ?_
  obtain ⟨is, us, rest, rfl, rfl, hu⟩ : ∃ is us rest, ss = is ++ (us ++ rest) ∧
      is.length = ninputs ∧ us.length = nands :=
    ⟨ss.take ninputs, (ss.drop ninputs).take nands, (ss.drop ninputs).drop nands, by simp,
      by simp; omega, by simp; omega⟩
  have hg (ws : List (AuthenticatedWireMod2 b.Share)) (v : Vector Bool is.length)
      (hv : ws.map (carried value) = v.toList) := hc.executeOn ws v hv us hu
  -- The preprocessing does not depend on the values of wires.
  obtain ⟨a, ps, hp, hpre, -, -⟩ := hg (is.map fun x => ⟨value x, 0, x⟩) (.replicate _ false)
    (by simp [Function.comp_def, carried])
  rw [List.map_map] at hpre
  have hr := (Preprocesses.receiveMany is).bind (f := executeOn circ) hpre
  have hr := hr (.new (is ++ (us ++ rest)) b.delta) rest rfl (by simp [WirePreProcessor.new])
  simp only [hr, Prog.pure_bind]
  simp only [WirePreProcessor.new, List.nil_append]
  subst hp
  refine .bind (toKnownTriple_ensures ha ps hn) fun ks hks => ?_
  refine .pure ⟨is, us ++ rest, rfl, rfl, ?_⟩
  intro ws v hm hv T hT
  obtain ⟨a', ps', -, hpre', -, ho⟩ := hg ws v hv
  subst hm
  rw [List.map_map] at hpre
  obtain ⟨rfl, hl, hr⟩ := hpre.unique hpre'
  obtain rfl : ps = ps' := pairs_ext hl hr
  refine (ho ks hks T rest [] (by rwa [List.append_nil])).mono ?_
  rintro ⟨out, T⟩ ⟨hout, hT⟩
  exact ⟨hout.map_carried, hT.delta⟩

-- The inputs of the evaluator and of its peer.

theorem receiveWirelabels_ensures (ms : List Bool) (xs : List b.Share) (T : Evaluator sw b) :
    ((Evaluator.receiveWirelabels ms xs).run T).Ensures fun y =>
      y.1.map (fun w => (w.maskedValue, w.authShare)) = ms.zip xs ∧ y.2 = T := by
  refine .mapM (fun x T => ?_) (ms.zip xs) T
  simp only [StateT.run_bind, StateT.run_monadLift, monadLift_self, bind_assoc, Prog.pure_eq,
    Prog.pure_bind]
  exact .of_forall fun l => .pure ⟨rfl, rfl⟩

theorem Ready.drop_shares {T : Evaluator sw b} (h : Ready T (xs ++ ss) ks) :
    Ready ({ T with authSharesIndex := T.authSharesIndex + xs.length } : Evaluator sw b) ss ks where
  delta  := h.delta
  shares := by rw [←List.drop_drop, h.shares, List.drop_left]
  ands   := h.ands

-- The peer chooses its inputs.
theorem receiveMany_ensures (xs : List b.Share) {T : Evaluator sw b}
    (hT : Ready T (xs ++ ss) ks) :
    ((Evaluator.receiveMany xs.length).run T).Ensures fun y =>
      y.1.map (·.authShare) = xs ∧ Ready y.2 ss ks := by
  have he := Evaluator.run_nextAuthShares xs hT.shares
  rw [Evaluator.receiveMany]
  simp only [StateT.run_bind, StateT.run_monadLift, monadLift_self, bind_assoc, Prog.pure_eq,
    Prog.pure_bind, he]
  refine .of_forall fun _ => .bind (.mapM (f := fun _ => ()) (fun _ T => ?_) _ _) ?_
  · rw [StateT.run_monadLift]
    exact .of_forall fun _ => .pure ⟨rfl, rfl⟩
  rintro ⟨ms, _⟩ ⟨hms, rfl⟩
  have hl : ms.length = xs.length := by simpa using congrArg List.length hms
  refine (receiveWirelabels_ensures ms xs _).mono ?_
  rintro ⟨ws, _⟩ ⟨hws, rfl⟩
  have hw := congrArg (List.map Prod.snd) hws
  rw [List.map_map, List.map_snd_zip hl.ge] at hw
  exact ⟨hw, hT.drop_shares⟩

-- The evaluator's own inputs are those that the circuit gets.
theorem encodeMany_ensures (ha : Authentic b value) (ys : List (b.Share × Bool))
    {T : Evaluator sw b} (hT : Ready T (ys.map (·.1) ++ ss) ks) :
    ((Evaluator.encodeMany (ys.map fun y => toU16 y.2) ys.length).run T).Ensures fun y =>
      y.1.map (·.authShare) = ys.map (·.1) ∧ y.1.map (carried value) = ys.map (·.2) ∧
      Ready y.2 ss ks := by
  have he := Evaluator.run_nextAuthShares (ys.map (·.1)) hT.shares
  rw [List.length_map] at he
  rw [Evaluator.encodeMany, if_neg (by simp)]
  simp only [StateT.run_bind, StateT.run_get, StateT.run_monadLift, monadLift_self, bind_assoc,
    Prog.pure_eq, Prog.pure_bind, he, hT.delta]
  refine .bind ha.openTheirShares ?_
  rintro _ rfl
  rw [List.map_map, List.zip_map', List.zip_map', List.mapM_map,
    run_mapM_pure (f := fun y => y.2 ^^ value y.1) _ ys]
  · simp only [Prog.pure_bind, List.forM_eq_forM, List.forM_map]
    refine .bind (.forM _ _ _) ?_
    rintro ⟨_, _⟩ rfl
    refine (receiveWirelabels_ensures _ _ _).mono ?_
    rintro ⟨ws, _⟩ ⟨hws, rfl⟩
    rw [List.zip_map'] at hws
    have hs := congrArg (List.map Prod.snd) hws
    have hc := congrArg (List.map fun x => x.1 ^^ value x.2) hws
    rw [List.map_map, List.map_map] at hs hc
    have hd := hT.drop_shares
    rw [hT.delta, List.length_map] at hd
    refine ⟨hs, hc.trans (List.map_congr_left fun y _ => ?_), hd⟩
    rw [Function.comp_apply, Bool.xor_assoc, Bool.xor_self, Bool.xor_false]
  · intro x S
    have hv : (x.2 ^^ b.bit x.1 ^^ (value x.1 ^^ b.bit x.1)) = (x.2 ^^ value x.1) := by
      simp only [Bool.xor_comm, Bool.xor_left_comm, Bool.xor_self, Bool.false_xor]
    simp only [Function.comp_apply, sw.ofU16_toU16, hv]
    rfl

theorem outputs_ensures (ha : Authentic b value) (ws : List (AuthenticatedWireMod2 b.Share))
    {T : Evaluator sw b} (hT : T.delta = b.delta) :
    ((Evaluator.outputs ws).run T).Ensures fun y =>
      y.1 = some (ws.map fun w => toU16 (carried value w)) := by
  rw [Evaluator.outputs]
  simp only [StateT.run_bind, StateT.run_get, StateT.run_monadLift, monadLift_self,
    bind_assoc, Prog.pure_eq, Prog.pure_bind, hT]
  refine .bind ha.openTheirShares ?_
  rintro _ rfl
  rw [List.map_map]
  nth_rewrite 2 [←List.map_id ws]
  rw [List.zip_map', List.map_map]
  refine .pure (congrArg some (List.map_congr_left fun w _ => congrArg toU16 ?_))
  simp only [Function.comp_apply, id_eq, carried, Bool.xor_comm, Bool.xor_left_comm, Bool.xor_self,
    Bool.false_xor]

end Garbling
