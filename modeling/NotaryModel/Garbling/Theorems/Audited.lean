import NotaryModel.Garbling.Audited
import NotaryModel.Garbling.Evaluator

open Circuit
open Circuit.FancyBinary (constant xor and)

-- A backend with a state that keeps more than another one and may give up.
structure GuardedBackend {I : Interface} {σ σ' Item Item' : Type} (e : I.Err) (π : σ' → σ)
    (g : Item' → Item) [Negating (StateT σ (Prog I)) Item] [Negating (StateT σ' (Prog I)) Item'] :
    Prop where
  constant (c : Bool) : GuardedT (I := I) e π g (constant c) (constant c)
  xor (x y : Item') : GuardedT (I := I) e π g (xor (g x) (g y)) (xor x y)
  and (x y : Item') : GuardedT (I := I) e π g (and (g x) (g y)) (and x y)
  negate (x : Item') : GuardedT (I := I) e π g (Negating.negate (g x)) (Negating.negate x)

theorem GuardedBackend.execute {I : Interface} {σ σ' Item Item' : Type} {e : I.Err} {π : σ' → σ}
    {g : Item' → Item} [Negating (StateT σ (Prog I)) Item] [Negating (StateT σ' (Prog I)) Item']
    (h : GuardedBackend e π g) (c : StraightLine s n) (ws : Vector Item' s) :
    GuardedT (I := I) e π (Vector.map g) (c.execute (ws.map g)) (c.execute ws) := by
  induction c
  case outputs outs =>
    have ho : outs.map (ws.map g).get = (outs.map ws.get).map g := by
      rw [Vector.map_map]
      exact Vector.map_congr_left fun i _ => Vector.get_map ..
    rw [StraightLine.execute, StraightLine.execute, ho]
    exact .pure _
  case constant c rest hi =>
    refine .bind (h.constant c) fun w => ?_
    rw [←Vector.map_push]
    exact hi _
  case negate x rest hi =>
    rw [StraightLine.execute, StraightLine.execute, Vector.get_map]
    refine .bind (h.negate _) fun w => ?_
    rw [←Vector.map_push]
    exact hi _
  case xor x y rest hi =>
    rw [StraightLine.execute, StraightLine.execute, Vector.get_map, Vector.get_map]
    refine .bind (h.xor _ _) fun w => ?_
    rw [←Vector.map_push]
    exact hi _
  case and x y rest hi =>
    rw [StraightLine.execute, StraightLine.execute, Vector.get_map, Vector.get_map]
    refine .bind (h.and _ _) fun w => ?_
    rw [←Vector.map_push]
    exact hi _

-- The evaluator over an audited library does what it does over the library itself, as far as the
-- audit lets it.
namespace Garbling

variable {L Q : Type} {A : Q → Type} {b : AuthBits (channel L A)} {dealt : Nat → Bool}
  {sw : Swanky}

theorem executeOn_guarded {σ σ' Item Item' : Type} {e : Notary.Err} {π : σ' → σ}
    {g : Item' → Item} [Negating (StateT σ (Prog (channel L A))) Item]
    [Negating (StateT σ' (Prog (channel L A))) Item']
    (h : GuardedBackend (I := channel L A) e π g) (c : StraightLine s n) (ws : List Item') :
    GuardedT (I := channel L A) e π (Vector.map g) (executeOn c.executor (ws.map g))
      (executeOn c.executor ws) := by
  by_cases hs : ws.length = s
  case pos =>
    have hm : (ws.map g).length = s := by rw [List.length_map, hs]
    have hv : (⟨(ws.map g).toArray, hm⟩ : Vector Item s) = Vector.map g ⟨ws.toArray, hs⟩ := by
      simp
    rw [Garbling.executeOn, Garbling.executeOn, dif_pos hs, dif_pos hm, hv]
    exact h.execute c _
  case neg =>
    rw [Garbling.executeOn, Garbling.executeOn, dif_neg hs, dif_neg (by rwa [List.length_map])]
    exact .lift .fail

theorem index_guarded (xs : List b.Dealt) (i : Nat) : Guarded (I := channel L A) AuthBits.forged
    Prod.fst (index (xs.map (·.1)) i) (index xs i) := by
  rw [index, index, List.getElem?_map]
  cases xs[i]?
  case none   => exact .fail
  case some x => exact .pure

-- What is left of a wire and of the states without the audit.

def PreProcessedWire.strip (w : PreProcessedWire b.Dealt) : PreProcessedWire b.Share :=
  ⟨w.authShare.1⟩

def AuthenticatedWireMod2.strip (w : AuthenticatedWireMod2 b.Dealt) :
    AuthenticatedWireMod2 b.Share :=
  ⟨w.maskedValue, w.wireLabel, w.authShare.1⟩

def WirePreProcessor.strip (P : WirePreProcessor (b.audited dealt)) : WirePreProcessor b where
  authShares         := P.authShares.map (·.1)
  authSharesIndex    := P.authSharesIndex
  andGateLeftInputs  := P.andGateLeftInputs.map (·.1)
  andGateRightInputs := P.andGateRightInputs.map (·.1)
  delta              := P.delta

def Evaluator.strip (T : Evaluator sw (b.audited dealt)) : Evaluator sw b where
  delta              := T.delta
  one                := T.one
  andWireIndex       := T.andWireIndex
  authShares         := T.authShares.map (·.1)
  authSharesIndex    := T.authSharesIndex
  andAuthShares      := T.andAuthShares.map (·.1)
  andAuthSharesIndex := T.andAuthSharesIndex

namespace WirePreProcessor

theorem nextAuthShare_guarded : GuardedT (I := channel L A) AuthBits.forged strip Prod.fst
    (nextAuthShare : PreM b _) (nextAuthShare : PreM (b.audited dealt) _) := by
  refine .bind .get fun P => .bind (.lift (index_guarded ..)) fun x => ?_
  exact .bind (.set { P with authSharesIndex := P.authSharesIndex + 1 }) fun _ => .pure x

theorem receiveMany_guarded (n : Nat) : GuardedT (I := channel L A) AuthBits.forged strip
    (List.map PreProcessedWire.strip) (receiveMany n : PreM b _)
    (receiveMany n : PreM (b.audited dealt) _) := by
  rw [receiveMany, receiveMany]
  exact .mapM_self (fun _ => .bind nextAuthShare_guarded fun x =>
    .pure (⟨x⟩ : PreProcessedWire b.Dealt)) _

theorem guarded : GuardedBackend (I := channel L A) AuthBits.forged
    (strip : WirePreProcessor (b.audited dealt) → _) PreProcessedWire.strip where
  constant _ := .bind .get fun P =>
    .pure (⟨(b.audited dealt).constantWithDelta false P.delta⟩ : PreProcessedWire b.Dealt)
  xor x y    :=
    .pure (⟨(b.audited dealt).xor x.authShare y.authShare⟩ : PreProcessedWire b.Dealt)
  and x y    := by
    refine .bind (.modify fun P => ?_) fun _ => .bind nextAuthShare_guarded fun z =>
      .pure (⟨z⟩ : PreProcessedWire b.Dealt)
    simp only [strip, List.map_append, List.map_cons, List.map_nil]
    rfl
  negate x   := .pure x

end WirePreProcessor

theorem map_fst_mapIdx (f : Nat → α → β) (xs : List α) :
    (xs.mapIdx fun i x => (x, f i x)).map Prod.fst = xs :=
  List.ext_getElem (by simp) fun _ _ _ => by simp

theorem preprocessCircuit_guarded (c : StraightLine s n) : Guarded (I := channel L A)
    AuthBits.forged (fun y => (y.1.map Prod.fst, y.2.map Prod.fst))
    (preprocessCircuit sw b c.executor) (preprocessCircuit sw (b.audited dealt) c.executor) := by
  unfold preprocessCircuit
  generalize sw.analyze c.executor = counts
  refine .bind (.refl _) fun ts => .bind (g := List.map Prod.fst) ?generate fun xs => ?_
  case generate => exact .of_map (map_fst_mapIdx _) _
  have he : GuardedT (I := channel L A) AuthBits.forged WirePreProcessor.strip
      (Vector.map PreProcessedWire.strip)
      (WirePreProcessor.receiveMany s >>= executeOn c.executor : PreM b _)
      (WirePreProcessor.receiveMany s >>= executeOn c.executor : PreM (b.audited dealt) _) :=
    .bind (WirePreProcessor.receiveMany_guarded s) (executeOn_guarded WirePreProcessor.guarded c)
  refine .bind (he (.new xs b.delta)) fun y => ?_
  refine .bind (g := List.map Prod.fst) ?products fun ks => .pure (a := (xs, ks))
  case products =>
    split
    case isTrue  => exact .of_map (map_fst_mapIdx _) _
    case isFalse => exact .pure (a := [])

namespace Evaluator

theorem newWithAndGenerator_guarded (c : StraightLine s n) : Guarded (I := channel L A)
    AuthBits.forged strip (newWithAndGenerator sw b c.executor)
    (newWithAndGenerator sw (b.audited dealt) c.executor) := by
  refine .bind (preprocessCircuit_guarded c) fun y => .bind (.refl _) fun one => ?_
  exact .pure (a := (⟨b.delta, one, 0, y.1, 0, y.2, 0⟩ : Evaluator sw (b.audited dealt)))

theorem nextAndWireIndex_guarded : GuardedT (I := channel L A) AuthBits.forged strip id
    (nextAndWireIndex : EvaluatorM sw b _) (nextAndWireIndex : EvaluatorM sw (b.audited dealt) _) := by
  refine .bind .get fun T => ?_
  exact .bind (.set { T with andWireIndex := T.andWireIndex + 1 }) fun _ => .pure _

theorem nextAuthShare_guarded : GuardedT (I := channel L A) AuthBits.forged strip Prod.fst
    (nextAuthShare : EvaluatorM sw b _) (nextAuthShare : EvaluatorM sw (b.audited dealt) _) := by
  refine .bind .get fun T => .bind (.lift (index_guarded ..)) fun x => ?_
  exact .bind (.set { T with authSharesIndex := T.authSharesIndex + 1 }) fun _ => .pure x

theorem nextAndAuthShare_guarded : GuardedT (I := channel L A) AuthBits.forged strip Prod.fst
    (nextAndAuthShare : EvaluatorM sw b _) (nextAndAuthShare : EvaluatorM sw (b.audited dealt) _) := by
  refine .bind .get fun T => .bind (.lift (index_guarded ..)) fun x => ?_
  exact .bind (.set { T with andAuthSharesIndex := T.andAuthSharesIndex + 1 }) fun _ => .pure x

theorem receiveWirelabels_guarded (ms : List Bool) (xs : List b.Dealt) :
    GuardedT (I := channel L A) AuthBits.forged strip (List.map AuthenticatedWireMod2.strip)
      (receiveWirelabels ms (xs.map (·.1)) : EvaluatorM sw b _)
      (receiveWirelabels ms xs : EvaluatorM sw (b.audited dealt) _) := by
  rw [receiveWirelabels, receiveWirelabels, List.zip_map_right]
  refine .mapM (fun x => ?_) _
  exact .bind (.lift (.refl _)) fun l => .pure (⟨x.1, l, x.2⟩ : AuthenticatedWireMod2 b.Dealt)

theorem and_guarded (x y : AuthenticatedWireMod2 b.Dealt) :
    GuardedT (I := channel L A) AuthBits.forged strip AuthenticatedWireMod2.strip
      (Evaluator.and x.strip y.strip : EvaluatorM sw b _)
      (Evaluator.and x y : EvaluatorM sw (b.audited dealt) _) := by
  refine .bind nextAndWireIndex_guarded fun γ => .bind nextAuthShare_guarded fun lc => ?_
  refine .bind nextAndAuthShare_guarded fun lt => .bind .get fun T => ?_
  refine .bind (.lift (.refl _)) fun gateC0 => .bind (.lift (.refl _)) fun gateC1 => ?_
  refine .bind (.lift (.refl _)) fun bitC => .bind (.lift (.refl _)) fun _ => ?_
  refine .bind (.lift (.check (· = _) _)) fun bits => .bind (.lift (.refl _)) fun c => ?_
  simp only [id_eq]
  split
  case isTrue  => exact .pure (⟨_, _, lc⟩ : AuthenticatedWireMod2 b.Dealt)
  case isFalse => exact .lift .fail

theorem guarded : GuardedBackend (I := channel L A) AuthBits.forged
    (strip : Evaluator sw (b.audited dealt) → _) AuthenticatedWireMod2.strip where
  constant c := .bind .get fun T => .bind (.lift (.refl _)) fun l =>
    .pure (⟨c, l, (b.audited dealt).constantWithDelta false T.delta⟩ : AuthenticatedWireMod2 b.Dealt)
  xor x y    := .pure (⟨x.maskedValue ^^ y.maskedValue, x.wireLabel ^^^ y.wireLabel,
    (b.audited dealt).xor x.authShare y.authShare⟩ : AuthenticatedWireMod2 b.Dealt)
  and        := and_guarded
  negate x   := .bind .get fun T => .pure
    (⟨x.maskedValue ^^ true, x.wireLabel ^^^ T.one, x.authShare⟩ : AuthenticatedWireMod2 b.Dealt)

theorem nextAuthShares_guarded (n : Nat) : GuardedT (I := channel L A) AuthBits.forged strip
    (List.map Prod.fst)
    ((List.replicate n ()).mapM fun _ => (nextAuthShare : EvaluatorM sw b _))
    ((List.replicate n ()).mapM fun _ => (nextAuthShare : EvaluatorM sw (b.audited dealt) _)) :=
  .mapM_self (fun _ => nextAuthShare_guarded) _

theorem receiveMany_guarded (n : Nat) : GuardedT (I := channel L A) AuthBits.forged strip
    (List.map AuthenticatedWireMod2.strip) (receiveMany n : EvaluatorM sw b _)
    (receiveMany n : EvaluatorM sw (b.audited dealt) _) := by
  refine .bind (nextAuthShares_guarded n) fun xs => .bind (.lift (.refl _)) fun _ => ?_
  refine .bind (g := List.map id) (.mapM_self (fun _ => .lift (.refl _)) _) fun ms => ?_
  rw [List.map_id]
  exact receiveWirelabels_guarded ms xs

theorem encodeMany_guarded (values : List UInt16) (n : Nat) :
    GuardedT (I := channel L A) AuthBits.forged strip (List.map AuthenticatedWireMod2.strip)
      (encodeMany values n : EvaluatorM sw b _)
      (encodeMany values n : EvaluatorM sw (b.audited dealt) _) := by
  unfold encodeMany
  split
  case isTrue => exact fun _ => .fail
  case isFalse =>
    refine .bind (nextAuthShares_guarded n) fun xs => .bind .get fun T => ?_
    refine .bind (.lift (.check (· = _) _)) fun bits => ?_
    rw [List.zip_map_left, List.zip_map_right]
    refine .bind (g := List.map id) (.mapM (fun x => ?_) _) fun ms => ?_
    · simp only [Prod.map_snd, Prod.map_fst, id_eq]
      cases sw.ofU16 x.2.2
      case none       => exact .lift .fail
      case some value => exact .pure (g := id) (value ^^ b.bit x.2.1.1 ^^ x.1)
    · rw [List.map_id]
      exact .bind (.forM (fun _ => .lift (.refl _)) _) fun _ => receiveWirelabels_guarded ms xs

theorem outputs_guarded (ws : List (AuthenticatedWireMod2 b.Dealt)) :
    GuardedT (I := channel L A) AuthBits.forged strip id
      (outputs (ws.map .strip) : EvaluatorM sw b _)
      (outputs ws : EvaluatorM sw (b.audited dealt) _) := by
  unfold outputs
  have hm : (ws.map AuthenticatedWireMod2.strip).map (·.authShare) =
      (ws.map (·.authShare)).map Prod.fst := by
    rw [List.map_map, List.map_map]
    rfl
  rw [hm]
  refine .bind .get fun T => .bind (.lift (.check (· = _) _)) fun masks => ?_
  rw [List.zip_map_right, List.map_map]
  exact .pure _

end Evaluator

end Garbling
