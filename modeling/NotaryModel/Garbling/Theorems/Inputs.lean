import NotaryModel.Garbling.Theorems.Circuits

open Circuit Exchange

-- A loop that acts on the channel against a loop over the same list.
namespace Exchange.Scheduled

variable {I : Interface} {F : Functionality I} {σ τ : Type}

theorem forM_mapM {p : ι → Prog I Unit} {q : ι → StateT τ (Prog I) β} {f : ι → β}
    (h : ∀ x T, Scheduled F (p x) ((q x).run T) fun _ y => y = (f x, T)) (xs : List ι) (S : σ)
    (T : τ) : Scheduled F ((forM xs fun x => (p x : StateT σ (Prog I) Unit)).run S)
      ((xs.mapM q).run T) fun x y => x.2 = S ∧ y = (xs.map f, T) := by
  induction xs
  case nil          => exact .pure ⟨rfl, rfl⟩
  case cons x xs hi =>
    rw [List.mapM_cons]
    simp only [List.forM_cons, StateT.run_bind, StateT.run_monadLift, monadLift_self, bind_assoc,
      Prog.pure_eq, Prog.pure_bind]
    refine .bind (h x T) ?_
    rintro _ _ rfl
    rw [←Prog.bind_pure (StateT.run (forM xs _) S)]
    refine .bind hi ?_
    rintro x _ ⟨hs, rfl⟩
    exact .pure ⟨hs, rfl⟩

theorem mapM_forM {p : ι → StateT σ (Prog I) β} {q : ι → Prog I Unit} {f : ι → β}
    (h : ∀ x S, Scheduled F ((p x).run S) (q x) fun y _ => y = (f x, S)) (xs : List ι) (S : σ)
    (T : τ) : Scheduled F ((xs.mapM p).run S)
      ((forM xs fun x => (q x : StateT τ (Prog I) Unit)).run T)
      fun x y => x = (xs.map f, S) ∧ y.2 = T := by
  induction xs
  case nil          => exact .pure ⟨rfl, rfl⟩
  case cons x xs hi =>
    rw [List.mapM_cons]
    simp only [List.forM_cons, StateT.run_bind, StateT.run_monadLift, monadLift_self, bind_assoc,
      Prog.pure_eq, Prog.pure_bind]
    refine .bind (h x S) ?_
    rintro _ _ rfl
    rw [←Prog.bind_pure (StateT.run (forM xs _) T)]
    refine .bind hi ?_
    rintro _ y ⟨rfl, hs⟩
    exact .pure ⟨rfl, hs⟩

theorem run' {p : StateT σ (Prog I) α} {q : StateT τ (Prog I) β} {Φ : α → β → Prop}
    (h : Scheduled F (p.run S) (q.run T) fun x y => Φ x.1 y.1) :
    Scheduled F (p.run' S) (q.run' T) Φ := by
  rw [StateT.run'_eq, StateT.run'_eq, map_eq_pure_bind, map_eq_pure_bind]
  exact h.bind fun _ _ h => .pure h

end Exchange.Scheduled

namespace Garbling

variable {L Q : Type} {A : Q → Type} {gb ev : AuthBits (channel L A)}
  {Paired : gb.Share → ev.Share → Prop} {F : Functionality (channel L A)} {sw : Swanky}
  {PairedTriples : gb.Triple → ev.Triple → Prop}

-- Shares are taken from the front.

theorem Preprocesses.receiveMany {b : AuthBits (channel L A)} (xs : List b.Share) :
    Preprocesses b (WirePreProcessor.receiveMany xs.length) xs [] [] (xs.map .mk) := by
  rw [WirePreProcessor.receiveMany]
  induction xs
  case nil          => exact .pure
  case cons x xs hi =>
    rw [List.length_cons, List.replicate_succ, List.mapM_cons]
    exact .bind (.map .nextAuthShare PreProcessedWire.mk) (.map hi fun ys => ⟨x⟩ :: ys)

theorem Garbler.run_nextAuthShares {S : Garbler sw gb} (xs : List gb.Share)
    (h : S.authShares.drop S.authSharesIndex = xs ++ rest) :
    ((List.replicate xs.length ()).mapM fun _ => nextAuthShare).run S =
    .pure (xs, { S with authSharesIndex := S.authSharesIndex + xs.length }) := by
  induction xs generalizing S
  case nil          => rfl
  case cons x xs hi =>
    let S' : Garbler sw gb := { S with authSharesIndex := S.authSharesIndex + 1 }
    have hn : nextAuthShare.run S = .pure (x, S') := run_nextAuthShare h
    have hi := hi (S := S') (drop_succ h)
    rw [List.length_cons, List.replicate_succ, List.mapM_cons]
    simp only [StateT.run_bind, hn, hi, Prog.pure_bind, StateT.run_pure]
    simp [S', Nat.add_assoc, Nat.add_comm 1]

theorem Evaluator.run_nextAuthShares {T : Evaluator sw ev} (xs : List ev.Share)
    (h : T.authShares.drop T.authSharesIndex = xs ++ rest) :
    ((List.replicate xs.length ()).mapM fun _ => nextAuthShare).run T =
    .pure (xs, { T with authSharesIndex := T.authSharesIndex + xs.length }) := by
  induction xs generalizing T
  case nil          => rfl
  case cons x xs hi =>
    let T' : Evaluator sw ev := { T with authSharesIndex := T.authSharesIndex + 1 }
    have hn : nextAuthShare.run T = .pure (x, T') := run_nextAuthShare h
    have hi := hi (T := T') (drop_succ h)
    rw [List.length_cons, List.replicate_succ, List.mapM_cons]
    simp only [StateT.run_bind, hn, hi, Prog.pure_bind, StateT.run_pure]
    simp [T', Nat.add_assoc, Nat.add_comm 1]

-- An input wire: its mask, its value and the label of the masked value zero.
structure InputWire (gb ev : AuthBits (channel L A)) (Paired : gb.Share → ev.Share → Prop) where
  mask  : SharePair gb ev Paired
  bit   : Bool
  label : Block

namespace InputWire

def masked (w : InputWire gb ev Paired) : Bool :=
  w.bit ^^ w.mask.value

def garbler (w : InputWire gb ev Paired) : AuthenticatedWireMod2 gb.Share :=
  ⟨w.masked, w.label, w.mask.garbler⟩

def evaluator (w : InputWire gb ev Paired) : AuthenticatedWireMod2 ev.Share :=
  ⟨w.masked, w.label ^^^ scale w.masked gb.delta, w.mask.evaluator⟩

theorem garbled (w : InputWire gb ev Paired) :
    Garbled Paired ⟨w.mask.garbler⟩ ⟨w.mask.evaluator⟩ w.garbler w.evaluator w.bit := by
  have h := Garbled.mk w.mask w.masked w.label
  have hb : (w.masked ^^ w.mask.value) = w.bit := by
    rw [masked, Bool.xor_assoc, Bool.xor_self, Bool.xor_false]
  rwa [hb] at h

end InputWire

-- The labels of input wires are drawn by the garbler.
theorem Garbler.run_rands (sb : List (SharePair gb ev Paired × Bool)) (S : Garbler sw gb) :
    ∃ (ws : List (InputWire gb ev Paired)) (rng : Stream' Block),
      ws.map (fun w => (w.mask, w.bit)) = sb ∧
      ((sb.map fun x => x.2 ^^ x.1.value).mapM fun _ => rand).run S =
        .pure (ws.map (·.label), { S with rng }) := by
  induction sb generalizing S
  case nil           => exact ⟨[], S.rng, rfl, rfl⟩
  case cons x sb hi =>
    obtain ⟨ws, rng, hw, hr⟩ := hi { S with rng := S.rng.tail }
    refine ⟨⟨x.1, x.2, S.rng.head⟩ :: ws, rng, by simp [hw], ?_⟩
    have hs : rand.run S = .pure (S.rng.head, { S with rng := S.rng.tail }) := rfl
    rw [List.map_cons, List.mapM_cons, StateT.run_bind, hs, Prog.pure_bind, StateT.run_bind, hr]
    rfl

theorem encodeWirelabels_receiveWirelabels {S : Garbler sw gb} {T : Evaluator sw ev}
    (hS : S.delta = gb.delta) (sb : List (SharePair gb ev Paired × Bool)) :
    Scheduled F
      ((Garbler.encodeWirelabels (sb.map fun x => x.2 ^^ x.1.value)
        (sb.map (·.1.garbler))).run S)
      ((Evaluator.receiveWirelabels (sb.map fun x => x.2 ^^ x.1.value)
        (sb.map (·.1.evaluator))).run T)
      fun x y => ∃ (ws : List (InputWire gb ev Paired)) (rng : Stream' Block),
        ws.map (fun w => (w.mask, w.bit)) = sb ∧
        x = (ws.map (·.garbler), { S with rng }) ∧ y = (ws.map (·.evaluator), T) := by
  obtain ⟨ws, rng, rfl, hr⟩ := Garbler.run_rands sb S
  rw [Garbler.encodeWirelabels, Evaluator.receiveWirelabels, StateT.run_bind, hr]
  simp only [Prog.pure_bind, StateT.run_bind, StateT.run_get, Prog.pure_eq, List.map_map,
    List.zip_map', List.mapM_map, List.forM_eq_forM, List.forM_map]
  rw [←Prog.bind_pure (StateT.run (List.mapM _ ws) T)]
  refine .bind (.forM_mapM (f := (·.evaluator)) (fun w T => ?_) ws _ T) ?_
  · simp only [Function.comp_apply, hS, StateT.run_bind, StateT.run_monadLift, monadLift_self,
      bind_assoc, Prog.pure_eq, Prog.pure_bind]
    rw [←Prog.bind_pure (writeBlock ..)]
    refine .bind writeBlock_readBlock ?_
    rintro _ _ rfl
    exact .pure rfl
  · rintro ⟨_, _⟩ _ ⟨rfl, rfl⟩
    exact .pure ⟨ws, rng, rfl, rfl, rfl⟩

-- The inputs `sb` are shared out: both parties hold the items of wires for them.
def Encoded (sb : List (SharePair gb ev Paired × Bool)) (ss ks : List (SharePair gb ev Paired))
    (x : List (AuthenticatedWireMod2 gb.Share) × Garbler sw gb)
    (y : List (AuthenticatedWireMod2 ev.Share) × Evaluator sw ev) : Prop :=
  ∃ ws : List (InputWire gb ev Paired), ws.map (fun w => (w.mask, w.bit)) = sb ∧
    x.1 = ws.map (·.garbler) ∧ y.1 = ws.map (·.evaluator) ∧ Sync x.2 y.2 ss ks

theorem Sync.drop_shares {ss ss' ks : List (SharePair gb ev Paired)} {S : Garbler sw gb}
    {T : Evaluator sw ev} (hs : Sync S T (ss ++ ss') ks) :
    Sync ({ S with authSharesIndex := S.authSharesIndex + ss.length } : Garbler sw gb)
      ({ T with authSharesIndex := T.authSharesIndex + ss.length } : Evaluator sw ev) ss' ks := {
  hs with
  garblerShares   := by
    rw [←List.drop_drop, hs.garblerShares, List.map_append, List.drop_left' (by simp)]
  evaluatorShares := by
    rw [←List.drop_drop, hs.evaluatorShares, List.map_append, List.drop_left' (by simp)]
}

theorem encodeWirelabels_encoded {S : Garbler sw gb} {T : Evaluator sw ev}
    (sb : List (SharePair gb ev Paired × Bool)) (hs : Sync S T ss' ks) : Scheduled F
      ((Garbler.encodeWirelabels (sb.map fun x => x.2 ^^ x.1.value)
        (sb.map (·.1.garbler))).run S)
      ((Evaluator.receiveWirelabels (sb.map fun x => x.2 ^^ x.1.value)
        (sb.map (·.1.evaluator))).run T) (Encoded sb ss' ks) := by
  refine (encodeWirelabels_receiveWirelabels hs.garblerDelta sb).mono ?_
  rintro _ _ ⟨ws, rng, hw, rfl, rfl⟩
  exact ⟨ws, hw, rfl, rfl, { hs with }⟩

theorem run_mapM_pure {q : ι → StateT σ (Prog (channel L A)) β} {f : ι → β}
    (h : ∀ x S, (q x).run S = .pure (f x, S)) (xs : List ι) (S : σ) :
    (xs.mapM q).run S = .pure (xs.map f, S) := by
  induction xs
  case nil          => rfl
  case cons x xs hi =>
    rw [List.mapM_cons, StateT.run_bind, h, Prog.pure_bind, StateT.run_bind, hi]
    rfl

theorem encodeMany_receiveMany (hl : Lawful sw F gb ev Paired PairedTriples) {S : Garbler sw gb}
    {T : Evaluator sw ev} (sb : List (SharePair gb ev Paired × Bool))
    (hs : Sync S T (sb.map (·.1) ++ ss') ks) : Scheduled F
      ((Garbler.encodeMany (sb.map fun x => toU16 x.2) sb.length).run S)
      ((Evaluator.receiveMany sb.length).run T) (Encoded sb ss' ks) := by
  have hg := Garbler.run_nextAuthShares (S := S) (sb.map (·.1.garbler))
    (by simpa [Function.comp_def] using hs.garblerShares)
  have he := Evaluator.run_nextAuthShares (T := T) (sb.map (·.1.evaluator))
    (by simpa [Function.comp_def] using hs.evaluatorShares)
  rw [List.length_map] at hg he
  rw [Garbler.encodeMany, Evaluator.receiveMany, if_neg (by simp)]
  simp only [List.length_map, StateT.run_bind, StateT.run_get, StateT.run_monadLift, monadLift_self,
    bind_assoc, Prog.pure_eq, Prog.pure_bind, hg, he]
  have ho := hl.openEvaluator (sb.map (·.1))
  rw [List.map_map, List.map_map, ←hs.garblerDelta] at ho
  refine .bind ho ?_
  rintro _ _ rfl
  rw [List.map_map, List.zip_map', List.zip_map', List.mapM_map,
    run_mapM_pure (f := fun x => x.2 ^^ x.1.value) _ sb, ←List.map_const' (l := sb), List.mapM_map]
  · simp only [Prog.pure_bind, List.forM_eq_forM, List.forM_map]
    refine .bind (.forM_mapM (f := fun x => x.2 ^^ x.1.value) (fun x T => ?_) sb _ _) ?_
    · simp only [Function.comp_apply, StateT.run_monadLift, monadLift_self]
      rw [←Prog.bind_pure (writeF2 ..)]
      exact .bind writeF2_readF2 fun _ _ hb => .pure (by rw [hb])
    · rintro ⟨_, _⟩ _ ⟨rfl, rfl⟩
      have hd := Sync.drop_shares hs
      rw [List.length_map] at hd
      exact encodeWirelabels_encoded sb hd
  · intro x S
    have hv : (ev.bit x.1.evaluator ^^ gb.bit x.1.garbler ^^ x.2) = (x.2 ^^ x.1.value) := by
      simp only [SharePair.value, Bool.xor_comm]
    simp only [Function.comp_apply, sw.ofU16_toU16, hv]
    rfl

theorem receiveMany_encodeMany (hl : Lawful sw F gb ev Paired PairedTriples) {S : Garbler sw gb}
    {T : Evaluator sw ev} (sb : List (SharePair gb ev Paired × Bool))
    (hs : Sync S T (sb.map (·.1) ++ ss') ks) : Scheduled F
      ((Garbler.receiveMany sb.length).run S)
      ((Evaluator.encodeMany (sb.map fun x => toU16 x.2) sb.length).run T) (Encoded sb ss' ks) := by
  have hg := Garbler.run_nextAuthShares (S := S) (sb.map (·.1.garbler))
    (by simpa [Function.comp_def] using hs.garblerShares)
  have he := Evaluator.run_nextAuthShares (T := T) (sb.map (·.1.evaluator))
    (by simpa [Function.comp_def] using hs.evaluatorShares)
  rw [List.length_map] at hg he
  rw [Garbler.receiveMany, Evaluator.encodeMany, if_neg (by simp)]
  simp only [StateT.run_bind, StateT.run_get, StateT.run_monadLift, monadLift_self,
    bind_assoc, Prog.pure_eq, Prog.pure_bind, hg, he]
  have ho := hl.openGarbler (sb.map (·.1))
  rw [List.map_map, List.map_map, ←hs.evaluatorDelta] at ho
  refine .bind ho ?_
  rintro _ _ rfl
  rw [List.map_map, List.zip_map', List.zip_map', List.mapM_map,
    run_mapM_pure (f := fun x => x.2 ^^ x.1.value) _ sb, ←List.map_const' (l := sb), List.mapM_map]
  · simp only [Prog.pure_bind, List.forM_eq_forM, List.forM_map]
    refine .bind (.mapM_forM (f := fun x => x.2 ^^ x.1.value) (fun x T => ?_) sb _ _) ?_
    · simp only [Function.comp_apply, StateT.run_monadLift, monadLift_self]
      rw [←Prog.bind_pure (writeF2 ..)]
      exact .bind readF2_writeF2 fun _ _ hb => .pure (by rw [hb])
    · rintro _ ⟨_, _⟩ ⟨rfl, rfl⟩
      have hd := Sync.drop_shares hs
      rw [List.length_map] at hd
      exact encodeWirelabels_encoded sb hd
  · intro x S
    have hv : (x.2 ^^ ev.bit x.1.evaluator ^^ gb.bit x.1.garbler) = (x.2 ^^ x.1.value) := by
      simp only [SharePair.value, Bool.xor_comm, Bool.xor_left_comm]
    simp only [Function.comp_apply, sw.ofU16_toU16, hv]
    rfl

-- The evaluator gets the values of the wires that both parties open.
theorem outputs_outputs (hl : Lawful sw F gb ev Paired PairedTriples) {S : Garbler sw gb}
    {T : Evaluator sw ev} (ws : List (InputWire gb ev Paired)) (hs : Sync S T ss ks) : Scheduled F
      ((Garbler.outputs (ws.map (·.garbler))).run S)
      ((Evaluator.outputs (ws.map (·.evaluator))).run T)
      fun x y => x.1 = none ∧ y.1 = some (ws.map fun w => toU16 w.bit) := by
  rw [Garbler.outputs, Evaluator.outputs]
  simp only [StateT.run_bind, StateT.run_get, StateT.run_monadLift, monadLift_self,
    bind_assoc, Prog.pure_eq, Prog.pure_bind, List.map_map]
  have ho := hl.openGarbler (ws.map (·.mask))
  rw [List.map_map, List.map_map, ←hs.evaluatorDelta] at ho
  refine .bind ho ?_
  rintro _ _ rfl
  refine .pure ⟨rfl, ?_⟩
  rw [List.map_map, List.zip_map', List.map_map]
  refine congrArg some (List.map_congr_left fun w _ => ?_)
  have hv : (gb.bit w.mask.garbler ^^ w.masked ^^ ev.bit w.mask.evaluator) = w.bit := by
    rw [Bool.xor_comm, ←Bool.xor_assoc, Bool.xor_comm (ev.bit _), ←SharePair.value,
      InputWire.masked, Bool.xor_comm, Bool.xor_assoc, Bool.xor_self, Bool.xor_false]
  exact congrArg toU16 hv

end Garbling
