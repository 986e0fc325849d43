import NotaryModel.Notary.Theorems.AesOrder
import NotaryModel.Notary.Theorems.Hkdf
import NotaryModel.Notary.Theorems.Wrk17

open Circuit Garbling
open Exchange (Scheduled)

namespace Notary.Wrk17

variable {L Q : Type} {A : Q → Type} {gb ev : AuthBits (channel L A)}
  {Paired : gb.Share → ev.Share → Prop} {F : Functionality (channel L A)} {sw : Swanky}
  {PairedTriples : gb.Triple → ev.Triple → Prop}

theorem toList_foldlM {M : Type → Type} [Monad M] [LawfulMonad M] (x : Vector ι n) (f : β → ι → M β)
    (b : β) : x.toList.foldlM f b = (List.finRange n).foldlM (fun b i => f b (x.get i)) b := by
  have h : x.toList = (List.finRange n).map x.get := by
    refine List.ext_getElem (by simp) fun i _ _ => ?_
    simp
    rfl
  rw [h, List.foldlM_map]

-- The product and the shifted factor in the middle of a multiplication.
def MulGarbled (Paired : gb.Share → ev.Share → Prop)
    (s : Vector (PreProcessedWire gb.Share) 128 × Vector (PreProcessedWire gb.Share) 128)
    (s' : Vector (PreProcessedWire ev.Share) 128 × Vector (PreProcessedWire ev.Share) 128)
    (t : Vector (AuthenticatedWireMod2 gb.Share) 128 × Vector (AuthenticatedWireMod2 gb.Share) 128)
    (t' : Vector (AuthenticatedWireMod2 ev.Share) 128 × Vector (AuthenticatedWireMod2 ev.Share) 128)
    (v : Vector Bool 128 × Vector Bool 128) : Prop :=
  AllGarbled Paired s.1 s'.1 t.1 t'.1 v.1 ∧ AllGarbled Paired s.2 s'.2 t.2 t'.2 v.2

open Plain

theorem ghashMul_round_garbles (hl : Lawful sw F gb ev Paired PairedTriples)
    (hz : Garbled Paired z₁ z₂ z₃ z₄ zero) (hs : MulGarbled Paired s s' t t' v)
    (hx : Garbled Paired x₁ x₂ x₃ x₄ b) :
    Garbles F Paired 128 (GhashMulCircuit.round z₁ s x₁) (GhashMulCircuit.round z₂ s' x₂)
      (GhashMulCircuit.round z₃ t x₃ : GarblerM sw gb _)
      (GhashMulCircuit.round z₄ t' x₄ : EvaluatorM sw ev _)
      (GhashMulCircuit.round (M := Id) zero v b).run (MulGarbled Paired) := by
  obtain ⟨hp, hf⟩ := hs
  let shifted : Vector Bool 128 := .ofFn fun j => if j.val = 0 then zero else v.2[j.val - 1]
  let rs : List (Fin 128) := [0, 1, 2, 7]
  let reduced := rs.foldl (fun w r => w.set r (w.get r ^^ v.2[127])) shifted
  have hv : (GhashMulCircuit.round (M := Id) zero v b).run =
      (.ofFn fun j : Fin 128 => v.1[j.val] ^^ (b && v.2[j.val]), reduced) := by
    simp only [GhashMulCircuit.round, Id.run_bind, Vector.idRun_ofFnM, List.idRun_foldlM,
      Id.run_pure, FancyBinary.run_xor, FancyBinary.run_and, reduced, shifted, rs]
  rw [hv]
  refine .of_eq (n := 128 * (1 + 0) + (rs.length * 0 + 0)) ?_ rfl
  refine .bind (f := fun z => (z, reduced)) (.ofFnM fun j => .bind (f := fun xv => v.1[j.val] ^^ xv)
    (.and hl hx (hf j j.isLt)) fun _ _ _ _ _ h => .xor hl (hp j j.isLt) h) fun _ _ _ _ z hp => ?_
  refine .bind (f := fun w => (z, w)) (.foldlM (Φ := AllGarbled Paired) ?_ ?_)
    fun _ _ _ _ _ hf => .pure ⟨hp, hf⟩
  case refine_1 =>
    intro _ _ _ _ w r hw
    exact .map (f := fun b => w.set r b) (.xor hl (hw r r.isLt) (hf 127 (by decide)))
      fun _ _ _ _ _ h => hw.set h r.isLt
  case refine_2 =>
    intro i hi
    simp only [Vector.getElem_ofFn, shifted]
    split
    case isTrue  => exact hz
    case isFalse => exact hf _ _

theorem ghashMul_garbles (hl : Lawful sw F gb ev Paired PairedTriples)
    (hx : AllGarbled Paired xs xs' xt xt' x) (hy : AllGarbled Paired ys ys' yt yt' y) :
    Garbles F Paired (128 * 128) (GhashMulCircuit.executeOn xs ys)
      (GhashMulCircuit.executeOn xs' ys')
      (GhashMulCircuit.executeOn xt yt : GarblerM sw gb _)
      (GhashMulCircuit.executeOn xt' yt' : EvaluatorM sw ev _)
      (GhashMulCircuit.executeOn (M := Id) x y).run (AllGarbled Paired) := by
  let run (zero : Bool) := (List.finRange 128).foldl
    (fun s i => (GhashMulCircuit.round (M := Id) zero s (x.get i)).run) (.replicate 128 zero, y)
  have hv : (GhashMulCircuit.executeOn (M := Id) x y).run = (run false).1 := by
    simp only [GhashMulCircuit.executeOn, toList_foldlM, Id.run_bind, List.idRun_foldlM,
      Id.run_pure, FancyBinary.run_constant, run]
  rw [hv]
  unfold GhashMulCircuit.executeOn
  simp only [toList_foldlM]
  refine .of_eq (n := 0 + ((List.finRange 128).length * 128 + 0)) ?_ (by simp)
  refine .bind (f := fun zero => (run zero).1) (.constant hl false) fun _ _ _ _ zero hz => ?_
  refine .bind (f := fun s : Vector Bool 128 × Vector Bool 128 => s.1)
    (.foldlM (Φ := MulGarbled Paired) ?_ ?_) fun _ _ _ _ _ hs => .pure hs.left
  case refine_1 => exact fun _ _ _ _ _ i hs => ghashMul_round_garbles hl hz hs (hx i i.isLt)
  case refine_2 =>
    refine ⟨fun i hi => ?_, hy⟩
    simp only [Vector.getElem_replicate]
    exact hz

theorem ghashChain_garbles (hl : Lawful sw F gb ev Paired PairedTriples) (n : Nat) :
    GarblesCircuit (GhashChainCircuit n).executor (n * (128 * 128)) sw F Paired := by
  intro xs xs' ws ws' vs h
  let block (acc : Vector Bool 128) (j : Fin n) : Vector Bool 128 :=
    .ofFn fun i : Fin 128 => acc[i.val] ^^ vs[128 + j.val * 128 + i.val]
  let run (zero : Bool) := (List.finRange n).foldl (fun acc j =>
    (GhashMulCircuit.executeOn (M := Id) (block acc j) (.ofFn fun i => vs[i.val])).run)
    (.replicate 128 zero)
  have hv : (GhashChainCircuit n).executor.value vs = run false := by
    simp only [Executor.value, BinaryCircuit.executor, GhashChainCircuit, Id.run_bind,
      Vector.idRun_ofFnM, List.idRun_foldlM, FancyBinary.run_constant, FancyBinary.run_xor, run,
      block]
  rw [hv]
  refine .of_eq (n := 0 + (List.finRange n).length * (128 * 0 + 128 * 128)) ?_ (by simp)
  refine .bind (f := run) (.constant hl false) fun _ _ _ _ zero hz => ?_
  refine .foldlM (Φ := AllGarbled Paired) (fun _ _ _ _ acc j ha => ?_) fun i hi => ?_
  · refine .bind (f := fun x : Vector Bool 128 => (GhashMulCircuit.executeOn (M := Id) x _).run)
      (.ofFnM fun i => .xor hl (ha i i.isLt) (h (128 + j.val * 128 + i.val) (by omega)))
      fun _ _ _ _ _ hx => ghashMul_garbles hl hx fun i hi => ?_
    simp only [Vector.getElem_ofFn]
    exact h i (by omega)
  · simp only [Vector.getElem_replicate]
    exact hz

theorem computes_maskedRun_scheduled {inner : Executor (8 * (a + b)) (8 * n)} {xN xC : Arr a}
    {yN yC : Arr b} {mask : Arr n} (hf : Computes inner.value f)
    (hl : Lawful sw F gb ev Paired PairedTriples) (hc : GarblesCircuit inner k sw F Paired)
    (ha : sw.Counts (SplitSharedInputMaskCircuit inner) k) : Scheduled F
      (notaryMaskedRun sw gb inner (bytesToBits (xN.toList ++ yN.toList)) mask.toList rng)
      (clientMaskedRun sw ev inner (bytesToBits (xC.toList ++ yC.toList))) fun y vals =>
        y = mask.toList ∧
        bitsToBytes n (vals.map (· == 1)) = f (xN ^^^ xC) (yN ^^^ yC) ^^^ mask := by
  refine (Wrk17.maskedRun_scheduled hl hc ha (by simp) (bitsOf xN yN) (bitsOf xC yC) rng).mono ?_
  rintro _ vals ⟨rfl, hv⟩
  refine ⟨rfl, ?_⟩
  rw [hv, hf.zipWith, bitsToBytes_xor (by simp [length_bytesToBits]), bitsToBytes_bytesToBits]

theorem aesBlockWrk17_scheduled {c : Executor 256 128} {aes : Arr 16 → Arr 16 → Arr 16}
    (hf : Computes (a := 16) (b := 16) (n := 16) c.value fun block key => aes key block)
    (hl : Lawful sw F gb ev Paired PairedTriples) (hc : GarblesCircuit c k sw F Paired)
    (ha : sw.Counts (SplitSharedInputMaskCircuit c) k) : Scheduled F
      (notaryAesBlockWrk17 sw gb c blockN keyN mask rng) (clientAesBlockWrk17 sw ev c blockC keyC)
      fun y y' => y = mask ∧ y' = aes (keyN ^^^ keyC) (blockN ^^^ blockC) ^^^ mask := by
  unfold notaryAesBlockWrk17 clientAesBlockWrk17 wrk17NotaryMaskedRun wrk17ClientMaskedRun
  rw [←bytesToBits_append, ←bytesToBits_append, bind_assoc]
  refine .bind (computes_maskedRun_scheduled hf hl hc ha) ?_
  rintro _ vals ⟨rfl, hv⟩
  refine .pure ⟨Arr.ofBytes_toList _, ?_⟩
  rw [←hv, take_bitsToBytes (by decide)]
  exact Arr.ofBytes_toList _

theorem sha256CompressXor_scheduled {c : Executor 768 256}
    (hf : Computes (a := 32) (b := 64) (n := 32) c.value compress)
    (hl : Lawful sw F gb ev Paired PairedTriples) (hc : GarblesCircuit c k sw F Paired)
    (ha : sw.Counts (SplitSharedInputMaskCircuit c) k) : Scheduled F
      (notarySha256CompressXor sw gb c ivN blockN mask rng)
      (clientSha256CompressXor sw ev c ivC blockC) fun y y' =>
        y = mask ∧ y' = compress (ivN ^^^ ivC) (blockN ^^^ blockC) ^^^ mask := by
  unfold notarySha256CompressXor clientSha256CompressXor
  refine .bind (computes_maskedRun_scheduled hf hl hc ha) ?_
  rintro _ vals ⟨rfl, hv⟩
  exact .pure ⟨Arr.ofBytes_toList _, hv⟩

theorem ghashChainWrk17_scheduled {blocksN blocksC : List (Arr 16)}
    (hl : Lawful sw F gb ev Paired PairedTriples) (hn : blocksN.length = blocksC.length)
    (ha : sw.Counts (SplitSharedInputMaskCircuit (GhashChainCircuit blocksN.length).executor)
      (blocksN.length * (128 * 128))) : Scheduled F
      (notaryGhashChainWrk17 sw gb blocksN hN mask rng) (clientGhashChainWrk17 sw ev blocksC hC)
      fun y y' => y = mask ∧
        y' = ghashChainReference (hN ^^^ hC) (List.zipWith (· ^^^ ·) blocksN blocksC) ^^^ mask := by
  let sN : Vector Bool (128 + blocksN.length * 128) :=
    ⟨(chainBits blocksN hN).toArray, by simp [length_chainBits]⟩
  let sC : Vector Bool (128 + blocksN.length * 128) :=
    ⟨(chainBits blocksC hC).toArray, by simp [length_chainBits, hn]⟩
  have hs : (sN.zipWith xor sC).toList =
      chainBits (List.zipWith (· ^^^ ·) blocksN blocksC) (hN ^^^ hC) := by
    rw [Vector.toList_zipWith, ←chainBits_xor hn]
    rfl
  have hv : ((GhashChainCircuit blocksN.length).executor.value (sN.zipWith xor sC)).toList = _ :=
    GhashChainCircuit.value_eq (by simp [hn]) hs
  unfold notaryGhashChainWrk17 clientGhashChainWrk17 runNotaryGhashChain runClientGhashChain
  rw [←hn, bind_assoc]
  refine .bind (maskedRun_scheduled hl (ghashChain_garbles hl _) ha (by simp) sN sC rng) ?_
  rintro _ vals ⟨rfl, ho⟩
  refine .pure ⟨Arr.ofBytes_toList _, ?_⟩
  rw [Arr.ofBytes_toList, ho, hv]
  exact (bitsToBytes_xor (by simp [length_bytesToBits])).trans (by rw [bitsToBytes_bytesToBits])

theorem ghashMul_counted (xs ys : Vector Unit 128) :
    Dealer.Counted (128 * 128) (GhashMulCircuit.executeOn (M := StateM Nat) xs ys) := by
  refine .of_eq (k := 0 + (xs.toList.length * (128 * (1 + 0) + (4 * (0 + 0) + 0)) + 0)) ?_ (by simp)
  refine Dealer.Counted.constant.bind fun _ => (Dealer.Counted.foldlM (fun _ _ => ?_) _ _).bind
    fun _ => .pure
  exact (Dealer.Counted.ofFnM fun _ => Dealer.Counted.and.bind fun _ => .xor).bind fun _ =>
    (Dealer.Counted.foldlM (fun _ _ => Dealer.Counted.xor.bind fun _ => .pure) [0, 1, 2, 7] _).bind
      fun _ => .pure

theorem ghashChain_counted (n : Nat) (ws : Vector Unit (128 + n * 128)) : Dealer.Counted
    (n * (128 * 128)) ((GhashChainCircuit n).executor.execute (M := StateM Nat) ws) := by
  refine .of_eq (k := 0 + (List.finRange n).length * (128 * 0 + 128 * 128)) ?_ (by simp)
  refine Dealer.Counted.constant.bind fun _ => .foldlM (fun _ _ => ?_) _ _
  exact (Dealer.Counted.ofFnM fun _ => .xor).bind fun _ => ghashMul_counted _ _

-- Two circuits, for AES and for the compression function of SHA-256, and an analysis that counts
-- the gates of all circuits that are run.
structure Suitable (sw : Swanky) (aesCircuit : StraightLine 256 128)
    (compressCircuit : StraightLine 768 256) (aes : Arr 16 → Arr 16 → Arr 16)
    (compress : Arr 32 → Arr 64 → Arr 32) : Prop where
  aes : Computes (a := 16) (b := 16) (n := 16) aesCircuit.executor.value fun block key => aes key block
  compress : Computes (a := 32) (b := 64) (n := 32) compressCircuit.executor.value compress
  countsAes : sw.Counts (SplitSharedInputMaskCircuit aesCircuit.executor) aesCircuit.nands
  countsCompress :
    sw.Counts (SplitSharedInputMaskCircuit compressCircuit.executor) compressCircuit.nands
  countsGhash (n : Nat) :
    sw.Counts (SplitSharedInputMaskCircuit (GhashChainCircuit n).executor) (n * (128 * 128))

section

variable {aes : Arr 16 → Arr 16 → Arr 16} {compress : Arr 32 → Arr 64 → Arr 32}
  {aesCircuit : StraightLine 256 128} {compressCircuit : StraightLine 768 256}
  {notaryInit clientInit : Prog (channel L A) Unit} {label : Label → L}

theorem sessions_realize (hl : Lawful sw F gb ev Paired PairedTriples)
    (hc : Suitable sw aesCircuit compressCircuit aes compress)
    (hi : Scheduled F notaryInit clientInit fun _ _ => True) (masks : Masks wrk17)
    (rng : Nat → Stream' Block) :
    (sessions sw gb ev aesCircuit.executor compressCircuit.executor label notaryInit clientInit
      masks rng).Realizes (circuits aes compress) masks F := by
  intro i q q' y hr
  cases q <;> cases q'
  case otInit.otInit => exact hi.mono fun _ _ _ => ⟨rfl, rfl⟩
  case aes.aes =>
    cases hr
    exact aesBlockWrk17_scheduled hc.aes hl (garblesCircuit_straightLine hl _) hc.countsAes
  case ghash.ghash blocks h blocks' h' =>
    simp only [circuits, Option.ite_none_right_eq_some, Option.some.injEq] at hr
    obtain ⟨hn, rfl⟩ := hr
    exact ghashChainWrk17_scheduled hl hn (hc.countsGhash _)
  case compress.compress =>
    cases hr
    exact sha256CompressXor_scheduled hc.compress hl (garblesCircuit_straightLine hl _)
      hc.countsCompress
  all_goals cases hr

-- The circuit that passes its first inputs on.
def firstInputs (h : n ≤ s) : StraightLine s n :=
  .outputs (.ofFn fun i => i.castLE h)

theorem computes_firstInputs (h : 8 * n ≤ 8 * (n + b)) :
    Computes (a := n) (b := b) (firstInputs h).executor.value fun x _ => x := by
  intro v x y hv
  have ht : v.toList.take (8 * n) = bytesToBits x.toList := by
    rw [hv, bytesToBits_append, List.take_left' (by simp [length_bytesToBits])]
  rw [←ht]
  refine List.ext_getElem (by simp) fun i _ _ => ?_
  simp [Executor.value, StraightLine.executor, firstInputs, StraightLine.execute, Vector.get]

theorem suitable_firstInputs : Suitable (Dealer.swanky fun x _ => x) (firstInputs (by decide))
    (firstInputs (by decide)) (fun _ block => block) fun iv _ => iv where
  aes            := computes_firstInputs (n := 16) (b := 16) _
  compress       := computes_firstInputs (n := 32) (b := 64) _
  countsAes      := Dealer.Counted.counts (SplitSharedInputMaskCircuit.counted (.straightLine _)) _
  countsCompress := Dealer.Counted.counts (SplitSharedInputMaskCircuit.counted (.straightLine _)) _
  countsGhash _  :=
    Dealer.Counted.counts (SplitSharedInputMaskCircuit.counted (ghashChain_counted _)) _

-- Whatever two programs do that take the sessions for granted: if they can halt in step, then every
-- way to run them over garbled circuits leads to the same end.
theorem sessions_refine (hl : Lawful sw F gb ev Paired PairedTriples)
    (hc : Suitable sw aesCircuit compressCircuit aes compress)
    (hi : Scheduled F notaryInit clientInit fun _ _ => True) (masks : Masks wrk17)
    (rng : Nat → Stream' Block) (p : Wrk17 α) (q : Wrk17 β) {t : Net wrk17 α β}
    (hs : Steps (circuits aes compress) masks (.init p q) t) (hd : t.Done) (ha : t.aligned)
    (r : Masks (channel L A)) :
    let c := sessions sw gb ev aesCircuit.executor compressCircuit.executor label notaryInit
      clientInit masks rng
    ∃ k, ∀ s, Exchange.Steps F r (.init (c.implementLeft 0 p) (c.implementRight 0 q)) s →
      s.aligned ∧ Exchange.Steps F r s ⟨c.implementLeft t.sessions t.left,
        c.implementRight t.sessions t.right, [], [], [], k, True⟩ := by
  obtain ⟨k, h⟩ :=
    hs.implement_of_halted (sessions_realize hl hc hi masks rng) ha hd.left hd.right r
  refine ⟨k, fun s hs' => ?_⟩
  have h := h s hs'
  rwa [Carrier.image, hd.toRight, hd.toLeft] at h

-- An empty record and a compression: the tag is sent between sessions of all kinds.
theorem sessions_refine_record :
    let F := Dealer.functionality
    let c := sessions (Dealer.swanky fun x _ => x) (Dealer.garbler (.replicate 16 1) 0)
      (Dealer.evaluator (.replicate 16 1) 0) (firstInputs (by decide)).executor
      (firstInputs (by decide)).executor (fun _ => ()) (pure ()) (pure ()) default fun _ => .const 0
    let p := do
      notaryEncryptGcm (.fill 16 1) 0 [0x17] 0
      Notary.notarySha256CompressXor (.replicate 32 1) 0
    let q := do
      let _ ← clientEncryptGcm (.fill 16 2) [] [0x17] 0
      Notary.clientSha256CompressXor (.replicate 32 2) 0
    ∃ (y y' : Arr 32) (k : Nat), y ^^^ y' = .replicate 32 3 ∧
      ∀ s, Exchange.Steps F Dealer.zeros (.init (c.implementLeft 0 p) (c.implementRight 0 q)) s →
        s.aligned ∧ Exchange.Steps F Dealer.zeros s (.final y y' k) := by
  intro F c p q
  have hm : Meets (circuits (fun _ block => block) fun iv _ => iv) (3 + 1) p q _ :=
    Meets.bind (encryptGcm_nil_meets _ _ _ _ _ _) fun _ _ _ => sha256CompressXor_meets
  obtain ⟨y, y', hy, hs⟩ := hm.steps_final default
  obtain ⟨k, h⟩ := sessions_refine (Dealer.lawful Dealer.lsb_ones 0 fun x _ => x)
    suitable_firstInputs (.pure trivial) default (fun _ => .const 0) _ _ hs Net.final_done trivial
    Dealer.zeros
  refine ⟨y, y', k, hy.trans (by decide +kernel), h⟩

-- The key schedule over garbled circuits: whatever the randomness and however the two sides are
-- run, they end with shares of the single-party keys.
theorem garbledTraffic_splits (hl : Lawful sw F gb ev Paired PairedTriples)
    (hc : Suitable sw aesCircuit compressCircuit aes compress)
    (hi : Scheduled F notaryInit clientInit fun _ _ => True) (masks : Masks wrk17)
    (rng : Nat → Stream' Block) (ikmN ikmC afterSh afterSf : Arr 32) (r : Masks (channel L A)) :
    let c := sessions sw gb ev aesCircuit.executor compressCircuit.executor label notaryInit
      clientInit masks rng
    let p := notaryTls13ClientTrafficFromIkmShares compress ikmN afterSh afterSf
    let q := clientTls13ClientTrafficFromIkmShares compress ikmC afterSh afterSf
    ∃ n c' j, n.Splits c' (referenceTls13ClientTraffic compress (ikmN ^^^ ikmC) afterSh afterSf) ∧
      ∀ s, Exchange.Steps F r (.init (c.implementLeft 0 p) (c.implementRight 0 q)) s →
        s.aligned ∧ Exchange.Steps F r s (.final n c' j) := by
  obtain ⟨n, c, hk, hs⟩ := tls13ClientTraffic_meets.steps_final masks
  obtain ⟨j, h⟩ := hs.implement_to_final (sessions_realize hl hc hi masks rng) r
  exact ⟨n, c, j, hk, h⟩

end

theorem garbledTraffic_splits_zero :
    let F := Dealer.functionality
    let c := sessions (Dealer.swanky fun x _ => x) (Dealer.garbler (.replicate 16 1) 0)
      (Dealer.evaluator (.replicate 16 1) 0) (firstInputs (by decide)).executor
      (firstInputs (by decide)).executor (fun _ => ()) (pure ()) (pure ()) default fun _ => .const 0
    let compress (iv : Arr 32) (_ : Arr 64) : Arr 32 := iv
    let p := c.implementLeft 0 (notaryTls13ClientTrafficFromIkmShares compress 0 0 0)
    let q := c.implementRight 0 (clientTls13ClientTrafficFromIkmShares compress 0 0 0)
    ∃ n c j, n.Splits c (referenceTls13ClientTraffic compress (0 ^^^ 0) 0 0) ∧
      ∀ s, Exchange.Steps F Dealer.zeros (.init p q) s →
        s.aligned ∧ Exchange.Steps F Dealer.zeros s (.final n c j) :=
  garbledTraffic_splits (Dealer.lawful Dealer.lsb_ones 0 fun x _ => x) suitable_firstInputs
    (.pure trivial) default (fun _ => .const 0) 0 0 0 0 Dealer.zeros

end Notary.Wrk17
