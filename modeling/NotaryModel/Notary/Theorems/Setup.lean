import NotaryModel.Notary.Demo

namespace Notary

-- The two ends hold shares of the traffic keys and the same IVs.
def Splits (h : Handshaken) (host : HostKeys) : SetupKeys → Prop
  | .preSplit kNTx ivTx kNRx ivRx =>
    (kNTx ^^^ host.kCTx = h.txKey ∧ kNRx ^^^ host.kCRx = h.rxKey) ∧
    ivTx = host.txIv ∧ ivRx = host.rxIv
  | .twoPcPending _ => False

-- The keys of a host that has XORed the traffic keys with the masks `kNTx` and `kNRx`.
def HostKeys.masked (h : Handshaken) (kNTx kNRx : Arr 16) : HostKeys where
  kCTx := h.txKey ^^^ kNTx
  txIv := h.txIv
  kCRx := h.rxKey ^^^ kNRx
  rxIv := h.rxIv

theorem splits_masked_iff {h : Handshaken} {mTx mRx : Arr 16} :
    Splits h (.masked h mTx mRx) (.preSplit kNTx h.txIv kNRx h.rxIv) ↔ kNTx = mTx ∧ kNRx = mRx := by
  have hx {m k key : Arr 16} : k ^^^ (key ^^^ m) = key ↔ k = m := by
    rw [Arr.xor_left_comm, ←Arr.xor_eq_zero_iff (a := k)]
    constructor
    · intro h
      rw [←Arr.xor_xor_cancel_left key (k ^^^ m), h, Arr.xor_self]
    · intro h
      rw [h, Arr.xor_zero]
  simp [Splits, HostKeys.masked, hx]

section

variable {aes : Arr 16 → Arr 16 → Arr 16} {compress : Arr 32 → Arr 64 → Arr 32}
variable {curve : Curve25519} {gcm : Gcm.Open} {files : Circuits} {args : Args}

variable (aes compress curve gcm files args) in
-- With masks of the host the setup consists of the mode and one frame.
theorem legacySetup_meets (ha : args.legacyHostXorMasks = true) (rng : ProxyRandom)
    (rng' : HostRandom) (peer : String) (h : Handshaken) :
    Meets (circuits aes compress) 0 (readSetupFrame curve compress gcm files rng peer)
      (runLegacyDemo.setup curve args rng' h) fun keys host =>
        keys = .preSplit rng'.kNTx h.txIv rng'.kNRx h.rxIv ∧ host = .masked h 0 0 := by
  unfold readSetupFrame runLegacyDemo.setup runLegacyDemo.phase0
  simp only [ha, if_true, Prog.pure_eq, Prog.pure_bind]
  refine .bind (k := 0) (j := 0) (.recv_send (Φ := fun v _ => v = #v[setupLegacyHostMasks]) rfl) ?_
  rintro _ _ rfl
  refine .bind (k := 0) (j := 0) (.recv_send (Φ := fun v _ => v = _) rfl) ?_
  rintro _ _ rfl
  refine .pure ⟨?_, rfl⟩
  congr 1
  · rw [Arr.slice_copyAt_of_disjoint (.inl (by decide)),
      Arr.slice_copyAt_of_disjoint (.inl (by decide)),
      Arr.slice_copyAt_of_disjoint (.inl (by decide))]
    exact Arr.slice_copyAt (by decide)
  · rw [Arr.slice_copyAt_of_disjoint (.inl (by decide)),
      Arr.slice_copyAt_of_disjoint (.inl (by decide))]
    exact Arr.slice_copyAt (by decide)
  · rw [Arr.slice_copyAt_of_disjoint (.inl (by decide))]
    exact Arr.slice_copyAt (by decide)
  · exact Arr.slice_copyAt (by decide)

theorem legacySetup_final (ha : args.legacyHostXorMasks = true) {s : Net wrk17 SetupKeys HostKeys}
    (hs : Steps (circuits aes compress) m (.init (readSetupFrame curve compress gcm files rng peer)
      (runLegacyDemo.setup curve args rng' h)) s)
    (hl : s.left = .pure keys) (hr : s.right = .pure host) :
    keys = .preSplit rng'.kNTx h.txIv rng'.kNRx h.rxIv ∧ host = .masked h 0 0 := by
  have hm := legacySetup_meets aes compress curve gcm files args ha rng rng' peer h
  have ⟨keys', host', hk, h⟩ := hm.steps_final m
  have h := hs.of_halted (hl ▸ .pure) (hr ▸ .pure) h
  have h := h.eq_of_stuck fun _ => (·.not_halted .pure .pure)
  subst h
  cases hl
  cases hr
  exact hk

-- The masks as the notary sends them.
def kn (rng : ProxyRandom) : Arr 32 :=
  Arr.copyAt (Arr.copyAt 0 0 rng.kNTx.toList) 16 rng.kNRx.toList

-- With masks of the notary the round for the ECDH comes last and changes neither keys nor IVs.
theorem notaryMasksSetup_final (ha : args.legacyHostXorMasks = false)
    {s : Net wrk17 SetupKeys HostKeys}
    (hs : Steps (circuits aes compress) m (.init (readSetupFrame curve compress gcm files rng peer)
      (runLegacyDemo.setup curve args rng' h)) s)
    (hl : s.left = .pure keys) (hr : s.right = .pure host) :
    keys = .preSplit rng.kNTx h.txIv rng.kNRx h.rxIv ∧ host = .masked h rng.kNTx rng.kNRx := by
  have hlh : s.left.Halted := hl ▸ .pure
  have hrh : s.right.Halted := hr ▸ .pure
  unfold readSetupFrame runLegacyDemo.setup runLegacyDemo.phase0 at hs
  simp only [ha, Bool.false_eq_true, if_false, bind_assoc] at hs
  obtain ⟨_, _, rfl, hs⟩ := Meets.steps_halted
    (.recv_send (Φ := fun v _ => v = #v[setupNotaryChoosesXorMasks]) rfl) hs hlh hrh
  replace hs : Steps (circuits aes compress) m
    ⟨readSetupFrame.notaryMasks curve rng, _, _, _, _, _⟩ s := hs
  obtain ⟨_, _, rfl, hs⟩ := Meets.steps_halted (.send_recv (Φ := fun _ v => v = _) rfl) hs hlh hrh
  obtain ⟨_, _, rfl, hs⟩ := Meets.steps_halted (.send_recv (Φ := fun _ v => v = _) rfl) hs hlh hrh
  obtain ⟨_, _, rfl, hs⟩ := Meets.steps_halted
    (.recv_send (Φ := fun v _ => v = h.txIv) rfl) hs hlh hrh
  obtain ⟨_, _, rfl, hs⟩ := Meets.steps_halted
    (.recv_send (Φ := fun v _ => v = h.rxIv) rfl) hs hlh hrh
  -- What is left is the round for the ECDH, after which both ends return what they already hold.
  have ⟨hk, hh⟩ := hs.ensures
    (Φ := (· = .preSplit rng.kNTx h.txIv rng.kNRx h.rxIv))
    (Ψ := (· = .masked h rng.kNTx rng.kNRx))
    (.of_forall fun _ => .pure rfl) (.of_forall fun _ => .pure ?_)
  · exact ⟨(hl ▸ hk).of_pure, (hr ▸ hh).of_pure⟩
  · have htx : Arr.ofBytes 16 (Bytes.slice (kn rng).toList 0 16) = rng.kNTx := by
      rw [kn, Arr.slice_copyAt_of_disjoint (.inl (by decide))]
      exact Arr.slice_copyAt (by decide)
    have hrx : Arr.ofBytes 16 (Bytes.slice (kn rng).toList 16 32) = rng.kNRx :=
      Arr.slice_copyAt (by decide)
    exact congrArg₂ (HostKeys.masked h) htx hrx

variable (aes compress curve gcm files args) in
-- Without the ECDH round the setup with masks of the notary completes.
theorem notaryMasksSetup_meets (ha : args.legacyHostXorMasks = false)
    (hskip : args.skipEcdhWire = true) (rng : ProxyRandom) (rng' : HostRandom)
    (peer : String) (h : Handshaken) :
    Meets (circuits aes compress) 0 (readSetupFrame curve compress gcm files rng peer)
      (runLegacyDemo.setup curve args rng' h) fun _ _ => True := by
  unfold readSetupFrame runLegacyDemo.setup runLegacyDemo.phase0 runLegacyDemo.ecdh
  simp only [ha, hskip, Bool.false_eq_true, if_false, if_true, bind_assoc]
  refine .bind (k := 0) (j := 0)
    (.recv_send (Φ := fun v _ => v = #v[setupNotaryChoosesXorMasks]) rfl) ?_
  rintro _ _ rfl
  change Meets (circuits aes compress) 0 (readSetupFrame.notaryMasks curve rng) _ _
  refine .bind (k := 0) (j := 0) (.send_recv (Φ := fun _ v => v = kn rng) rfl) ?_
  rintro _ _ rfl
  refine .bind (k := 0) (j := 0) (.send_recv (Φ := fun _ _ => True) trivial) fun _ _ _ => ?_
  simp only [Prog.pure_eq, Prog.pure_bind]
  refine .bind (k := 0) (j := 0) (.recv_send (Φ := fun _ _ => True) trivial) fun _ _ _ => ?_
  refine .bind (k := 0) (j := 0) (.recv_send (Φ := fun _ _ => True) trivial) fun _ _ _ => ?_
  unfold notaryRecvEcdhSetup
  simp only [bind_assoc]
  refine .bind (k := 0) (j := 0) (.recv_send (Φ := fun v _ => v = #v[setupEcdhSkip]) rfl) ?_
  rintro _ _ rfl
  exact .pure trivial

-- The shares recombine in the second mode. In the first one the host has XORed its shares while the
-- masks were still zero.
theorem setup_splits_iff {s : Net wrk17 SetupKeys HostKeys}
    (hs : Steps (circuits aes compress) m (.init (readSetupFrame curve compress gcm files rng peer)
      (runLegacyDemo.setup curve args rng' h)) s)
    (hl : s.left = .pure keys) (hr : s.right = .pure host) :
    Splits h host keys ↔
    args.legacyHostXorMasks = false ∨ rng'.kNTx = 0 ∧ rng'.kNRx = 0 := by
  cases ha : args.legacyHostXorMasks
  case false =>
    obtain ⟨rfl, rfl⟩ := notaryMasksSetup_final ha hs hl hr
    simp [splits_masked_iff]
  case true =>
    obtain ⟨rfl, rfl⟩ := legacySetup_final ha hs hl hr
    simp [splits_masked_iff]

end

section

-- A curve with a single point.
def unitCurve : Curve25519 where
  Scalar              := Unit
  Point               := Unit
  fromBytesModOrder _ := ()
  toBytes _           := 0
  addScalar _ _       := ()
  toEdwards _         := some ()
  mul _ _             := ()
  add _ _             := ()
  toMontgomery _      := 0
  compress _          := 0
  decompress _        := some ()

def zeroHandshaken : Handshaken where
  host             := "example.com"
  queryPath        := "/"
  tcp              := []
  rawInbound       := []
  rawOutbound      := []
  now              := 0
  peerCertificates := none
  txSeq            := 0
  rxSeq            := 0
  txKey            := 0
  txIv             := 0
  rxKey            := 0
  rxIv             := 0

theorem setup_splits_iff_of_skip :
    let args : Args := ⟨false, true, false, false⟩
    let rng : ProxyRandom := ⟨.fill 16 1, .fill 16 2, 0, 0, ⟨0, 0⟩⟩
    let rng' : HostRandom := ⟨0, 0, 0⟩
    let gcm : Gcm.Open := fun _ _ _ _ _ => none
    ∃ (s : Net wrk17 SetupKeys HostKeys) (keys : SetupKeys) (host : HostKeys),
      Steps (circuits (fun _ _ => 0) fun _ _ => 0) default
        (.init (readSetupFrame unitCurve (fun _ _ => 0) gcm ⟨0, 0⟩ rng "host")
          (runLegacyDemo.setup unitCurve args rng' zeroHandshaken)) s ∧
      s.left = .pure keys ∧ s.right = .pure host ∧
      (Splits zeroHandshaken host keys ↔
        args.legacyHostXorMasks = false ∨ rng'.kNTx = 0 ∧ rng'.kNRx = 0) := by
  intro args rng rng' gcm
  have ⟨keys, host, _, hs⟩ :=
    notaryMasksSetup_meets (fun _ _ => 0) (fun _ _ => 0) unitCurve gcm ⟨0, 0⟩ args
      rfl rfl rng rng' "host" zeroHandshaken |>.steps_final default
  exact ⟨_, keys, host, hs, rfl, rfl, setup_splits_iff hs rfl rfl⟩

-- Masks of the host that are not zero: the shares XOR to the masked keys.
theorem not_setup_splits :
    ¬∀ (aes : Arr 16 → Arr 16 → Arr 16) (compress : Arr 32 → Arr 64 → Arr 32) (curve : Curve25519)
      (gcm : Gcm.Open) (files : Circuits) (args : Args) (rng : ProxyRandom) (rng' : HostRandom)
      (peer : String) (h : Handshaken) (m : Masks wrk17) (s : Net wrk17 SetupKeys HostKeys)
      (keys : SetupKeys) (host : HostKeys),
      Steps (circuits aes compress) m (.init (readSetupFrame curve compress gcm files rng peer)
        (runLegacyDemo.setup curve args rng' h)) s →
      s.left = .pure keys → s.right = .pure host → Splits h host keys := by
  intro h
  have ⟨_, _, ⟨rfl, rfl⟩, hs⟩ := legacySetup_meets (fun _ _ => 0) (fun _ _ => 0) unitCurve
    (fun _ _ _ _ _ => none) ⟨0, 0⟩ ⟨true, false, false, false⟩ rfl ⟨0, 0, 0, 0, ⟨0, 0⟩⟩
    ⟨.fill 16 1, .fill 16 2, 0⟩ "host" zeroHandshaken |>.steps_final default
  have hm := splits_masked_iff.mp (h _ _ _ _ _ _ _ _ _ _ _ _ _ _ hs rfl rfl)
  exact absurd hm.left (by decide)

end

end Notary
