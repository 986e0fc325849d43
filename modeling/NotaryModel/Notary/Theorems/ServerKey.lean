import NotaryModel.Notary.Proxy
import NotaryModel.Notary.Theorems.Frames

open Common

namespace Notary

variable {curve : Curve25519} {compress : Arr 32 → Arr 64 → Arr 32} {gcm : Gcm.Open}
variable {files : Circuits}

-- What the notary reads of a capture.
def HandshakeCapture.reads (cap : HandshakeCapture) : List (Label × Bytes) := [
  (.captureEpk, cap.serverEpk.toList),
  (.captureCertHash, cap.certChainHash.toList),
  (.captureOutboundLen, Bytes.be 4 cap.outbound.length),
  (.captureOutbound, cap.outbound),
  (.captureInboundLen, Bytes.be 4 cap.inbound.length),
  (.captureInbound, cap.inbound)
]

theorem recv_bind_ok {f : Arr n → Wrk17 β} (h : Run eof (read l n >>= f) es (.ok b)) :
    ∃ v es', Run eof (f v) es' (.ok b) ∧ es = .read l v.toList :: es' := by
  obtain ⟨v, es₁, es', h₁, h₂, rfl⟩ := Run.bind_ok_iff.mp h
  rw [Run.recv_ok_iff.mp h₁]
  exact ⟨v, es', h₂, rfl⟩

theorem send_bind_ok {f : Unit → Wrk17 β} (h : Run eof (write l bs >>= f) es (.ok b)) :
    ∃ es', Run eof (f ()) es' (.ok b) ∧ es = .write l bs :: es' :=
  Run.send_bind_iff.mp h

theorem expect_bind_ok {f : α → Wrk17 β} (h : Run eof (expect msg o >>= f) es (.ok b)) :
    ∃ a, o = some a ∧ Run eof (f a) es (.ok b) := by
  cases o
  case none   => cases h
  case some a => exact ⟨a, rfl, h⟩

theorem readHandshakeCapture_ok (h : Run eof readHandshakeCapture es (.ok cap)) :
    Event.reads es = cap.reads := by
  obtain ⟨epk, _, h₁, rfl⟩ := recv_bind_ok h
  obtain ⟨cert, _, h₂, rfl⟩ := recv_bind_ok h₁
  obtain ⟨outLen, _, h₃, rfl⟩ := recv_bind_ok h₂
  simp only at h₃
  split at h₃
  case isTrue => cases h₃
  case isFalse =>
    obtain ⟨out, _, h₄, rfl⟩ := recv_bind_ok h₃
    obtain ⟨inLen, _, h₅, rfl⟩ := recv_bind_ok h₄
    simp only at h₅
    split at h₅
    case isTrue => cases h₅
    case isFalse =>
      obtain ⟨inp, _, h₆, rfl⟩ := recv_bind_ok h₅
      cases h₆
      have ho : Bytes.be 4 out.toList.length = outLen.toList := by
        rw [Vector.length_toList, Bytes.be_ofBe (by simp)]
      have hi : Bytes.be 4 inp.toList.length = inLen.toList := by
        rw [Vector.length_toList, Bytes.be_ofBe (by simp)]
      simp only [HandshakeCapture.reads, ho, hi, Event.reads_read, Event.reads_nil]

-- Both forms of the ECDH round compute the IKM with the key of the framing.
theorem notaryRunLeakyAdditive_ok {n h : EphemeralShare curve}
    (hr : Run eof (notaryRunLeakyAdditive n h epk mask) es (.ok o)) :
    referenceIkm h n epk = some o.ikm := by
  obtain ⟨_, _, h₁, rfl⟩ := recv_bind_ok hr
  split at h₁
  case h_2 => cases h₁
  case h_1 =>
    obtain ⟨_, _, _, _, h₂, rfl⟩ := Run.bind_ok_iff.mp h₁
    obtain ⟨_, h₃, rfl⟩ := send_bind_ok h₂
    obtain ⟨_, hi, h₄⟩ := expect_bind_ok h₃
    obtain ⟨_, h₅, rfl⟩ := send_bind_ok h₄
    cases h₅
    exact hi

theorem notaryRunOtBlinded_ok {n h : EphemeralShare curve}
    (hr : Run eof (notaryRunOtBlinded n h epk rng) es (.ok o)) :
    referenceIkm h n epk = some o.ikm := by
  obtain ⟨_, _, _, _, h₁, rfl⟩ := Run.bind_ok_iff.mp hr
  obtain ⟨_, h₂, rfl⟩ := send_bind_ok h₁
  obtain ⟨_, _, h₃, rfl⟩ := recv_bind_ok h₂
  split at h₃
  case h_2 => cases h₃
  case h_1 =>
    obtain ⟨_, _, _, _, h₄, rfl⟩ := Run.bind_ok_iff.mp h₃
    obtain ⟨_, hi, h₅⟩ := expect_bind_ok h₄
    obtain ⟨_, h₆, rfl⟩ := send_bind_ok h₅
    cases h₆
    exact hi

def EcdhSetupOutcome.ikm? : EcdhSetupOutcome → Option (Arr 32)
  | skipped   => none
  | leaky o   => some o.ikm
  | ot o      => some o.ikm

-- What the notary reads first in an ECDH round.
def ecdhReads (flag : Byte) (epk host : Arr 32) : List (Label × Bytes) :=
  [(.ecdhFlag, [flag]), (.serverEpk, epk.toList), (.hostShare, host.toList)]

theorem readHostShare_bind_ok {f : EphemeralShare curve → Wrk17 β}
    (h : Run eof (readHostShare >>= f) es (.ok b)) :
    ∃ host es', Run eof (f (shareFromBytes curve host)) es' (.ok b) ∧
      es = .read .hostShare host.toList :: es' := by
  rw [readHostShare, bind_assoc] at h
  exact recv_bind_ok h

theorem notaryRecvEcdhSetup_ok {n : EphemeralShare curve}
    (hr : Run eof (notaryRecvEcdhSetup n mask rng) es (.ok o)) (ho : o.ikm? = some ikm) :
    ∃ flag epk host rest, Event.reads es = ecdhReads flag epk host ++ rest ∧
      referenceIkm (shareFromBytes curve host) n epk = some ikm := by
  obtain ⟨flag, _, h₁, rfl⟩ := recv_bind_ok hr
  split at h₁
  case isTrue =>
    cases h₁
    cases ho
  case isFalse =>
    split at h₁
    case isTrue =>
      obtain ⟨epk, _, h₂, rfl⟩ := recv_bind_ok h₁
      obtain ⟨host, es', h₃, rfl⟩ := readHostShare_bind_ok h₂
      obtain ⟨_, _, _, h₄, h₅, he⟩ := Run.bind_ok_iff.mp h₃
      cases h₅
      cases ho
      refine ⟨flag.byte, epk, host, Event.reads es', ?_, notaryRunLeakyAdditive_ok h₄⟩
      simp only [Event.reads_read, flag.toList_eq]
      rfl
    case isFalse =>
      split at h₁
      case isTrue =>
        obtain ⟨epk, _, h₂, rfl⟩ := recv_bind_ok h₁
        obtain ⟨host, es', h₃, rfl⟩ := readHostShare_bind_ok h₂
        obtain ⟨_, _, _, h₄, h₅, he⟩ := Run.bind_ok_iff.mp h₃
        cases h₅
        cases ho
        refine ⟨flag.byte, epk, host, Event.reads es', ?_, notaryRunOtBlinded_ok h₄⟩
        simp only [Event.reads_read, flag.toList_eq]
        rfl
      case isFalse => cases h₁

theorem verifyHandshakeCapture_ok
    (h : verifyHandshakeCapture files compress gcm cap ikm = .ok verified) :
    parseServerHelloKeyShare cap.inbound = some cap.serverEpk ∧
    verified.binding.serverEpk = cap.serverEpk ∧
    verified.binding.handshakeTranscriptHash =
      handshakeTranscriptHash compress cap.outbound cap.inbound := by
  unfold verifyHandshakeCapture at h
  split at h
  case h_2 => cases h
  case h_1 epk he =>
    split at h
    case isTrue => cases h
    case isFalse hne =>
      refine ⟨he.trans (congrArg some (not_not.mp hne)), ?_⟩
      split at h
      case h_2 => cases h
      case h_1 =>
        simp only at h
        split at h
        case isTrue => cases h
        case isFalse =>
          split at h
          case h_2 => cases h
          case h_1 => cases h; exact ⟨rfl, rfl⟩

theorem readSetupFrame_twoPc_ok
    (h : Run eof (readSetupFrame.twoPc curve compress gcm files rng peer) es
      (.ok (.twoPcPending setup))) :
    ∃ cap flag epk host rest, Event.reads es = cap.reads ++ ecdhReads flag epk host ++ rest ∧
      referenceIkm (shareFromBytes curve host) (generateShare curve rng.ecdhShare) epk =
        some setup.ikmFull ∧
      ∃ verified, verifyHandshakeCapture files compress gcm cap setup.ikmFull = .ok verified ∧
        setup.binding = verified.binding := by
  obtain ⟨_, h₁, rfl⟩ := send_bind_ok h
  obtain ⟨cap, es₁, _, hc, h₂, rfl⟩ := Run.bind_ok_iff.mp h₁
  obtain ⟨o, es₂, es₃, ho, h₃, rfl⟩ := Run.bind_ok_iff.mp h₂
  have hs : ∃ verified, o.ikm? = some setup.ikmFull ∧
      verifyHandshakeCapture files compress gcm cap setup.ikmFull = .ok verified ∧
      setup.binding = verified.binding := by
    cases o
    case skipped => cases h₃
    all_goals
      simp only [Prog.pure_eq, Prog.pure_bind] at h₃
      split at h₃
      case h_1 => cases h₃
      case h_2 verified hv =>
        cases h₃
        exact ⟨verified, rfl, hv, rfl⟩
  obtain ⟨verified, hk, hv⟩ := hs
  obtain ⟨flag, epk, host, rest, hr, hi⟩ := notaryRecvEcdhSetup_ok ho hk
  refine ⟨cap, flag, epk, host, rest ++ Event.reads es₃, ?_, hi, verified, hv⟩
  simp only [Event.reads_write, Event.reads_append, readHandshakeCapture_ok hc, hr,
    List.append_assoc]

theorem readSetupFrame_ok
    (h : Run eof (readSetupFrame curve compress gcm files rng peer) es
      (.ok (.twoPcPending setup))) :
    ∃ cap flag epk host rest,
      Event.reads es =
        (.setupMode, [setup2pcTrafficKeys]) :: cap.reads ++ ecdhReads flag epk host ++ rest ∧
      referenceIkm (shareFromBytes curve host) (generateShare curve rng.ecdhShare) epk =
        some setup.ikmFull ∧
      ∃ verified, verifyHandshakeCapture files compress gcm cap setup.ikmFull = .ok verified ∧
        setup.binding = verified.binding := by
  obtain ⟨mode, _, h₁, rfl⟩ := recv_bind_ok h
  split at h₁
  case isTrue =>
    obtain ⟨_, _, h₂, rfl⟩ := recv_bind_ok h₁
    cases h₂
  case isFalse =>
    split at h₁
    case isTrue =>
      have hm : (readSetupFrame.notaryMasks curve rng).Ensures fun keys =>
          ∀ setup, keys ≠ .twoPcPending setup := by
        refine .of_forall fun _ => .of_forall fun _ => .of_forall fun _ => .of_forall fun _ =>
          .of_forall fun _ => .pure ?_
        rintro _ ⟨⟩
      exact absurd rfl (hm _ _ _ h₁ setup)
    case isFalse =>
      split at h₁
      case isTrue hm =>
        obtain ⟨cap, flag, epk, host, rest, hr, h₂⟩ := readSetupFrame_twoPc_ok h₁
        refine ⟨cap, flag, epk, host, rest, ?_, h₂⟩
        rw [Event.reads_read, mode.toList_eq, hm, hr]
        rfl
      case isFalse => cases h₁

-- The IKM belongs to the key of the binding as far as the combined scalar of the two shares does not
-- tell the key of the framing from the one of the capture. Nothing compares the two keys.
theorem ikm_of_binding_iff (curve : Curve25519) (compress : Arr 32 → Arr 64 → Arr 32)
    (gcm : Gcm.Open) (files : Circuits) (rng : ProxyRandom) (peer : String)
    (h : Run eof (readSetupFrame curve compress gcm files rng peer) es
      (.ok (.twoPcPending setup))) :
    ∃ (cap : HandshakeCapture) (flag : Byte) (epk host : Arr 32) (rest : List (Label × Bytes)),
      Event.reads es =
        (.setupMode, [setup2pcTrafficKeys]) :: cap.reads ++ ecdhReads flag epk host ++ rest ∧
      parseServerHelloKeyShare cap.inbound = some cap.serverEpk ∧
      setup.binding.serverEpk = cap.serverEpk ∧
      let hostShare := shareFromBytes curve host
      let notaryShare := generateShare curve rng.ecdhShare
      (referenceIkm hostShare notaryShare setup.binding.serverEpk = some setup.ikmFull ↔
        referenceIkm hostShare notaryShare epk =
          referenceIkm hostShare notaryShare cap.serverEpk) := by
  obtain ⟨cap, flag, epk, host, rest, hr, hi, verified, hv, hb⟩ := readSetupFrame_ok h
  have ⟨hp, hs, _⟩ := verifyHandshakeCapture_ok hv
  refine ⟨cap, flag, epk, host, rest, hr, hp, hb ▸ hs, ?_⟩
  simp only [hb, hs, hi]
  exact eq_comm

-- A host can bring about every combination of keys that a capture verifies with.
section

theorem readHandshakeCapture_run (cap : HandshakeCapture)
    (ho : cap.outbound.length ≤ maxHandshakeBytes) (hi : cap.inbound.length ≤ maxHandshakeBytes) :
    Run eof readHandshakeCapture (cap.reads.map fun x => .read x.1 x.2) (.ok cap) := by
  have hmax : maxHandshakeBytes < 256 ^ 4 := by decide
  have hol := Bytes.ofBe_be_of_lt (Nat.lt_of_le_of_lt ho hmax)
  have hil := Bytes.ofBe_be_of_lt (Nat.lt_of_le_of_lt hi hmax)
  refine .read cap.serverEpk <| .read cap.certChainHash <|
    Run.recv_bind _ Bytes.length_be fun outLen houtLen => ?_
  have hol : Bytes.ofBe outLen.toList = cap.outbound.length := by rw [houtLen, hol]
  rw [if_neg (Nat.not_lt.mpr (hol ▸ ho))]
  refine Run.recv_bind _ hol.symm fun out hout =>
    Run.recv_bind _ Bytes.length_be fun inLen hinLen => ?_
  have hil : Bytes.ofBe inLen.toList = cap.inbound.length := by rw [hinLen, hil]
  rw [if_neg (Nat.not_lt.mpr (hil ▸ hi))]
  refine Run.recv_bind _ hil.symm fun inp hinp => ?_
  rw [hout, hinp]
  exact .pure

theorem notaryRunLeakyAdditive_run {n h : EphemeralShare curve} {P : curve.Point}
    (hP : curve.decompress pC = some P) (hi : referenceIkm h n epk = some ikm) (mask : Arr 32) :
    ∃ es, Run eof (notaryRunLeakyAdditive n h epk mask) es (.ok ⟨ikm, ikm ^^^ mask, mask⟩) := by
  obtain ⟨Q, hQ, -⟩ := Option.bind_eq_some_iff.mp hi
  refine ⟨[.read .hostPartial pC.toList,
    .write .notaryPartial (curve.compress (curve.mul n.scalar Q)).toList,
    .write .ikmMask mask.toList], Run.recv_bind _ (by simp) fun v hv => ?_⟩
  obtain rfl := Arr.toList_inj hv
  simp only [hP, computePartialPoint, referenceIkm!, hQ, hi, expect]
  exact .write <| .write .pure

theorem readSetupFrame_run {P : curve.Point} (rng : ProxyRandom) (peer : String) (pC : Arr 32)
    (ho : cap.outbound.length ≤ maxHandshakeBytes) (hi : cap.inbound.length ≤ maxHandshakeBytes)
    (hP : curve.decompress pC = some P)
    (hk : referenceIkm (shareFromBytes curve host) (generateShare curve rng.ecdhShare) epk =
      some ikm)
    (hv : verifyHandshakeCapture files compress gcm cap ikm = .ok verified) :
    ∃ es setup, Run eof (readSetupFrame curve compress gcm files rng peer) es
        (.ok (.twoPcPending setup)) ∧
      (.hostShare, host.toList) ∈ Event.reads es ∧ setup.ikmFull = ikm ∧
      setup.binding = verified.binding := by
  obtain ⟨es, h⟩ : ∃ es, Run eof _ es _ := notaryRunLeakyAdditive_run hP hk rng.leakyMask
  let ecdh : List (Event wrk17) := .read .ecdhFlag [setupEcdhLeaky] ::
    .read .serverEpk epk.toList :: .read .hostShare host.toList :: es
  have hr : Run eof (notaryRecvEcdhSetup (generateShare curve rng.ecdhShare) rng.leakyMask rng.ot)
      ecdh (.ok (.leaky ⟨ikm, ikm ^^^ rng.leakyMask, rng.leakyMask⟩)) := by
    refine .read #v[setupEcdhLeaky] ?_
    have h := Run.bind_ok (f := fun o => Prog.pure (EcdhSetupOutcome.leaky o)) h .pure
    rw [List.append_nil] at h
    exact .read epk (.read host h)
  let setup : TwoPcTrafficSetup :=
    ⟨rng.leakyMask, verified.afterSh, verified.afterSf, ikm, verified.binding⟩
  let es' := cap.reads.map (fun x => .read x.1 x.2) ++ (ecdh ++ [])
  have hs : Run eof (readSetupFrame.twoPc curve compress gcm files rng peer)
      (.write .scalarShare (shareToBytes (generateShare curve rng.ecdhShare)).toList :: es')
      (.ok (.twoPcPending setup)) := by
    refine Run.send_bind_iff.mpr ⟨es', Run.bind_ok (readHandshakeCapture_run cap ho hi) <|
      Run.bind_ok hr ?_, rfl⟩
    simp only [Prog.pure_eq, Prog.pure_bind, hv]
    exact .pure
  exact ⟨_, setup, .read #v[setup2pcTrafficKeys] hs, by simp [es', ecdh], rfl, rfl⟩

end

end Notary
