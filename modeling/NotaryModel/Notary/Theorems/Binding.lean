import NotaryModel.Notary.Demo
import NotaryModel.Notary.Theorems.Frames
import NotaryModel.Notary.Theorems.ServerKey

open Common

namespace Notary

variable {curve : Curve25519} {compress : Arr 32 → Arr 64 → Arr 32} {gcm : Gcm.Open}
variable {files : Circuits} {ed : Ed25519} {bincode : Bincode}

-- What holds of the bundles that are signed at the end of a session holds of its result.
theorem runNotaryWorkerInner_of_finish {w : Worker ed} {Φ : NotaryBundle → Prop}
    (h : ∀ records, (w.finish bincode records).Ensures Φ) :
    (runNotaryWorkerInner compress bincode w fuel records).Ensures
      fun b? => ∀ b, b? = some b → Φ b := by
  induction fuel generalizing records
  case zero          => exact .fail
  case succ fuel hi =>
    rw [runNotaryWorkerInner_succ]
    refine .of_forall fun header? => ?_
    split
    case h_1 => exact .pure nofun
    case h_2 =>
      split_ifs
      · exact .of_forall fun _ => hi
      · refine .bind (h records) fun b hb => .pure ?_
        rintro _ ⟨⟩
        exact hb
      · exact .fail

theorem Worker.finish_binding {w : Worker ed} : (w.finish bincode records).Ensures fun b =>
    b.bundleVersion = NotaryBundle.bundleVersionBinding ∧ b.binding = w.binding := by
  intro _ _ _ hr
  obtain ⟨_, _, _, _, _, _, rfl⟩ := Worker.finish_sign _ _ _ hr
  exact ⟨rfl, rfl⟩

def SetupKeys.binding (files : Circuits) : SetupKeys → SessionBinding
  | preSplit ..        => productionSessionBinding files
  | twoPcPending setup => setup.binding

theorem handle.worker_binding :
    (handle.worker compress files ed bincode sk now fuel keys).Ensures fun b? => ∀ b, b? = some b →
      b.bundleVersion = NotaryBundle.bundleVersionBinding ∧ b.binding = keys.binding files := by
  cases keys
  case preSplit =>
    exact .of_forall fun _ => runNotaryWorkerInner_of_finish fun _ => Worker.finish_binding
  case twoPcPending setup =>
    refine .of_forall fun header => ?_
    split_ifs
    · exact .fail
    · exact .of_forall fun _ => .of_forall fun _ =>
        runNotaryWorkerInner_of_finish fun _ => Worker.finish_binding

theorem readSetupFrame.twoPc_pending :
    (readSetupFrame.twoPc curve compress gcm files rng peer).Ensures fun keys =>
      ∃ setup, keys = .twoPcPending setup := by
  refine .of_forall fun _ => .of_forall fun _ => .of_forall fun o => ?_
  cases o
  case skipped => exact .fail
  all_goals
    refine .of_forall fun _ => ?_
    dsimp only
    split
    case h_1 => exact .fail
    case h_2 => exact .pure ⟨_, rfl⟩

-- The setup of the other modes starts with their byte.
theorem readSetupFrame_preSplit_ok
    (h : Run eof (readSetupFrame curve compress gcm files rng peer) es
      (.ok (.preSplit kNTx ivTx kNRx ivRx))) :
    ∃ m rest, m ≠ setup2pcTrafficKeys ∧ Event.reads es = (.setupMode, [m]) :: rest := by
  obtain ⟨mode, es', h₁, rfl⟩ := recv_bind_ok h
  refine ⟨mode.byte, Event.reads es', fun hm => ?_, by rw [Event.reads_read, mode.toList_eq]⟩
  have h₀ : setup2pcTrafficKeys ≠ setupLegacyHostMasks := by decide
  have h₂ : setup2pcTrafficKeys ≠ setupNotaryChoosesXorMasks := by decide
  rw [hm, if_neg h₀, if_neg h₂, if_pos rfl] at h₁
  obtain ⟨_, he⟩ := readSetupFrame.twoPc_pending _ _ _ h₁
  cases he

-- The binding has nothing of the handshake, or it hashes the capture.
theorem readSetupFrame_binding
    (h : Run eof (readSetupFrame curve compress gcm files rng peer) es (.ok keys)) :
    (keys.binding files = productionSessionBinding files ∧
      ∃ m rest, m ≠ setup2pcTrafficKeys ∧ Event.reads es = (.setupMode, [m]) :: rest) ∨
    ∃ (cap : HandshakeCapture) (rest : List (Label × Bytes)),
      Event.reads es = (.setupMode, [setup2pcTrafficKeys]) :: cap.reads ++ rest ∧
      (keys.binding files).handshakeTranscriptHash =
        handshakeTranscriptHash compress cap.outbound cap.inbound := by
  cases keys
  case preSplit           => exact .inl ⟨rfl, readSetupFrame_preSplit_ok h⟩
  case twoPcPending setup =>
    obtain ⟨cap, flag, epk, host, rest, hr, _, verified, hc, hs⟩ := readSetupFrame_ok h
    refine .inr ⟨cap, ecdhReads flag epk host ++ rest, ?_, ?_⟩
    · rw [hr, List.append_assoc]
    · change setup.binding.handshakeTranscriptHash = _
      rw [hs]
      exact (verifyHandshakeCapture_ok hc).right.right

variable {args : Args} {rng : HostRandom} {hs : Handshaken}

-- The host appends the request and the response to what it has captured.
theorem takeOver_raw : (takeOver bincode t kCTx txIv kCRx rxIv txSeq rxSeq stopAtAlert).Ensures
    fun out => (∃ req, 0 < req.length ∧ out.rawOutbound = t.rawOutbound ++ req) ∧
      ∃ raw, out.rawInbound = t.rawInbound ++ raw := by
  refine .of_forall fun r => ?_
  obtain ⟨ct, tag⟩ := r
  refine .of_forall fun r => ?_
  obtain ⟨full, raw⟩ := r
  refine .of_forall fun bundle => .pure ⟨⟨_, ?_, rfl⟩, _, rfl⟩
  simp [buildTlsRecord]

theorem notaryDemo_raw : (notaryDemo curve compress gcm twoPc bincode args rng hs).Ensures
    fun out => (∃ req, 0 < req.length ∧ out.rawOutbound = hs.rawOutbound ++ req) ∧
      ∃ raw, out.rawInbound = hs.rawInbound ++ raw := by
  unfold notaryDemo
  split
  · exact .of_forall fun _ => .of_forall fun _ => .of_forall fun _ => takeOver_raw
  · exact .of_forall fun _ => .of_forall fun _ => takeOver_raw

theorem writeHandshakeCapture_ok (h : Run eof (writeHandshakeCapture cap) es (.ok u)) :
    Event.writes es = cap.reads := by
  unfold writeHandshakeCapture at h
  split at h
  case isTrue  => cases h
  case isFalse =>
    obtain ⟨_, h₁, rfl⟩ := send_bind_ok h
    obtain ⟨_, h₂, rfl⟩ := send_bind_ok h₁
    obtain ⟨_, h₃, rfl⟩ := send_bind_ok h₂
    obtain ⟨_, h₄, rfl⟩ := send_bind_ok h₃
    obtain ⟨_, h₅, rfl⟩ := send_bind_ok h₄
    obtain ⟨rfl, -⟩ := Run.send_iff.mp h₅
    rfl

theorem runTwoPcTrafficDemo_writes
    (h : Run eof (runTwoPcTrafficDemo curve compress gcm bincode args rng hs) es (.ok out)) :
    ∃ (cap : HandshakeCapture) (rest : List (Label × Bytes)),
      Event.writes es = (.setupMode, [setup2pcTrafficKeys]) :: cap.reads ++ rest ∧
      cap.outbound = hs.rawOutbound ∧ cap.inbound = hs.rawInbound := by
  obtain ⟨_, es₁, es₂, h₁, _, rfl⟩ := Run.bind_ok_iff.mp h
  obtain ⟨_, h₂, rfl⟩ := send_bind_ok h₁
  obtain ⟨_, _, h₃, rfl⟩ := recv_bind_ok h₂
  split at h₃
  case h_2 => cases h₃
  case h_1 =>
    obtain ⟨_, _, h₄⟩ := expect_bind_ok h₃
    split at h₄
    case h_2 => cases h₄
    case h_1 =>
      simp only at h₄
      split at h₄
      case isTrue  => cases h₄
      case isFalse =>
        obtain ⟨_, es₃, es₄, hc, _, rfl⟩ := Run.bind_ok_iff.mp h₄
        have hw := writeHandshakeCapture_ok hc
        have ha := congrArg (fun ws => (Label.setupMode, [setup2pcTrafficKeys]) ::
          (ws ++ (Event.writes es₄ ++ Event.writes es₂))) hw
        refine ⟨_, _, Eq.trans ?_ ha, rfl, rfl⟩
        simp

theorem runLegacyDemo_writes (h : Run eof (runLegacyDemo curve bincode args rng hs) es (.ok out)) :
    ∃ m rest, m ≠ setup2pcTrafficKeys ∧ Event.writes es = (.setupMode, [m]) :: rest := by
  obtain ⟨_, es₁, es₂, h₁, _, rfl⟩ := Run.bind_ok_iff.mp h
  obtain ⟨_, es₃, es₄, h₀, h₁, rfl⟩ := Run.bind_ok_iff.mp h₁
  unfold runLegacyDemo.phase0 at h₀
  split at h₀
  case isTrue =>
    cases h₀
    obtain ⟨_, _, rfl⟩ := send_bind_ok h₁
    exact ⟨setupLegacyHostMasks, _, by decide, rfl⟩
  case isFalse =>
    obtain ⟨_, _, rfl⟩ := send_bind_ok h₀
    exact ⟨setupNotaryChoosesXorMasks, _, by decide, rfl⟩

end Notary
