import NotaryModel.Agreement.ServerKey
import NotaryModel.Notary.Theorems.Hkdf
import NotaryModel.Notary.Theorems.IkmShares
import NotaryModel.Notary.Demo

open Notary Tls Exchange

namespace Notary

variable {aes : Arr 16 → Arr 16 → Arr 16} {compress : Arr 32 → Arr 64 → Arr 32}

theorem capture_scheduled {cap : HandshakeCapture} (ho : cap.outbound.length ≤ maxHandshakeBytes)
    (hi : cap.inbound.length ≤ maxHandshakeBytes) :
    Scheduled (circuits aes compress) readHandshakeCapture (writeHandshakeCapture cap)
      fun c _ => c = cap := by
  have hmax : maxHandshakeBytes < 2 ^ 32 := by decide
  have hw : Run False (writeHandshakeCapture cap) (cap.reads.map fun x => .write x.1 x.2)
      (.ok ()) := by
    rw [writeHandshakeCapture, if_neg]
    case hnc =>
      rw [asU32, asU32, Nat.mod_eq_of_lt (ho.trans_lt hmax), Nat.mod_eq_of_lt (hi.trans_lt hmax)]
      omega
    exact .write <| .write <| .write <| .write <| .write <| .write .pure
  refine fun _ _ => ⟨cap, (), _, _, rfl, readHandshakeCapture_run cap ho hi, hw, ?_, trivial⟩
  exact .read_write <| .read_write <| .read_write <| .read_write <| .read_write <|
    .read_write .nil

-- The key schedule consists of joint sessions.
section

variable {inner : Wrk17 (Arr 64)}

theorem notaryHmac_strict (h : inner.Strict) : (notaryHmac k inner).Strict :=
  .bind .join fun _ => .bind h fun _ => .bind .join fun _ => .bind .join fun _ => .join

theorem clientHmac_strict (h : inner.Strict) : (clientHmac k inner).Strict :=
  .bind .join fun _ => .bind h fun _ => .bind .join fun _ => .bind .join fun _ => .join

theorem notaryHmacSha256_strict : (notaryHmacSha256 k n).Strict := by
  refine notaryHmac_strict ?_
  unfold notaryInnerPadding
  split
  case isTrue  => exact .pure
  case isFalse => exact .fail

theorem clientHmacSha256_strict : (clientHmacSha256 k msg).Strict := by
  refine clientHmac_strict ?_
  unfold clientInnerMsg
  split
  case isTrue  => exact .pure
  case isFalse => exact .fail

theorem notaryTls13ClientTraffic_strict :
    (notaryTls13ClientTrafficFromIkmShares compress ikm afterSh afterSf).Strict := by
  have h {k n} : (notaryHmacSha256 k n).Strict := notaryHmacSha256_strict
  exact .bind (notaryHmac_strict .pure) fun _ => .bind h fun _ => .bind h fun _ => .bind h fun _ =>
    .bind h fun _ => .bind h fun _ => .bind h fun _ => .bind h fun _ => .bind h fun _ =>
    .bind h fun _ => .pure

theorem clientTls13ClientTraffic_strict :
    (clientTls13ClientTrafficFromIkmShares compress ikm afterSh afterSf).Strict := by
  have h {k msg} : (clientHmacSha256 k msg).Strict := clientHmacSha256_strict
  exact .bind (clientHmac_strict .pure) fun _ => .bind h fun _ => .bind h fun _ => .bind h fun _ =>
    .bind h fun _ => .bind h fun _ => .bind h fun _ => .bind h fun _ => .bind h fun _ =>
    .bind h fun _ => .pure

variable (compress) in
theorem tls13ClientTraffic_run (ikm afterSh afterSf : Arr 32) :
    (∃ es n, Run False (notaryTls13ClientTrafficFromIkmShares compress ikm afterSh afterSf) es
      (.ok n)) ∧
    ∃ es c, Run False (clientTls13ClientTrafficFromIkmShares compress ikm afterSh afterSf) es
      (.ok c) := by
  have h : Meets (circuits (fun _ _ => 0) compress) 40
      (notaryTls13ClientTrafficFromIkmShares compress ikm afterSh afterSf)
      (clientTls13ClientTrafficFromIkmShares compress ikm afterSh afterSf) _ :=
    tls13ClientTraffic_meets
  exact h.exists_run notaryTls13ClientTraffic_strict clientTls13ClientTraffic_strict

end

end Notary

namespace Agreement

section

variable {curve : Curve25519} [AddCommGroup curve.Point] {compress : Arr 32 → Arr 64 → Arr 32}
variable {aes : Arr 16 → Arr 16 → Arr 16} {enc : Gcm.Seal} {gcm : Gcm.Open} {files : Circuits}
variable {s : Session} {args : Args} {rng : ProxyRandom} {rng' : HostRandom} {h : Handshaken}

variable (aes compress files args rng rng' h) in
-- With the capture of a standard session the setup in mode 2 completes, and the two ends hold shares
-- of the IKM.
theorem twoPcSetup_scheduled (peer : String) (hc : curve.Lawful) (hg : Gcm.Correct enc gcm)
    (hs : s.Standard enc key iv)
    (hk : referenceServerHsKeys compress ikm (s.afterSh compress) = (key, iv))
    (hp : parseServerHelloKeyShare s.rawInbound = some epk) (he : curve.toEdwards epk = some P)
    (hi : referenceIkm (generateShare curve rng'.ecdhShare) (generateShare curve rng.ecdhShare) epk =
      some ikm)
    (hinp : h.rawInbound = s.rawInbound) (hout : h.rawOutbound = s.rawOutbound)
    (hcert : h.peerCertificates = some (s.flight.entries.map CertificateEntry.der))
    (hv : args.verifyRustlsKeys = false) (hlo : s.rawOutbound.length ≤ maxHandshakeBytes)
    (hli : s.rawInbound.length ≤ maxHandshakeBytes) :
    Scheduled (circuits aes compress) (readSetupFrame curve compress gcm files rng peer)
      (runTwoPcTrafficDemo.setup curve compress gcm args rng' h) fun keys host =>
        ∃ setup, keys = .twoPcPending setup ∧ host.hostIkmShare ^^^ setup.ikmN = ikm ∧
          setup.ikmFull = ikm := by
  obtain ⟨verified, hverified⟩ := hs.verifies compress files ikm hg hk hp
  have ht := hs.transcriptHashes_eq compress ikm hg hk
  have hmade : (generateShare curve rng.ecdhShare).Made := .inl ⟨_, rfl⟩
  unfold readSetupFrame runTwoPcTrafficDemo.setup
  refine .bind (.recv_send (Φ := fun v _ => v = #v[setup2pcTrafficKeys]) rfl) ?_
  rintro _ _ rfl
  change Scheduled _ (readSetupFrame.twoPc curve compress gcm files rng peer) _ _
  unfold readSetupFrame.twoPc
  refine .bind (.send_recv (Φ := fun _ v => v = shareToBytes _) rfl) ?_
  rintro _ _ rfl
  simp only [hinp, hout, hp, hcert, hmade.shareFromBytes_eq, referenceIkm!, hi, expect, ht, hv,
    Prog.pure_eq, Prog.pure_bind, Bool.false_eq_true, false_and, if_false, Option.map_eq_map,
    Option.map_some, Option.getD_some]
  refine .bind (capture_scheduled hlo hli) ?_
  rintro _ _ rfl
  refine .bind (ecdhOt_scheduled hc (.inl ⟨_, rfl⟩) he hi _ _) ?_
  rintro _ share ⟨o, rfl, hx, -, rfl⟩
  dsimp only [Prog.pure_eq, Prog.pure_bind]
  rw [hverified]
  exact .pure ⟨_, rfl, hx, rfl⟩

end

end Agreement
