import NotaryModel.Common.Witness
import NotaryModel.Notary.Proxy

open Common

namespace Notary

structure TlsRecord where
  ct      : Byte
  ver     : UInt16
  payload : Bytes
  raw     : Bytes

-- `tcp` is what is unread on the socket; the second component of the result is what is left of it.
def readTlsRecord : Bytes → Option (TlsRecord × Bytes)
  | ct :: v₀ :: v₁ :: l₀ :: l₁ :: tcp =>
    let ver := .ofNat (Bytes.ofBe [v₀, v₁])
    let len := Bytes.ofBe [l₀, l₁]
    if len > 16640 ∨ tcp.length < len then
      none
    else
      let payload := tcp.take len
      some ({ ct, ver, payload, raw := [ct, v₀, v₁, l₀, l₁] ++ payload }, tcp.drop len)
  | _ => none

theorem readTlsRecord_length_lt (h : readTlsRecord tcp = some (r, tcp')) :
    tcp'.length < tcp.length := by
  unfold readTlsRecord at h
  split at h
  case h_1 =>
    simp only [Option.ite_none_left_eq_some, Option.some.injEq, Prod.mk.injEq] at h
    obtain ⟨-, -, rfl⟩ := h
    simp only [List.length_drop, List.length_cons]
    omega
  case h_2 => cases h

-- The records that are read from the socket until the first error.
def readTlsRecords (tcp : Bytes) : List TlsRecord :=
  match _h : readTlsRecord tcp with
  | none           => []
  | some (r, tcp') => r :: readTlsRecords tcp'
termination_by tcp.length
decreasing_by exact readTlsRecord_length_lt _h

def buildTlsRecord (ct : Byte) (ver : UInt16) (payload : Bytes) : Bytes :=
  [ct] ++ Bytes.be 2 ver.toNat ++ Bytes.be 2 payload.length ++ payload

-- The loop over the response records, of which the result is the decrypted response and what is
-- appended to `raw_inbound`. Only one of the two demos stops at an alert.
def readResponse (kCRx : Arr 16) (rxIv : Arr 12) (stopAtAlert : Bool) :
    List TlsRecord → UInt64 → Wrk17 (Bytes × Bytes)
  | [], _ => pure ([], [])
  | r :: rs, rxSeq => do
    if r.ct ≠ 0x17 then
      pure ([], r.raw)
    else if r.payload.length < 16 then
      .fail (.other "short record")
    else
      let aad := tls13Aad r.payload.length
      let tagStart := r.payload.length - 16
      let tag := Arr.ofBytes 16 (r.payload.drop tagStart)
      let ct := r.payload.take tagStart
      let plain ← decryptOne kCRx rxIv ct tag aad rxSeq
      let buf := plain.rdropWhile (· == 0)
      match buf.getLast? with
      | none         => .fail (.other "empty decrypted record")
      | some innerCt =>
        if stopAtAlert && innerCt == 0x15 then
          pure ([], r.raw)
        else
          let (full, raw) ← readResponse kCRx rxIv stopAtAlert rs (rxSeq + 1)
          pure ((if innerCt = 0x17 then buf.dropLast else []) ++ full, r.raw ++ raw)

-- What the demos know when they take over the record layer: the server's name, the request, the
-- socket, the captured bytes of both directions and the time.
structure Takeover where
  host        : String
  queryPath   : String
  tcp         : Bytes
  rawInbound  : Bytes
  rawOutbound : Bytes
  now         : Nat

structure DemoOutput where
  full        : Bytes
  bundle      : NotaryBundle
  rawInbound  : Bytes
  rawOutbound : Bytes
  kCTx        : Arr 16
  kCRx        : Arr 16

def Takeover.httpRequest (t : Takeover) : Bytes :=
  Bytes.ofString <| "GET " ++ t.queryPath ++ " HTTP/1.1\r\nHost: " ++ t.host ++
    "\r\nConnection: close\r\nAccept: */*\r\n\r\n"

section

variable (bincode : Bincode) (t : Takeover)

-- Phases 4 to 6: the request record, the response records and the bundle.
def takeOver (kCTx : Arr 16) (txIv : Arr 12) (kCRx : Arr 16) (rxIv : Arr 12) (txSeq rxSeq : UInt64)
    (stopAtAlert : Bool) : Wrk17 DemoOutput := do
  let inner := t.httpRequest ++ [0x17]
  let aad := tls13Aad (inner.length + 16)
  let (ct, tag) ← encryptOne kCTx txIv inner aad txSeq
  let reqRaw := buildTlsRecord 0x17 0x0303 (ct ++ tag.toList)
  let (full, raw) ← readResponse kCRx rxIv stopAtAlert (readTlsRecords t.tcp) rxSeq
  let sessionId := "demo-" ++ t.host ++ "-" ++ toString t.now
  let bundle ← clientFinishSession bincode sessionId t.host
  pure {
    full
    bundle
    rawInbound := t.rawInbound ++ raw
    rawOutbound := t.rawOutbound ++ reqRaw
    kCTx
    kCRx
  }

-- The part of `run_legacy_demo` on the notary channel.
def runLegacyDemo.session (kCTx : Arr 16) (txIv : Arr 12) (kCRx : Arr 16) (rxIv : Arr 12)
    (txSeq rxSeq : UInt64) : Wrk17 DemoOutput := do
  wrk17Init
  takeOver bincode t kCTx txIv kCRx rxIv txSeq rxSeq true

-- The part of `run_two_pc_traffic_demo` after the ECDH round.
def runTwoPcTrafficDemo.session (compress : Arr 32 → Arr 64 → Arr 32)
    (hostIkmShare afterSh afterSf : Arr 32) (txIv rxIv : Arr 12) : Wrk17 DemoOutput := do
  wrk17Init
  let traffic ← clientTls13ClientTrafficFromIkmShares compress hostIkmShare afterSh afterSf
  takeOver bincode t traffic.kCTx txIv traffic.kCRx rxIv 0 0 false

end

-- The flags of the demo that concern the setup.
structure Args where
  legacyHostXorMasks : Bool
  skipEcdhWire       : Bool
  leakyEcdhWire      : Bool
  verifyRustlsKeys   : Bool

-- What the host draws in the setup of a session.
structure HostRandom where
  kNTx      : Arr 16
  kNRx      : Arr 16
  ecdhShare : Arr 32

-- What the host holds after the TLS handshake: besides the captured bytes the certificates of the
-- peer and the extracted traffic secrets with their sequence numbers.
structure Handshaken extends Takeover where
  peerCertificates : Option (List Bytes)
  txSeq            : UInt64
  rxSeq            : UInt64
  txKey            : Arr 16
  txIv             : Arr 12
  rxKey            : Arr 16
  rxIv             : Arr 12

-- The keys that a host runs the record layer with.
structure HostKeys where
  kCTx : Arr 16
  txIv : Arr 12
  kCRx : Arr 16
  rxIv : Arr 12

section

variable (curve : Curve25519)

-- Phase 0: the masks and the two scalar shares, if the notary chooses them.
def runLegacyDemo.phase0 (args : Args) (rng : HostRandom) :
    Wrk17 (Arr 16 × Arr 16 × Option (EphemeralShare curve × EphemeralShare curve)) :=
  if args.legacyHostXorMasks then
    pure (0, 0, none)
  else do
    write .setupMode [setupNotaryChoosesXorMasks]
    let kn ← read .masks 32
    let notaryScalar ← read .scalarShare 32
    let kNTx := Arr.ofBytes 16 (Bytes.slice kn.toList 0 16)
    let kNRx := Arr.ofBytes 16 (Bytes.slice kn.toList 16 32)
    let notaryShare := shareFromBytes curve notaryScalar
    let hostShare := generateShare curve rng.ecdhShare
    pure (kNTx, kNRx, some (hostShare, notaryShare))

variable {curve}

-- The ECDH round of phase 3.
def runLegacyDemo.ecdh (args : Args) (serverEpk : Option (Arr 32))
    (hostShare notaryShare : EphemeralShare curve) : Wrk17 Unit := do
  if args.skipEcdhWire then
    hostSkipEcdhLeaky
  else
    match serverEpk with
    | some epk =>
      if args.leakyEcdhWire then
        let _ ← hostSendEcdhLeaky hostShare notaryShare epk
      else
        let _ ← hostSendEcdhOt hostShare epk
    | none => hostSkipEcdhLeaky

variable (curve)

-- Phases 0 to 3.
def runLegacyDemo.setup (args : Args) (rng : HostRandom) (h : Handshaken) : Wrk17 HostKeys := do
  let (kNTx, kNRx, notaryPreTls) ← runLegacyDemo.phase0 curve args rng
  let serverEpk := parseServerHelloKeyShare h.rawInbound
  let kCTx := h.txKey ^^^ kNTx
  let kCRx := h.rxKey ^^^ kNRx
  match notaryPreTls with
  | some (hostShare, notaryShare) =>
    write .ivTx h.txIv.toList
    write .ivRx h.rxIv.toList
    runLegacyDemo.ecdh args serverEpk hostShare notaryShare
  | none =>
    let kNTx := rng.kNTx
    let kNRx := rng.kNRx
    write .setupMode [setupLegacyHostMasks]
    let setup := Arr.copyAt (n := 56) 0 0 kNTx.toList
    let setup := setup.copyAt 16 h.txIv.toList
    let setup := setup.copyAt 28 kNRx.toList
    let setup := setup.copyAt 44 h.rxIv.toList
    write .setupFrame setup.toList
  pure { kCTx, txIv := h.txIv, kCRx, rxIv := h.rxIv }

def runLegacyDemo (bincode : Bincode) (args : Args) (rng : HostRandom) (h : Handshaken) :
    Wrk17 DemoOutput := do
  let keys ← runLegacyDemo.setup curve args rng h
  runLegacyDemo.session bincode h.toTakeover keys.kCTx keys.txIv keys.kCRx keys.rxIv h.txSeq h.rxSeq

-- What the host holds after the ECDH round in mode 2.
structure TwoPcHost where
  hostIkmShare : Arr 32
  afterSh      : Arr 32
  afterSf      : Arr 32
  txIv         : Arr 12
  rxIv         : Arr 12

variable (compress : Arr 32 → Arr 64 → Arr 32) (gcm : Gcm.Open)

-- Phases 0 to 3.
def runTwoPcTrafficDemo.setup (args : Args) (rng : HostRandom) (h : Handshaken) :
    Wrk17 TwoPcHost := do
  write .setupMode [setup2pcTrafficKeys]
  let notaryScalar ← read .scalarShare 32
  let notaryShare := shareFromBytes curve notaryScalar
  let hostShare := generateShare curve rng.ecdhShare
  let some serverEpk := parseServerHelloKeyShare h.rawInbound
    | .fail (.other "no server epk")
  let certHash := (certChainHash compress <$> h.peerCertificates).getD 0
  let ikmOracle ← referenceIkm! hostShare notaryShare serverEpk
  let some (afterSh, afterSf) := transcriptHashesWithIkm compress gcm h.rawOutbound h.rawInbound ikmOracle
    | .fail (.other "transcript hashes")
  let ref := referenceTls13ClientTraffic compress ikmOracle afterSh afterSf
  if args.verifyRustlsKeys ∧ (h.txKey ≠ ref.txKey ∨ h.txIv ≠ ref.txIv ∨ h.rxKey ≠ ref.rxKey ∨
      h.rxIv ≠ ref.rxIv) then
    .fail (.panic "assertion `left == right` failed")
  else
    writeHandshakeCapture {
      serverEpk
      certChainHash := certHash
      outbound := h.rawOutbound
      inbound := h.rawInbound
    }
    let hostIkmShare ← hostSendEcdhOt hostShare serverEpk
    pure { hostIkmShare, afterSh, afterSf, txIv := ref.txIv, rxIv := ref.rxIv }

def runTwoPcTrafficDemo (bincode : Bincode) (args : Args) (rng : HostRandom) (h : Handshaken) :
    Wrk17 DemoOutput := do
  let s ← runTwoPcTrafficDemo.setup curve compress gcm args rng h
  runTwoPcTrafficDemo.session bincode h.toTakeover compress s.hostIkmShare s.afterSh s.afterSf s.txIv
    s.rxIv

-- `main`
def notaryDemo (twoPcTrafficKeys : Bool) (bincode : Bincode) (args : Args) (rng : HostRandom)
    (h : Handshaken) : Wrk17 DemoOutput :=
  if twoPcTrafficKeys then
    runTwoPcTrafficDemo curve compress gcm bincode args rng h
  else
    runLegacyDemo curve bincode args rng h

end

-- What `print_demo_output` writes for the prover.
def DemoOutput.witness (out : DemoOutput) (host : String) : TlsWitness where
  eskClient   := 0
  rawInbound  := out.rawInbound
  rawOutbound := out.rawOutbound
  hostname    := host
  notary      := some { bundle := out.bundle, kCTx := out.kCTx, kCRx := out.kCRx }

end Notary
