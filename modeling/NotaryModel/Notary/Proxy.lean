import NotaryModel.Notary.Handshake

open Common

namespace Notary

def setupLegacyHostMasks : Byte := 0
def setupNotaryChoosesXorMasks : Byte := 1
def setup2pcTrafficKeys : Byte := 2

inductive SetupKeys
  | preSplit (kNTx : Arr 16) (ivTx : Arr 12) (kNRx : Arr 16) (ivRx : Arr 12)
  | twoPcPending (setup : TwoPcTrafficSetup)

-- What the notary draws in the setup of a session.
structure ProxyRandom where
  kNTx      : Arr 16
  kNRx      : Arr 16
  ecdhShare : Arr 32
  leakyMask : Arr 32
  ot        : OtRandom

section

variable (curve : Curve25519) (compress : Arr 32 → Arr 64 → Arr 32) (gcm : Gcm.Open)
variable (files : Circuits)

def readSetupFrame.legacy : Wrk17 SetupKeys := do
  let frame ← read .setupFrame 56
  let bytes := frame.toList
  pure <| .preSplit (.ofBytes 16 (Bytes.slice bytes 0 16)) (.ofBytes 12 (Bytes.slice bytes 16 28))
    (.ofBytes 16 (Bytes.slice bytes 28 44)) (.ofBytes 12 (Bytes.slice bytes 44 56))

def readSetupFrame.notaryMasks (rng : ProxyRandom) : Wrk17 SetupKeys := do
  let ecdhShare := generateShare curve rng.ecdhShare
  let kn := Arr.copyAt (n := 32) 0 0 rng.kNTx.toList
  let kn := kn.copyAt 16 rng.kNRx.toList
  write .masks kn.toList
  write .scalarShare (shareToBytes ecdhShare).toList
  let ivTx ← read .ivTx 12
  let ivRx ← read .ivRx 12
  let _ ← notaryRecvEcdhSetup ecdhShare rng.leakyMask rng.ot
  pure (.preSplit rng.kNTx ivTx rng.kNRx ivRx)

def readSetupFrame.twoPc (rng : ProxyRandom) (peer : String) : Wrk17 SetupKeys := do
  let ecdhShare := generateShare curve rng.ecdhShare
  write .scalarShare (shareToBytes ecdhShare).toList
  let cap ← readHandshakeCapture
  let outcome ← notaryRecvEcdhSetup ecdhShare rng.leakyMask rng.ot
  let (ikmN, ikmFull) ←
    match outcome with
    | .skipped       => .fail (.other ("2PC traffic setup requires ECDH from " ++ peer))
    | .leaky outcome => pure (outcome.notaryIkmShare, outcome.ikm)
    | .ot outcome    => pure (outcome.notaryIkmShare, outcome.ikm)
  match verifyHandshakeCapture files compress gcm cap ikmFull with
  | .error e     => .fail e
  | .ok verified =>
    pure <| .twoPcPending {
      ikmN
      afterSh := verified.afterSh
      afterSf := verified.afterSf
      ikmFull
      binding := verified.binding
    }

def readSetupFrame (rng : ProxyRandom) (peer : String) : Wrk17 SetupKeys := do
  let mode ← read .setupMode 1
  if mode.byte = setupLegacyHostMasks then
    readSetupFrame.legacy
  else if mode.byte = setupNotaryChoosesXorMasks then
    readSetupFrame.notaryMasks curve rng
  else if mode.byte = setup2pcTrafficKeys then
    readSetupFrame.twoPc curve compress gcm files rng peer
  else
    .fail (.other ("unknown setup mode 0x" ++ Bytes.hex mode.byte ++ " from " ++ peer))

variable (ed : Ed25519) (bincode : Bincode)

-- What the proxy does once the setup is complete.
def handle.worker (signingKey : ed.SigningKey) (now : UInt64) (fuel : Nat) :
    SetupKeys → Wrk17 (Option NotaryBundle)
  | .preSplit kNTx ivTx kNRx ivRx =>
    let w : Worker ed := {
      signingKey := some signingKey
      kNTx
      ivTx
      kNRx
      ivRx
      binding := productionSessionBinding files
      now
    }
    runNotaryWorkerAttested compress bincode w fuel
  | .twoPcPending setup =>
    runNotaryWorkerAttested2pc compress ed bincode signingKey now setup fuel

def handle (rng : ProxyRandom) (peer : String) (signingKey : ed.SigningKey) (now : UInt64)
    (fuel : Nat) : Wrk17 (Option NotaryBundle) := do
  let keys ← readSetupFrame curve compress gcm files rng peer
  handle.worker compress files ed bincode signingKey now fuel keys

end

end Notary
