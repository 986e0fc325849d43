import NotaryModel.Notary.Ecdh
import NotaryModel.Notary.Transcript

open Common

namespace Notary

structure HandshakeCapture where
  serverEpk     : Arr 32
  certChainHash : Arr 32
  outbound      : Bytes
  inbound       : Bytes

section

variable (compress : Arr 32 → Arr 64 → Arr 32)

def handshakeTranscriptHash (outbound inbound : Bytes) : Arr 32 :=
  Sha256.digest compress <| Bytes.be 8 outbound.length ++ outbound ++
    Bytes.be 8 inbound.length ++ inbound

def keyScheduleContextHash (afterSh afterSf : Arr 32) : Arr 32 :=
  Sha256.digest compress (afterSh.toList ++ afterSf.toList)

def certChainHash (certs : List Bytes) : Arr 32 :=
  Sha256.digest compress <| certs.flatMap fun der => Bytes.be 4 der.length ++ der

end

def maxHandshakeBytes : Nat := 256 * 1024

-- The cast of a length to 32 bits.
def asU32 (n : Nat) : Nat :=
  n % 2 ^ 32

def writeHandshakeCapture (cap : HandshakeCapture) : Wrk17 Unit := do
  if asU32 cap.outbound.length > maxHandshakeBytes ∨
      asU32 cap.inbound.length > maxHandshakeBytes then
    .fail (.other ("handshake capture exceeds " ++ toString maxHandshakeBytes ++
      " bytes per direction"))
  else
    write .captureEpk cap.serverEpk.toList
    write .captureCertHash cap.certChainHash.toList
    write .captureOutboundLen (Bytes.be 4 cap.outbound.length)
    write .captureOutbound cap.outbound
    write .captureInboundLen (Bytes.be 4 cap.inbound.length)
    write .captureInbound cap.inbound

def readHandshakeCapture : Wrk17 HandshakeCapture := do
  let serverEpk ← read .captureEpk 32
  let certChainHash ← read .captureCertHash 32
  let outLenBuf ← read .captureOutboundLen 4
  let outLen := Bytes.ofBe outLenBuf.toList
  if outLen > maxHandshakeBytes then
    .fail (.other ("outbound handshake length " ++ toString outLen ++ " exceeds limit"))
  else
    let outbound ← read .captureOutbound outLen
    let inLenBuf ← read .captureInboundLen 4
    let inLen := Bytes.ofBe inLenBuf.toList
    if inLen > maxHandshakeBytes then
      .fail (.other ("inbound handshake length " ++ toString inLen ++ " exceeds limit"))
    else
      let inbound ← read .captureInbound inLen
      pure { serverEpk, certChainHash, outbound := outbound.toList, inbound := inbound.toList }

def garblingFullAuth : Byte := 3

-- The hashes of the circuit files that are built into the programs.
structure Circuits where
  aesSha256            : Arr 32
  sha256CompressSha256 : Arr 32

variable (files : Circuits)

def productionSessionBinding : SessionBinding where
  serverEpk                   := 0
  certChainHash               := 0
  handshakeTranscriptHash     := 0
  keyScheduleContextHash      := 0
  circuitAesSha256            := files.aesSha256
  circuitSha256CompressSha256 := files.sha256CompressSha256
  garblingMode                := garblingFullAuth

structure VerifiedHandshake where
  afterSh : Arr 32
  afterSf : Arr 32
  binding : SessionBinding

def verifyHandshakeCapture (compress : Arr 32 → Arr 64 → Arr 32) (gcm : Gcm.Open)
    (cap : HandshakeCapture) (ikm : Arr 32) : Except Err VerifiedHandshake := do
  let some epk := parseServerHelloKeyShare cap.inbound
    | throw (.other "ServerHello key_share missing from inbound capture")
  if epk ≠ cap.serverEpk then
    throw (.other "server_epk mismatch (host claimed vs parsed ServerHello)")
  else
    let some certDers := certChainDersFromHandshake compress gcm cap.outbound cap.inbound ikm
      | throw (.other "could not parse Certificate chain from handshake capture")
    let certHash := certChainHash compress certDers
    if certHash ≠ cap.certChainHash then
      throw (.other "cert_chain_hash mismatch (host claimed vs notary-parsed chain)")
    else
      let some (afterSh, afterSf) :=
          transcriptHashesWithIkm compress gcm cap.outbound cap.inbound ikm
        | throw (.other "transcript hash recomputation failed on notary")
      pure {
        afterSh
        afterSf
        binding := { productionSessionBinding files with
          serverEpk               := cap.serverEpk
          certChainHash           := certHash
          handshakeTranscriptHash := handshakeTranscriptHash compress cap.outbound cap.inbound
          keyScheduleContextHash  := keyScheduleContextHash compress afterSh afterSf
        }
      }

section

variable (compress : Arr 32 → Arr 64 → Arr 32)

def notaryVerify.hex (bs : Bytes) : String :=
  .join (bs.map Bytes.hex)

-- The comparison with the captured streams that `notary_verify` makes if it is given both.
def notaryVerify.crossCheck (bundle : NotaryBundle) (outbound inbound : Bytes) :
    Except String Unit :=
  if NotaryBundle.bundleVersionBinding ≤ bundle.bundleVersion then
    let ht := handshakeTranscriptHash compress outbound inbound
    if ht ≠ bundle.binding.handshakeTranscriptHash then
      .error <| "handshake_transcript_hash mismatch: bundle=" ++
        notaryVerify.hex bundle.binding.handshakeTranscriptHash.toList ++ " recomputed=" ++
        notaryVerify.hex ht.toList
    else
      match parseServerHelloKeyShare inbound with
      | none     => .error "parse ServerHello epk"
      | some epk =>
        if epk ≠ bundle.binding.serverEpk then
          .error <| "server_epk mismatch: bundle=" ++
            notaryVerify.hex bundle.binding.serverEpk.toList ++ " parsed=" ++
            notaryVerify.hex epk.toList
        else
          .ok ()
  else
    .ok ()

def notaryVerify (ed : Ed25519) (bundle : NotaryBundle) (outbound? inbound? : Option Bytes) :
    Except String Unit :=
  if bundle.verify ed = true then
    match outbound?, inbound? with
    | some outbound, some inbound => notaryVerify.crossCheck compress bundle outbound inbound
    | _,             _            => .ok ()
  else
    .error "bundle signature verification failed"

end

end Notary
