import NotaryModel.Common.Witness
import NotaryModel.Crypto.Hkdf
import NotaryModel.Guest.CertificateVerify
import NotaryModel.Guest.KeyShare

open Common

-- What the guest uses of `x25519_dalek`.
structure X25519 where
  publicKey     : Arr 32 → Arr 32
  diffieHellman : Arr 32 → Arr 32 → Arr 32

namespace Guest

open Exec (expect assert index)

section

variable (compress : Arr 32 → Arr 64 → Arr 32)

def expandLabel (prk : Bytes) (label : String) (context : Bytes) (len : Nat) : Exec Bytes := do
  let fullLabel := Bytes.ofString ("tls13 " ++ label)
  let info := Bytes.be 2 len ++ Bytes.be 1 fullLabel.length ++ fullLabel ++
    Bytes.be 1 context.length ++ context
  assert (32 ≤ prk.length) "valid PRK"
  expect "HKDF-Expand-Label" <| Hkdf.expand compress prk info len

def emptyHash : Arr 32 :=
  Sha256.digest compress []

def main.recordKeys (secret : Bytes) : Exec (Arr 16 × Arr 12) := do
  let key ← expandLabel compress secret "key" [] 16
  let iv ← expandLabel compress secret "iv" [] 12
  pure (.ofBytes 16 key, .ofBytes 12 iv)

structure HandshakeSecrets where
  serverHsSecret : Bytes
  masterSecret   : Arr 32
  hsKey          : Arr 16
  hsIv           : Arr 12

def main.keySchedule (ecdh transcriptAfterSh : Arr 32) : Exec HandshakeSecrets := do
  let earlySecret := Hkdf.extract compress (0 : Arr 32).toList (0 : Arr 32).toList
  let derived1 ← expandLabel compress earlySecret.toList "derived" (emptyHash compress).toList 32
  let hsSecret := Hkdf.extract compress derived1 ecdh.toList
  let serverHsSecret ←
    expandLabel compress hsSecret.toList "s hs traffic" transcriptAfterSh.toList 32
  let derived2 ← expandLabel compress hsSecret.toList "derived" (emptyHash compress).toList 32
  let masterSecret := Hkdf.extract compress derived2 (0 : Arr 32).toList
  let (hsKey, hsIv) ← main.recordKeys compress serverHsSecret
  pure { serverHsSecret, masterSecret, hsKey, hsIv }

def main.transcriptAfterSh (rawOutbound rawInbound : Bytes) : Exec (Arr 32) := do
  let outRecords ← parseRecords rawOutbound
  let inRecords ← parseRecords rawInbound
  let ch ← expect "ClientHello record not found" <| outRecords.find? (·.contentType == 22)
  let sh ← expect "ServerHello record not found" <| inRecords.find? (·.contentType == 22)
  pure (Sha256.digest compress (ch.payload ++ sh.payload))

end

def hsCertificate : Byte := 11
def hsCertificateVerify : Byte := 15
def hsFinished : Byte := 20

-- The variables of the loop over the handshake records.
structure HsLoop where
  handshakeMessages   : List Bytes
  hsSeq               : UInt64
  certChainDer        : Option (List Bytes)
  certVerifyMsg       : Option Bytes
  serverFinishedBody  : Option Bytes
  handshakeDone       : Bool
  encryptedAppRecords : List Bytes

def main.handshakeMessage (s : HsLoop) (msg : HandshakeMsg) : Exec HsLoop :=
  let raw := hsHeader msg ++ msg.body
  if msg.msgType = hsCertificate then do
    let certs ← parseCertMessage msg.body
    let certs ← expect "parse Certificate failed" certs.toOption
    pure { s with
      certChainDer      := some certs
      handshakeMessages := s.handshakeMessages ++ [raw]
    }
  else if msg.msgType = hsCertificateVerify then
    pure { s with
      certVerifyMsg     := some msg.body
      handshakeMessages := s.handshakeMessages ++ [raw]
    }
  else if msg.msgType = hsFinished then
    pure { s with
      serverFinishedBody := some msg.body
      handshakeMessages  := s.handshakeMessages ++ [raw]
      handshakeDone      := true
    }
  else
    pure { s with handshakeMessages := s.handshakeMessages ++ [raw] }

def main.handshakeRecord (gcm : Gcm.Open) (key : Arr 16) (iv : Arr 12) (s : HsLoop)
    (r : RawRecord) : Exec HsLoop :=
  if r.contentType ≠ 23 then
    pure s
  else if s.handshakeDone then
    pure { s with encryptedAppRecords := s.encryptedAppRecords ++ [recordToBytes r] }
  else do
    let (plaintext, innerCt) ←
      expect "HS record decrypt failed" (decryptRecord gcm key iv s.hsSeq r).toOption
    let s := { s with hsSeq := s.hsSeq + 1 }
    if innerCt = 23 then
      pure { s with
        handshakeDone       := true
        encryptedAppRecords := s.encryptedAppRecords ++ [recordToBytes r]
      }
    else
      let msgs ← expect "parse HS messages failed" (parseHandshakeMessages plaintext).toOption
      msgs.foldlM main.handshakeMessage s

structure Handshake where
  handshakeMessages   : List Bytes
  certChainDer        : List Bytes
  certVerifyMsg       : Bytes
  serverFinishedBody  : Bytes
  encryptedAppRecords : List Bytes

-- Step 4 of the guest.
def main.handshake (gcm : Gcm.Open) (key : Arr 16) (iv : Arr 12) (rawOutbound rawInbound : Bytes) :
    Exec Handshake := do
  let outRecords ← parseRecords rawOutbound
  let inRecords ← parseRecords rawInbound
  let ch ← expect "ClientHello not found" <| outRecords.find? (·.contentType == 22)
  let sh ← expect "ServerHello not found" <| inRecords.find? (·.contentType == 22)
  let s ← inRecords.foldlM (main.handshakeRecord gcm key iv) {
    handshakeMessages   := [ch.payload, sh.payload]
    hsSeq               := 0
    certChainDer        := none
    certVerifyMsg       := none
    serverFinishedBody  := none
    handshakeDone       := false
    encryptedAppRecords := []
  }
  assert (6 ≤ s.handshakeMessages.length)
    ("need at least 6 handshake messages, got " ++ toString s.handshakeMessages.length)
  let certChainDer ← expect "Certificate message not found" s.certChainDer
  let certVerifyMsg ← expect "CertificateVerify not found" s.certVerifyMsg
  let serverFinishedBody ← expect "ServerFinished not found" s.serverFinishedBody
  pure {
    handshakeMessages   := s.handshakeMessages
    certChainDer
    certVerifyMsg
    serverFinishedBody
    encryptedAppRecords := s.encryptedAppRecords
  }

section

variable (compress : Arr 32 → Arr 64 → Arr 32)

structure Transcripts where
  beforeCv       : Arr 32
  beforeFinished : Arr 32
  afterFinished  : Arr 32

-- Step 5 of the guest.
def main.transcripts (handshakeMessages : List Bytes) : Transcripts where
  beforeCv       := Sha256.digest compress (handshakeMessages.take 4).flatten
  beforeFinished := Sha256.digest compress (handshakeMessages.take 5).flatten
  afterFinished  := Sha256.digest compress (handshakeMessages.take 6).flatten

-- Step 6 of the guest.
def main.verifyFinished (serverHsSecret : Bytes) (transcriptBeforeFinished : Arr 32)
    (serverFinishedBody : Bytes) : Exec Unit := do
  let finishedKey ← expandLabel compress serverHsSecret "finished" [] 32
  let expected := Sha256.hmac compress finishedKey transcriptBeforeFinished.toList
  assert (expected.toList = serverFinishedBody) "Server Finished HMAC verification failed"

end

-- An application record after its decryption, without its last byte.
def main.openAppRecord (gcm : Gcm.Open) (key : Arr 16) (iv : Arr 12) (seq : UInt64)
    (recordBytes : Bytes) : Exec (Bytes × Byte) := do
  assert (5 ≤ recordBytes.length) "assertion failed: record_bytes.len() >= 5"
  let ct ← index recordBytes 0
  let version := UInt16.ofNat (Bytes.ofBe (Bytes.slice recordBytes 1 3))
  let payload := recordBytes.drop 5
  let nonce := xorNonce iv seq
  let aad := recordAad ct version payload
  let (buf, tag) ← splitTag payload
  let buf ← expect "AES-GCM app record auth failed" <| gcm key nonce aad buf tag
  let innerCt ← expect "empty decrypted record" buf.getLast?
  pure (buf.dropLast, innerCt)

-- The loop of step 10 over the records from number `seq` on.
def main.appRecords (gcm : Gcm.Open) (key : Arr 16) (iv : Arr 12) : List Bytes → Nat → Exec Bytes
  | [], _                   => pure []
  | recordBytes :: records, seq => do
    let (buf, innerCt) ← main.openAppRecord gcm key iv (.ofNat seq) recordBytes
    let plaintext ← main.appRecords gcm key iv records (seq + 1)
    pure ((if innerCt = 23 then buf else []) ++ plaintext)

-- What the self-proving path has established before it looks into the response.
structure SelfProved where
  handshake   : Handshake
  transcripts : Transcripts
  plaintext   : Bytes

-- Steps 1 to 10 of the guest.
def main.selfProve (x25519 : X25519) (compress : Arr 32 → Arr 64 → Arr 32) (gcm : Gcm.Open)
    (pki : Pkix) (witness : TlsWitness) : Exec SelfProved := do
  let epkClientWire? ← parseClientHelloKeyShare witness.rawOutbound
  let epkClientWire ← expect "epk_client not found in ClientHello key_share" epkClientWire?
  assert (x25519.publicKey witness.eskClient = epkClientWire)
    "epk_client in ClientHello does not match esk_client"
  let epkServer? ← parseServerHelloKeyShare witness.rawInbound
  let epkServer ← expect "epk_server not found in ServerHello key_share" epkServer?
  let ecdh := x25519.diffieHellman witness.eskClient epkServer
  let transcriptAfterSh ← main.transcriptAfterSh compress witness.rawOutbound witness.rawInbound
  let secrets ← main.keySchedule compress ecdh transcriptAfterSh
  let handshake ←
    main.handshake gcm secrets.hsKey secrets.hsIv witness.rawOutbound witness.rawInbound
  let transcripts := main.transcripts compress handshake.handshakeMessages
  main.verifyFinished compress secrets.serverHsSecret transcripts.beforeFinished
    handshake.serverFinishedBody
  let _ ← verifyCertChain pki.toPki handshake.certChainDer
  let leafDer ← index handshake.certChainDer 0
  let leaf ← expect "invalid DER cert" <| pki.certificateFromDer leafDer
  verifyHostname pki leaf witness.hostname
  certificateVerify pki (pki.subjectPublicKeyInfo leaf) handshake.certVerifyMsg transcripts.beforeCv
  let serverAppSecret ← expandLabel compress secrets.masterSecret.toList "s ap traffic"
    transcripts.afterFinished.toList 32
  let (appKey, appIv) ← main.recordKeys compress serverAppSecret
  let plaintext ← main.appRecords gcm appKey appIv handshake.encryptedAppRecords 0
  pure { handshake, transcripts, plaintext }

end Guest
