import NotaryModel.Common.Bundle
import NotaryModel.Notary.Aes
import NotaryModel.Notary.Hkdf

open Common

namespace Notary

-- What the programs use of `bincode`.
structure Bincode where
  serialize   : NotaryBundle → Except String Bytes
  deserialize : Bytes → Except String NotaryBundle

def tls13Nonce (baseIv : Arr 12) (seq : UInt64) : Arr 12 :=
  baseIv ^^^ Arr.copyAt 0 4 (Bytes.be 8 seq.toNat)

def tls13Aad (payloadLenAfterEnc : Nat) : Bytes :=
  [0x17, 0x03, 0x03] ++ Bytes.be 2 payloadLenAfterEnc

def opEncrypt : Byte := 0x01
def opDecrypt : Byte := 0x02
def opFinish : Byte := 0x03
def op2pcHkdf : Byte := 0x04

structure Header where
  op         : Byte
  seq        : UInt64
  aad        : Bytes
  payloadLen : UInt32

def writeHeader (h : Header) : Wrk17 Unit := do
  write .op [h.op]
  write .seq (Bytes.be 8 h.seq.toNat)
  write .aadLen (Bytes.be 2 h.aad.length)
  write .aad h.aad
  write .payloadLen (Bytes.be 4 h.payloadLen.toNat)

def readHeader : Wrk17 Header := do
  let op ← read .op 1
  let seqBuf ← read .seq 8
  let aadLenBuf ← read .aadLen 2
  let aad ← read .aad (Bytes.ofBe aadLenBuf.toList)
  let plBuf ← read .payloadLen 4
  pure {
    op := op.byte
    seq := .ofNat (Bytes.ofBe seqBuf.toList)
    aad := aad.toList
    payloadLen := .ofNat (Bytes.ofBe plBuf.toList)
  }

-- What the notary's end of a session is started with. `now` is what the system clock shows when the
-- bundle is signed.
structure Worker (ed : Ed25519) where
  signingKey : Option ed.SigningKey
  kNTx       : Arr 16
  ivTx       : Arr 12
  kNRx       : Arr 16
  ivRx       : Arr 12
  binding    : SessionBinding
  now        : UInt64

section

variable (compress : Arr 32 → Arr 64 → Arr 32)

def readCommit (payloadLen : Nat) : Wrk17 (Arr 32) := do
  let ct ← read .commit payloadLen
  let tag ← read .commitTag 16
  pure <| Sha256.digest compress (ct.toList ++ tag.toList)

variable {ed : Ed25519} (bincode : Bincode) (w : Worker ed)

-- The arms of `run_notary_worker_inner` for records, which return the entry of the log.

def Worker.encryptRecord (header : Header) : Wrk17 RecordCommit := do
  let nonce := tls13Nonce w.ivTx header.seq
  notaryEncryptGcm w.kNTx nonce header.aad header.payloadLen.toNat
  let commitHash ← readCommit compress header.payloadLen.toNat
  pure { op := header.op, seq := header.seq, aad := header.aad, commitHash }

def Worker.decryptRecord (header : Header) : Wrk17 RecordCommit := do
  let nonce := tls13Nonce w.ivRx header.seq
  notaryDecryptGcm w.kNRx nonce header.aad.length header.payloadLen.toNat
  let commitHash ← readCommit compress header.payloadLen.toNat
  pure { op := header.op, seq := header.seq, aad := header.aad, commitHash }

def Worker.finish (records : List RecordCommit) : Wrk17 NotaryBundle := do
  let sidLen ← read .sessionIdLen 2
  let sidBuf ← read .sessionId (Bytes.ofBe sidLen.toList)
  let some sessionId := Bytes.fromUtf8 sidBuf.toList
    | .fail (.other "session_id is not valid UTF-8")
  let snLen ← read .serverNameLen 2
  let snBuf ← read .serverName (Bytes.ofBe snLen.toList)
  let some serverName := Bytes.fromUtf8 snBuf.toList
    | .fail (.other "server_name is not valid UTF-8")
  let some sk := w.signingKey
    | .fail (.other "received OP_FINISH but the notary was not configured with a signing key")
  let bundle := NotaryBundle.sign ed sk w.now sessionId serverName records
    w.kNTx w.ivTx w.kNRx w.ivRx w.binding
  match bincode.serialize bundle with
  | .error e       => .fail (.other ("bincode serialize bundle: " ++ e))
  | .ok serialized =>
    write .bundleLen (Bytes.be 4 serialized.length)
    write .bundle serialized
    pure bundle

-- The loop over the frames of a session, of which at most `fuel` are served.
def runNotaryWorkerInner : Nat → List RecordCommit → Wrk17 (Option NotaryBundle)
  | 0, _ => .fail .fuel
  | fuel + 1, records => do
    match ← readHeader.attempt with
    | .error _   => pure none
    | .ok header =>
      if header.op = opEncrypt then
        let r ← w.encryptRecord compress header
        runNotaryWorkerInner fuel (records ++ [r])
      else if header.op = opDecrypt then
        let r ← w.decryptRecord compress header
        runNotaryWorkerInner fuel (records ++ [r])
      else if header.op = opFinish then
        some <$> w.finish bincode records
      else
        .fail (.other ("rustls bridge: unknown op byte 0x" ++ Bytes.hex header.op))

-- `run_notary_worker_attested`, and `run_notary_worker` if the worker has no signing key.
def runNotaryWorkerAttested (fuel : Nat) : Wrk17 (Option NotaryBundle) := do
  wrk17Init
  runNotaryWorkerInner compress bincode w fuel []

end

structure TwoPcTrafficSetup where
  ikmN    : Arr 32
  afterSh : Arr 32
  afterSf : Arr 32
  ikmFull : Arr 32
  binding : SessionBinding

section

variable (compress : Arr 32 → Arr 64 → Arr 32)

def clientRun2pcTrafficHkdf (ikmC afterSh afterSf : Arr 32) : Wrk17 ClientTrafficShares := do
  writeHeader { op := op2pcHkdf, seq := 0, aad := [], payloadLen := 0 }
  clientTls13ClientTrafficFromIkmShares compress ikmC afterSh afterSf

def runNotaryWorkerAttested2pc (ed : Ed25519) (bincode : Bincode) (signingKey : ed.SigningKey)
    (now : UInt64) (setup : TwoPcTrafficSetup) (fuel : Nat) : Wrk17 (Option NotaryBundle) := do
  let header ← readHeader
  if header.op ≠ op2pcHkdf then
    .fail (.other ("expected OP_2PC_HKDF (0x04), got 0x" ++ Bytes.hex header.op))
  else
    wrk17Init
    let traffic ←
      notaryTls13ClientTrafficFromIkmShares compress setup.ikmN setup.afterSh setup.afterSf
    let keys := referenceTls13ClientTraffic compress setup.ikmFull setup.afterSh setup.afterSf
    let w : Worker ed := {
      signingKey := some signingKey
      kNTx := traffic.kNTx
      ivTx := keys.txIv
      kNRx := traffic.kNRx
      ivRx := keys.rxIv
      binding := setup.binding
      now
    }
    runNotaryWorkerInner compress bincode w fuel []

end

-- `client_encrypt_record`
def encryptOne (kC : Arr 16) (baseIv : Arr 12) (plaintext aad : Bytes) (seq : UInt64) :
    Wrk17 (Bytes × Arr 16) := do
  writeHeader { op := opEncrypt, seq, aad, payloadLen := .ofNat plaintext.length }
  let nonce := tls13Nonce baseIv seq
  let (ct, tag) ← clientEncryptGcm kC plaintext aad nonce
  write .commit ct
  write .commitTag tag.toList
  pure (ct, tag)

-- `client_decrypt_record`
def decryptOne (kC : Arr 16) (baseIv : Arr 12) (ciphertext : Bytes) (tag : Arr 16) (aad : Bytes)
    (seq : UInt64) : Wrk17 Bytes := do
  writeHeader { op := opDecrypt, seq, aad, payloadLen := .ofNat ciphertext.length }
  let nonce := tls13Nonce baseIv seq
  let plaintext ← clientDecryptGcm2pc kC ciphertext aad tag nonce
  write .commit ciphertext
  write .commitTag tag.toList
  pure plaintext

def clientFinishSession (bincode : Bincode) (sessionId serverName : String) :
    Wrk17 NotaryBundle := do
  writeHeader { op := opFinish, seq := 0, aad := [], payloadLen := 0 }
  write .sessionIdLen (Bytes.be 2 (Bytes.ofString sessionId).length)
  write .sessionId (Bytes.ofString sessionId)
  write .serverNameLen (Bytes.be 2 (Bytes.ofString serverName).length)
  write .serverName (Bytes.ofString serverName)
  let lenBuf ← read .bundleLen 4
  let len := Bytes.ofBe lenBuf.toList
  if len > 16 * 1024 * 1024 then
    .fail (.other ("notary bundle suspiciously large: " ++ toString len ++ " bytes"))
  else
    let buf ← read .bundle len
    match bincode.deserialize buf.toList with
    | .error e   => .fail (.other ("bincode deserialize bundle: " ++ e))
    | .ok bundle => pure bundle

end Notary
