import NotaryModel.Common.Witness
import NotaryModel.Crypto.Sha256
import NotaryModel.Guest.KeyShare

open Common

namespace Guest

open Exec (expect abort assert)

section

variable (compress : Arr 32 → Arr 64 → Arr 32)

def runNotaryPath.checkBinding (witness : TlsWitness) (bundle : NotaryBundle) : Exec Unit :=
  if NotaryBundle.bundleVersionBinding ≤ bundle.bundleVersion then do
    let b := bundle.binding
    let ht := Sha256.digest compress <|
      Bytes.be 8 witness.rawOutbound.length ++ witness.rawOutbound ++
        Bytes.be 8 witness.rawInbound.length ++ witness.rawInbound
    assert (ht = b.handshakeTranscriptHash)
      "bundle handshake_transcript_hash != witness raw bytes"
    let epk? ← parseServerHelloKeyShare witness.rawInbound
    let epk ← expect "epk_server in witness inbound" epk?
    assert (epk = b.serverEpk) "bundle server_epk != ServerHello key_share"
  else
    pure ()

-- A record that the notary has committed to, without its padding.
def runNotaryPath.openRecord (gcm : Gcm.Open) (bundle : NotaryBundle) (kRx : Arr 16)
    (rxSeq : UInt64) (r : RawRecord) : Exec (Bytes × Byte) := do
  let commitHash := Sha256.digest compress r.payload
  let bundleRec ← expect "notary did not commit to this decrypt record (op=0x02)" <|
    bundle.records.find? fun br => br.op = 0x02 ∧ br.seq = rxSeq
  assert (commitHash = bundleRec.commitHash)
    ("record at rx_seq=" ++ toString rxSeq ++ " doesn't match bundle commit")
  let aad := recordAad r.contentType r.legacyVersion r.payload
  let nonce := xorNonce bundle.ivRx rxSeq
  let (buf, tag) ← splitTag r.payload
  let buf ← expect "notarized AES-GCM auth failed" <| gcm kRx nonce aad buf tag
  let buf := buf.rdropWhile (· == 0)
  let innerCt ← expect "empty decrypted notarized record" buf.getLast?
  pure (buf.dropLast, innerCt)

-- The walk over the records that are left.
def runNotaryPath.records (gcm : Gcm.Open) (bundle : NotaryBundle) (kRx : Arr 16) :
    List RawRecord → UInt64 → Exec Bytes
  | [], _          => pure []
  | r :: rs, rxSeq =>
    if r.contentType ≠ 23 then
      runNotaryPath.records gcm bundle kRx rs rxSeq
    else do
      let (buf, innerCt) ← runNotaryPath.openRecord compress gcm bundle kRx rxSeq r
      let plaintext ← runNotaryPath.records gcm bundle kRx rs (rxSeq + 1)
      pure ((if innerCt = 23 then buf else []) ++ plaintext)

-- Steps 1 to 4 of the path with a notary.
def runNotaryPath (ed : Ed25519) (gcm : Gcm.Open) (witness : TlsWitness) : Exec Bytes := do
  let att ← expect "run_notary_path called without notary attestation" witness.notary
  assert (att.bundle.verify ed = true) "notary bundle signature did not verify"
  runNotaryPath.checkBinding compress witness att.bundle
  assert (att.bundle.serverName = witness.hostname) "bundle.server_name != witness.hostname"
  let kRx := att.bundle.kNRx ^^^ att.kCRx
  let records ← parseRecords witness.rawInbound
  runNotaryPath.records compress gcm att.bundle kRx records 0

end

end Guest
