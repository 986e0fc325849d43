import NotaryModel.Primitives.Bytes

-- What the programs use of `ed25519_dalek`, where `fromBytes` decodes a public key.
structure Ed25519 where
  SigningKey   : Type
  VerifyingKey : Type
  verifyingKey : SigningKey → VerifyingKey
  toBytes      : VerifyingKey → Arr 32
  fromBytes    : Arr 32 → Option VerifyingKey
  sign         : SigningKey → Bytes → Arr 64
  verify       : VerifyingKey → Bytes → Arr 64 → Bool

namespace Common

structure SessionBinding where
  serverEpk                   : Arr 32
  certChainHash               : Arr 32
  handshakeTranscriptHash     : Arr 32
  keyScheduleContextHash      : Arr 32
  circuitAesSha256            : Arr 32
  circuitSha256CompressSha256 : Arr 32
  garblingMode                : Byte
  deriving DecidableEq

instance : Inhabited SessionBinding where
  default := ⟨0, 0, 0, 0, 0, 0, 0⟩

structure RecordCommit where
  op         : Byte
  seq        : UInt64
  aad        : Bytes
  commitHash : Arr 32
  deriving DecidableEq

structure NotaryBundle where
  bundleVersion : Byte
  notaryPubkey  : Arr 32
  timestampUnix : UInt64
  sessionId     : String
  serverName    : String
  records       : List RecordCommit
  kNTx          : Arr 16
  ivTx          : Arr 12
  kNRx          : Arr 16
  ivRx          : Arr 12
  binding       : SessionBinding
  signature     : Bytes
  deriving DecidableEq, Inhabited

def SessionBinding.signingBytes (b : SessionBinding) : Bytes :=
  b.serverEpk.toList ++ b.certChainHash.toList ++ b.handshakeTranscriptHash.toList ++
    b.keyScheduleContextHash.toList ++ b.circuitAesSha256.toList ++
    b.circuitSha256CompressSha256.toList ++ [b.garblingMode]

def RecordCommit.signingBytes (r : RecordCommit) : Bytes :=
  [r.op] ++ Bytes.be 8 r.seq.toNat ++ Bytes.be 2 r.aad.length ++ r.aad ++ r.commitHash.toList

namespace NotaryBundle

def bundleVersionLegacy : Byte := 0
def bundleVersionBinding : Byte := 1

-- Every function on signing bytes takes the fields of a bundle but its signature.

def legacySigningBytesPreBinding (b : NotaryBundle) : Bytes :=
  b.notaryPubkey.toList ++ Bytes.be 8 b.timestampUnix.toNat ++
    Bytes.be 2 (Bytes.ofString b.sessionId).length ++ Bytes.ofString b.sessionId ++
    Bytes.be 2 (Bytes.ofString b.serverName).length ++ Bytes.ofString b.serverName ++
    Bytes.be 4 b.records.length ++ b.records.flatMap RecordCommit.signingBytes ++
    b.kNTx.toList ++ b.ivTx.toList ++ b.kNRx.toList ++ b.ivRx.toList

def canonicalSigningBytes (b : NotaryBundle) : Bytes :=
  [b.bundleVersion] ++ b.legacySigningBytesPreBinding ++
    if bundleVersionBinding ≤ b.bundleVersion then b.binding.signingBytes else []

-- The bytes that `verify` checks the signature of.
def signingBytes (b : NotaryBundle) : Bytes :=
  if bundleVersionBinding ≤ b.bundleVersion then
    b.canonicalSigningBytes
  else
    b.legacySigningBytesPreBinding

section

variable (ed : Ed25519)

-- `timestampUnix` is what the system clock shows.
def signWithVersion (signingKey : ed.SigningKey) (timestampUnix : UInt64) (bundleVersion : Byte)
    (sessionId serverName : String) (records : List RecordCommit) (kNTx : Arr 16) (ivTx : Arr 12)
    (kNRx : Arr 16) (ivRx : Arr 12) (binding : SessionBinding) : NotaryBundle :=
  let notaryPubkey := ed.toBytes (ed.verifyingKey signingKey)
  let b : NotaryBundle := {
    bundleVersion, notaryPubkey, timestampUnix, sessionId, serverName, records, kNTx, ivTx, kNRx,
    ivRx, binding, signature := []
  }
  { b with signature := ed.sign signingKey b.canonicalSigningBytes |>.toList }

def sign (signingKey : ed.SigningKey) (timestampUnix : UInt64) (sessionId serverName : String)
    (records : List RecordCommit) (kNTx : Arr 16) (ivTx : Arr 12) (kNRx : Arr 16) (ivRx : Arr 12)
    (binding : SessionBinding) : NotaryBundle :=
  signWithVersion ed signingKey timestampUnix bundleVersionBinding sessionId serverName records
    kNTx ivTx kNRx ivRx binding

def verify (b : NotaryBundle) : Bool :=
  match ed.fromBytes b.notaryPubkey with
  | none    => false
  | some vk =>
    if b.signature.length = 64 then
      ed.verify vk b.signingBytes (.ofBytes 64 b.signature)
    else
      false

end

end NotaryBundle

end Common
