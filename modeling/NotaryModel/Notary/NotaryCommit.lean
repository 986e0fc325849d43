import NotaryModel.Crypto.Gcm
import NotaryModel.Crypto.Sha256

namespace Notary

structure NotaryCommit where
  ciphertextHash : Arr 32
  signature      : Bytes

section

variable (compress : Arr 32 → Arr 64 → Arr 32)

def NotaryCommit.new (ciphertext : Bytes) (nonce : Arr 12) (sessionId signingKey : Bytes) :
    NotaryCommit :=
  let ciphertextHash := Sha256.digest compress (ciphertext ++ nonce.toList ++ sessionId)
  let signature := (Sha256.hmac compress signingKey ciphertextHash.toList).toList
  { ciphertextHash, signature }

def NotaryCommit.verify (c : NotaryCommit) (ciphertext : Bytes) (nonce : Arr 12)
    (sessionId signingKey : Bytes) : Bool :=
  let expected := NotaryCommit.new compress ciphertext nonce sessionId signingKey
  c.ciphertextHash == expected.ciphertextHash && c.signature == expected.signature

end

-- The library takes the tag behind the ciphertext, and no associated data.
def clientDecrypt (gcm : Gcm.Open) (kC kNRevealed : Arr 16) (ciphertext : Bytes) (nonce : Arr 12) :
    Option Bytes :=
  let k := kC ^^^ kNRevealed
  let tagPos := ciphertext.length - 16
  if ciphertext.length < 16 then
    none
  else
    gcm k nonce [] (ciphertext.take tagPos) (.ofBytes 16 (ciphertext.drop tagPos))

structure NotaryTlsSession where
  kN     : Arr 16
  baseIv : Arr 12

def NotaryTlsSession.commitResponse (_ : NotaryTlsSession) (compress : Arr 32 → Arr 64 → Arr 32)
    (ciphertext : Bytes) (nonce : Arr 12) (sessionId signingKey : Bytes) : NotaryCommit :=
  .new compress ciphertext nonce sessionId signingKey

def NotaryTlsSession.revealKeyShare (s : NotaryTlsSession) : Arr 16 :=
  s.kN

end Notary
