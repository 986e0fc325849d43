import NotaryModel.Guest.Der

namespace Guest

open Exec (expect abort assert index)

inductive SigAlg
  | ecdsaP256
  | ecdsaP384
  | rsaSha256
  | rsaSha384
  | rsaPssSha256
  | rsaPssSha384

structure TrustAnchor where
  subject              : Bytes
  subjectPublicKeyInfo : Bytes

-- What the guest uses of `x509_cert`, `der`, `webpki_roots` and the signature crates.
structure Pki where
  Certificate          : Type
  Spki                 : Type
  Key                  : SigAlg → Type
  Sig                  : SigAlg → Type
  certificateFromDer   : Bytes → Option Certificate
  tbsToDer             : Certificate → Option Bytes
  signatureBytes       : Certificate → Bytes
  signatureAlgorithm   : Certificate → String
  subjectPublicKeyInfo : Certificate → Spki
  spkiFromDer          : Bytes → Option Spki
  spkiToDer            : Spki → Option Bytes
  subjectPublicKey     : Spki → Bytes
  key                  : (a : SigAlg) → Bytes → Option (Key a)
  sig                  : (a : SigAlg) → Bytes → Option (Sig a)
  verify               : (a : SigAlg) → Key a → Bytes → Sig a → Bool
  tlsServerRoots       : List TrustAnchor

def oidEcdsaSha256 : String := "1.2.840.10045.4.3.2"
def oidEcdsaSha384 : String := "1.2.840.10045.4.3.3"
def oidRsaSha256 : String := "1.2.840.113549.1.1.11"
def oidRsaSha384 : String := "1.2.840.113549.1.1.12"

variable (pki : Pki)

def verifyCertSignature.ecdsa (a : SigAlg) (noKey noSig invalid : String) (tbsDer sigBytes : Bytes)
    (issuerSpki : pki.Spki) : Exec Unit := do
  let vk ← expect noKey <| pki.key a (pki.subjectPublicKey issuerSpki)
  let sig ← expect noSig <| pki.sig a sigBytes
  assert (pki.verify a vk tbsDer sig) invalid

def verifyCertSignature.rsa (a : SigAlg) (invalid : String) (tbsDer sigBytes : Bytes)
    (issuerSpki : pki.Spki) : Exec Unit := do
  let spkiDer ← expect "encode SPKI" <| pki.spkiToDer issuerSpki
  let pk ← expect "parse RSA key" <| pki.key a spkiDer
  let sig ← expect "invalid RSA sig" <| pki.sig a sigBytes
  assert (pki.verify a pk tbsDer sig) invalid

def verifyCertSignature (cert : pki.Certificate) (issuerSpki : pki.Spki) : Exec Unit := do
  let tbsDer ← expect "encode TBS" <| pki.tbsToDer cert
  let sigBytes := pki.signatureBytes cert
  let oid := pki.signatureAlgorithm cert
  if oid = oidEcdsaSha256 then
    verifyCertSignature.ecdsa pki .ecdsaP256 "issuer not P-256" "invalid ECDSA-P256 sig"
      "cert ECDSA-P256 sig invalid" tbsDer sigBytes issuerSpki
  else if oid = oidEcdsaSha384 then
    verifyCertSignature.ecdsa pki .ecdsaP384 "issuer not P-384" "invalid ECDSA-P384 sig"
      "cert ECDSA-P384 sig invalid" tbsDer sigBytes issuerSpki
  else if oid = oidRsaSha256 then
    verifyCertSignature.rsa pki .rsaSha256 "cert RSA-SHA256 sig invalid" tbsDer sigBytes issuerSpki
  else if oid = oidRsaSha384 then
    verifyCertSignature.rsa pki .rsaSha384 "cert RSA-SHA384 sig invalid" tbsDer sigBytes issuerSpki
  else
    abort ("unsupported sig alg: " ++ oid)

def parseAnchorSpki (content : Bytes) : Exec pki.Spki :=
  let len := content.length
  let header :=
    if len < 0x80 then
      Bytes.be 1 len
    else if len < 0x100 then
      ([0x81] : Bytes) ++ Bytes.be 1 len
    else
      ([0x82] : Bytes) ++ Bytes.be 1 (len >>> 8) ++ Bytes.be 1 len
  expect "parse trust anchor SPKI" <| pki.spkiFromDer ([0x30] ++ header ++ content)

-- The first root with the name that certificate `i` has in field `field`.
def findAnchor (chainDers : List Bytes) (i : Nat) (field : NameField) :
    Exec (Option TrustAnchor) := do
  match ← (rawNameContent chainDers i field).run with
  | none      => pure none
  | some name => pure <| pki.tlsServerRoots.find? (·.subject = name)

-- The loop of `find_trust_anchor` over the indices that are left.
def findTrustAnchor.subjects (chainDers : List Bytes) : List Nat → Exec (Option (Nat × pki.Spki))
  | []      => pure none
  | i :: is => do
    match ← findAnchor pki chainDers i .subject with
    | none        => findTrustAnchor.subjects chainDers is
    | some anchor =>
      let spki ← parseAnchorSpki pki anchor.subjectPublicKeyInfo
      pure (some (i, spki))

def findTrustAnchor (chainLen : Nat) (chainDers : List Bytes) : Exec (Nat × pki.Spki) := do
  match ← findTrustAnchor.subjects pki chainDers (List.range chainLen) with
  | some (i, spki) => pure (i, spki)
  | none           =>
    match ← findAnchor pki chainDers (chainLen - 1) .issuer with
    | none        => abort "root CA not found in trust store"
    | some anchor =>
      let spki ← parseAnchorSpki pki anchor.subjectPublicKeyInfo
      pure (chainLen, spki)

-- Step 7 of the guest. The result lists the signatures that it has verified: each certificate with
-- the key that its signature was verified under.
def verifyCertChain (certChainDer : List Bytes) : Exec (List (pki.Certificate × pki.Spki)) := do
  let chain ← certChainDer.mapM fun der => expect "invalid DER cert" <| pki.certificateFromDer der
  assert (chain ≠ []) "empty cert chain"
  let (anchorBoundary, anchorSpki) ← findTrustAnchor pki chain.length certChainDer
  (List.range anchorBoundary).mapM fun i => do
    let issuerSpki ←
      if i + 1 < anchorBoundary then do
        let issuer ← index chain (i + 1)
        pure (pki.subjectPublicKeyInfo issuer)
      else
        pure anchorSpki
    let cert ← index chain i
    verifyCertSignature pki cert issuerSpki
    pure (cert, issuerSpki)

end Guest
