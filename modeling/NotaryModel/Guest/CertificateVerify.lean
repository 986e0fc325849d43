import NotaryModel.Guest.Certificate

namespace Guest

open Exec (expect abort assert index range)

inductive GeneralName
  | dnsName (dns : String)
  | other

-- What the guest uses of certificates beyond their chain.
structure Pkix extends Pki where
  extensions     : Certificate → Option (List (String × Bytes))
  subjectAltName : Bytes → Option (List GeneralName)

-- `s[..i]` of the string with the bytes `s`.
def strPrefix (s : Bytes) (i : Nat) : Exec Bytes :=
  if i = s.length ∨ ∃ b ∈ s[i]?, b &&& 0xc0 ≠ 0x80 then
    .ok (s.take i)
  else
    abort "byte index is not a char boundary"

def toAsciiLowercase (b : Byte) : Byte :=
  if 0x41 ≤ b ∧ b ≤ 0x5a then b ||| 0x20 else b

def hostnameMatches (pattern host : String) : Exec Bool :=
  let pattern := Bytes.ofString pattern
  let host := Bytes.ofString host
  match pattern with
  | 0x2a :: 0x2e :: suffix =>
    if suffix <:+ host ∧ suffix.length + 1 < host.length then do
      let label ← strPrefix host (host.length - suffix.length - 1)
      pure (0x2e ∉ label)
    else
      pure false
  | _ => pure (pattern.map toAsciiLowercase == host.map toAsciiLowercase)

def idCeSubjectAltName : String := "2.5.29.17"

variable (pki : Pkix)

-- The search for a name that matches.
def verifyHostname.matched (host : String) : List GeneralName → Exec Bool
  | []                  => pure false
  | .dnsName dns :: sans => do
    if ← hostnameMatches dns host then
      pure true
    else
      verifyHostname.matched host sans
  | .other :: sans      => verifyHostname.matched host sans

def verifyHostname (cert : pki.Certificate) (host : String) : Exec Unit := do
  let exts ← expect "leaf cert has no extensions" <| pki.extensions cert
  let (_, san) ← expect "leaf cert has no SAN extension" <| exts.find? (·.1 = idCeSubjectAltName)
  let san ← expect "parse SAN" <| pki.subjectAltName san
  let matched ← verifyHostname.matched host san
  assert (matched = true) ("hostname '" ++ host ++ "' not in cert SAN")

def certificateVerify.ecdsa (a : SigAlg) (noKey noSig invalid : String)
    (leafSpki : pki.Spki) (sigBytes signedContent : Bytes) : Exec Unit := do
  let vk ← expect noKey <| pki.key a (pki.subjectPublicKey leafSpki)
  let sig ← expect noSig <| pki.sig a sigBytes
  assert (pki.verify a vk signedContent sig) invalid

def certificateVerify.rsa (a : SigAlg) (noSig invalid : String)
    (leafSpki : pki.Spki) (sigBytes signedContent : Bytes) : Exec Unit := do
  let spkiDer ← expect "encode leaf SPKI" <| pki.spkiToDer leafSpki
  let pk ← expect "parse RSA leaf key" <| pki.key a spkiDer
  let sig ← expect noSig <| pki.sig a sigBytes
  assert (pki.verify a pk signedContent sig) invalid

def certificateVerify.signature (scheme : Nat) (leafSpki : pki.Spki)
    (sigBytes signedContent : Bytes) : Exec Unit :=
  if scheme = 0x0403 then
    certificateVerify.ecdsa pki .ecdsaP256 "leaf cert not P-256" "invalid ECDSA-P256 sig DER"
      "CertificateVerify ECDSA-P256 sig invalid" leafSpki sigBytes signedContent
  else if scheme = 0x0503 then
    certificateVerify.ecdsa pki .ecdsaP384 "leaf cert not P-384" "invalid ECDSA-P384 sig DER"
      "CertificateVerify ECDSA-P384 sig invalid" leafSpki sigBytes signedContent
  else if scheme = 0x0804 then
    certificateVerify.rsa pki .rsaPssSha256 "invalid RSA-PSS sig"
      "CertificateVerify RSA-PSS-SHA256 sig invalid" leafSpki sigBytes signedContent
  else if scheme = 0x0805 then
    certificateVerify.rsa pki .rsaPssSha384 "invalid RSA-PSS sig"
      "CertificateVerify RSA-PSS-SHA384 sig invalid" leafSpki sigBytes signedContent
  else if scheme = 0x0401 then
    certificateVerify.rsa pki .rsaSha256 "invalid RSA-PKCS1 sig"
      "CertificateVerify RSA-PKCS1-SHA256 sig invalid" leafSpki sigBytes signedContent
  else
    abort ("unsupported CertificateVerify scheme: 0x" ++ Bytes.hex (.ofNat (scheme / 256)) ++
      Bytes.hex (.ofNat scheme))

-- What a server signs in a CertificateVerify message.
def signedContent (transcriptBeforeCv : Arr 32) : Bytes :=
  List.replicate 64 0x20 ++ Bytes.ofString "TLS 1.3, server CertificateVerify" ++ [0x00] ++
    transcriptBeforeCv.toList

-- Step 9 of the guest.
def certificateVerify (leafSpki : pki.Spki) (cvMsg : Bytes) (transcriptBeforeCv : Arr 32) :
    Exec Unit := do
  assert (4 ≤ cvMsg.length) "CertificateVerify too short"
  let scheme := Bytes.ofBe (Bytes.slice cvMsg 0 2)
  let sigLen := Bytes.ofBe (Bytes.slice cvMsg 2 4)
  assert (4 + sigLen ≤ cvMsg.length) "CertificateVerify truncated"
  let sigBytes := Bytes.slice cvMsg 4 (4 + sigLen)
  certificateVerify.signature pki scheme leafSpki sigBytes (signedContent transcriptBeforeCv)

end Guest
