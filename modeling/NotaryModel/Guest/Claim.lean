import NotaryModel.Guest.Http
import NotaryModel.Guest.Main
import NotaryModel.Guest.NotaryPath

-- What the guest uses of `serde_json`, with the numbers `F`.
structure Json (F : Type) where
  Value   : Type
  fromStr : Bytes → Option Value
  pointer : Value → String → Option Value
  asF64   : Value → Option F
  gt      : F → F → Bool
  display : F → String

namespace Common

structure ClaimWitness (F : Type) extends TlsWitness where
  jsonField : String
  threshold : F

structure PublicClaim (F : Type) where
  host      : String
  field     : String
  threshold : F
  value     : F

end Common

open Common

namespace Guest

open Exec (expect assert)

section

variable {F : Type} (x25519 : X25519) (compress : Arr 32 → Arr 64 → Arr 32) (ed : Ed25519)
variable (gcm : Gcm.Open) (pki : Pkix) (json : Json F)

-- The last two steps of both paths.
def publicClaim (notUtf8 : String) (witness : ClaimWitness F) (plaintext : Bytes) :
    Exec (PublicClaim F) := do
  let body ← responseBody notUtf8 plaintext
  let value ← expect "body is not valid JSON" <| json.fromStr body
  let value ← expect ("field '" ++ witness.jsonField ++ "' not found") <|
    json.pointer value witness.jsonField
  let fieldValue ← expect ("field '" ++ witness.jsonField ++ "' is not a number") <| json.asF64 value
  assert (json.gt fieldValue witness.threshold = true)
    (witness.jsonField ++ " = " ++ json.display fieldValue ++ " is not > " ++
      json.display witness.threshold)
  pure {
    host      := witness.hostname
    field     := witness.jsonField
    threshold := witness.threshold
    value     := fieldValue
  }

def runNotaryPath.claim (witness : ClaimWitness F) : Exec (PublicClaim F) := do
  let plaintext ← runNotaryPath compress ed gcm witness.toTlsWitness
  publicClaim json "response not UTF-8" witness plaintext

def main (witness : ClaimWitness F) : Exec (PublicClaim F) :=
  if witness.notary.isSome then
    runNotaryPath.claim compress ed gcm json witness
  else do
    let proved ← main.selfProve x25519 compress gcm pki witness.toTlsWitness
    publicClaim json "response is not UTF-8" witness proved.plaintext

end

end Guest
