import NotaryModel.Primitives.Exec

namespace Guest

open Exec (index range)
open OptionT (lift)

-- The guest is built for a 64-bit target and without overflow checks.
def usize (n : Nat) : Nat :=
  n % 2 ^ 64

-- The first element of `der` and what follows it.
def derNextTlv (der : Bytes) : OptionT Exec (Bytes × Bytes) := do
  if der.length < 2 then
    failure
  let b ← lift (index der 1)
  let (len, headerLen) ←
    if b &&& 0x80 = 0 then
      pure (b.toNat, 2)
    else do
      let n := (b &&& 0x7f).toNat
      if der.length < 2 + n then
        failure
      let bs ← lift (range der 2 (2 + n))
      pure (bs.foldl (fun l b => usize (l <<< 8) ||| b.toNat) 0, 2 + n)
  let total := usize (headerLen + len)
  if der.length < total then
    failure
  let tlv ← lift (range der 0 total)
  let rest ← lift (range der total der.length)
  pure (tlv, rest)

def derUnwrapSequence (der : Bytes) : OptionT Exec Bytes := do
  if der.head? ≠ some 0x30 then
    failure
  let (_, rest) ← derNextTlv der
  let seq ← lift (range der 0 (der.length - rest.length))
  let b ← lift (index seq 1)
  let tagLen := if b &&& 0x80 = 0 then 2 else 2 + (b &&& 0x7f).toNat
  lift (range seq tagLen seq.length)

inductive NameField
  | subject
  | issuer
  deriving DecidableEq

def rawNameContent (chainDers : List Bytes) (idx : Nat) (field : NameField) :
    OptionT Exec Bytes := do
  let certDer ← lift (index chainDers idx)
  let certContent ← derUnwrapSequence certDer
  let (tbsTlv, _) ← derNextTlv certContent
  let tbsContent ← derUnwrapSequence tbsTlv
  let pos ←
    if tbsContent.head? = some 0xa0 then do
      let (_, rest) ← derNextTlv tbsContent
      pure rest
    else
      pure tbsContent
  let (_, pos) ← derNextTlv pos
  let (_, pos) ← derNextTlv pos
  let (issuerTlv, rest) ← derNextTlv pos
  let nameTlv ←
    match field with
    | .issuer  => pure issuerTlv
    | .subject => do
      let (_, rest₂) ← derNextTlv rest
      let (subjectTlv, _) ← derNextTlv rest₂
      pure subjectTlv
  derUnwrapSequence nameTlv

end Guest
