import NotaryModel.Notary.Garble

-- What the programs use of `curve25519_dalek`. `toEdwards` decodes the u-coordinate of a point with
-- sign bit 0, and `decompress` a compressed Edwards point.
structure Curve25519 where
  Scalar            : Type
  Point             : Type
  fromBytesModOrder : Arr 32 → Scalar
  toBytes           : Scalar → Arr 32
  addScalar         : Scalar → Scalar → Scalar
  toEdwards         : Arr 32 → Option Point
  mul               : Scalar → Point → Point
  add               : Point → Point → Point
  toMontgomery      : Point → Arr 32
  compress          : Point → Arr 32
  decompress        : Arr 32 → Option Point

namespace Notary

variable (curve : Curve25519)

structure EphemeralShare where
  scalar : curve.Scalar
  bytes  : Arr 32

def clampScalarBytes (bytes : Arr 32) : Arr 32 :=
  let out := bytes.set 0 (bytes[0] &&& 248)
  let out := out.set 31 (out[31] &&& 127)
  out.set 31 (out[31] ||| 64)

def shareFromBytes (bytes : Arr 32) : EphemeralShare curve :=
  let bytes := clampScalarBytes bytes
  { scalar := curve.fromBytesModOrder bytes, bytes }

-- `random` is what `random_scalar_bytes` draws.
def generateShare (random : Arr 32) : EphemeralShare curve :=
  let bytes := clampScalarBytes random
  { scalar := curve.fromBytesModOrder bytes, bytes }

variable {curve}

def shareToBytes (share : EphemeralShare curve) : Arr 32 :=
  share.bytes

def combinedClientEsk (host notary : EphemeralShare curve) : Arr 32 :=
  clampScalarBytes (curve.toBytes (curve.addScalar host.scalar notary.scalar))

def expect (msg : String) : Option α → Wrk17 α
  | some a => pure a
  | none   => .fail (.panic msg)

def computePartialPoint (share : EphemeralShare curve) (serverEpk : Arr 32) :
    Wrk17 curve.Point := do
  let edwards ← expect "valid server epk" <| curve.toEdwards serverEpk
  pure (curve.mul share.scalar edwards)

def referenceIkm (hostShare notaryShare : EphemeralShare curve) (serverEpk : Arr 32) :
    Option (Arr 32) := do
  let esk := combinedClientEsk hostShare notaryShare
  let eskScalar := curve.fromBytesModOrder esk
  let serverEd ← curve.toEdwards serverEpk
  pure (curve.toMontgomery (curve.mul eskScalar serverEd))

-- `reference_ikm` with its panic.
def referenceIkm! (hostShare notaryShare : EphemeralShare curve) (serverEpk : Arr 32) :
    Wrk17 (Arr 32) :=
  expect "valid server epk" <| referenceIkm hostShare notaryShare serverEpk

structure LeakyAdditiveOutcome where
  ikm            : Arr 32
  hostIkmShare   : Arr 32
  notaryIkmShare : Arr 32

structure OtEcdhNotaryOutcome where
  hostIkmShare   : Arr 32
  notaryIkmShare : Arr 32
  ikm            : Arr 32

inductive EcdhSetupOutcome
  | skipped
  | leaky (outcome : LeakyAdditiveOutcome)
  | ot (outcome : OtEcdhNotaryOutcome)

def setupEcdhSkip : Byte := 0
def setupEcdhLeaky : Byte := 1
def setupEcdhOt : Byte := 2

-- An `io::Error` of these functions is passed on as a network error.

def hostRunLeakyAdditive (hostShare notaryShare : EphemeralShare curve) (serverEpk : Arr 32) :
    Wrk17 LeakyAdditiveOutcome := do
  let pC ← computePartialPoint hostShare serverEpk
  write .hostPartial (curve.compress pC).toList
  let pNBytes ← read .notaryPartial 32
  let some _ := curve.decompress pNBytes | .fail (.network "bad P_n")
  let ikm ← referenceIkm! hostShare notaryShare serverEpk
  let mask ← read .ikmMask 32
  pure { ikm, hostIkmShare := ikm ^^^ mask, notaryIkmShare := mask }

def notaryRunLeakyAdditive (notaryShare hostShare : EphemeralShare curve) (serverEpk mask : Arr 32) :
    Wrk17 LeakyAdditiveOutcome := do
  let pCBytes ← read .hostPartial 32
  let some _ := curve.decompress pCBytes | .fail (.network "bad P_c")
  let pN ← computePartialPoint notaryShare serverEpk
  write .notaryPartial (curve.compress pN).toList
  let ikm ← referenceIkm! hostShare notaryShare serverEpk
  write .ikmMask mask.toList
  pure { ikm, hostIkmShare := ikm ^^^ mask, notaryIkmShare := mask }

def hostSendEcdhLeaky (hostShare notaryShare : EphemeralShare curve) (serverEpk : Arr 32) :
    Wrk17 LeakyAdditiveOutcome := do
  write .ecdhFlag [setupEcdhLeaky]
  write .serverEpk serverEpk.toList
  write .hostShare (shareToBytes hostShare).toList
  hostRunLeakyAdditive hostShare notaryShare serverEpk

def hostSkipEcdhLeaky : Wrk17 Unit :=
  write .ecdhFlag [setupEcdhSkip]

-- The result is the host's XOR share of the IKM.
def hostRunOtBlinded (hostShare : EphemeralShare curve) (serverEpk : Arr 32) : Wrk17 (Arr 32) := do
  let pHost ← computePartialPoint hostShare serverEpk
  let rBytes ← read .blinding 32
  let some rPoint := curve.decompress rBytes | .fail (.network "bad R")
  let q := curve.add pHost rPoint
  write .blinded (curve.compress q).toList
  read .hostIkmShare 32

-- What the notary draws in a blinded round.
structure OtRandom where
  rMask          : Arr 32
  notaryIkmShare : Arr 32

def notaryRunOtBlinded (notaryShare hostShare : EphemeralShare curve) (serverEpk : Arr 32)
    (rng : OtRandom) : Wrk17 OtEcdhNotaryOutcome := do
  let rMask := generateShare curve rng.rMask
  let rPoint ← computePartialPoint rMask serverEpk
  write .blinding (curve.compress rPoint).toList
  let qBytes ← read .blinded 32
  let some _ := curve.decompress qBytes | .fail (.network "bad Q")
  let _ ← computePartialPoint notaryShare serverEpk
  let ikm ← referenceIkm! hostShare notaryShare serverEpk
  let hostIkmShare := ikm ^^^ rng.notaryIkmShare
  write .hostIkmShare hostIkmShare.toList
  pure { hostIkmShare, notaryIkmShare := rng.notaryIkmShare, ikm }

def hostSendEcdhOt (hostShare : EphemeralShare curve) (serverEpk : Arr 32) : Wrk17 (Arr 32) := do
  write .ecdhFlag [setupEcdhOt]
  write .serverEpk serverEpk.toList
  write .hostShare (shareToBytes hostShare).toList
  hostRunOtBlinded hostShare serverEpk

def readHostShare : Wrk17 (EphemeralShare curve) := do
  let bytes ← read .hostShare 32
  pure (shareFromBytes curve bytes)

-- `mask` is what the notary draws in a leaky round.
def notaryRecvEcdhSetup (notaryShare : EphemeralShare curve) (mask : Arr 32) (rng : OtRandom) :
    Wrk17 EcdhSetupOutcome := do
  let flag ← read .ecdhFlag 1
  if flag.byte = setupEcdhSkip then
    pure .skipped
  else if flag.byte = setupEcdhLeaky then
    let serverEpk ← read .serverEpk 32
    let hostShare ← readHostShare
    .leaky <$> notaryRunLeakyAdditive notaryShare hostShare serverEpk mask
  else if flag.byte = setupEcdhOt then
    let serverEpk ← read .serverEpk 32
    let hostShare ← readHostShare
    .ot <$> notaryRunOtBlinded notaryShare hostShare serverEpk rng
  else
    .fail (.network ("unknown SETUP_ECDH flag 0x" ++ Bytes.hex flag.byte))

-- The loop of `parse_sh_key_share` over the bytes of the extensions that are left.
def parseShKeyShare.extensions : Bytes → Option (Arr 32)
  | t₀ :: t₁ :: l₀ :: l₁ :: exts =>
    let extType := Bytes.ofBe [t₀, t₁]
    let extDataLen := Bytes.ofBe [l₀, l₁]
    if exts.length < extDataLen then
      none
    else if extType = 0x0033 ∧ extDataLen ≥ 2 + 32 ∧ Bytes.ofBe (Bytes.slice exts 0 2) = 0x001d ∧
        Bytes.ofBe (Bytes.slice exts 2 4) = 32 ∧ 4 + 32 ≤ exts.length then
      some (.ofBytes 32 (Bytes.slice exts 4 (4 + 32)))
    else
      parseShKeyShare.extensions (exts.drop extDataLen)
  | _ => none
termination_by exts => exts.length
decreasing_by simp only [List.length_drop, List.length_cons]; omega

def parseShKeyShare (body : Bytes) : Option (Arr 32) := do
  guard (2 + 32 + 1 ≤ body.length)
  let p := 2 + 32
  let sessionIdLen ← body[p]?
  let p := p + 1 + sessionIdLen.toNat
  guard (p + 2 ≤ body.length)
  let p := p + 2
  let compLen ← body[p]?
  let p := p + 1 + compLen.toNat
  guard (p + 2 ≤ body.length)
  let extLen := Bytes.ofBe (body.slice p (p + 2))
  let p := p + 2
  let extEnd := p + extLen
  guard (extEnd ≤ body.length)
  parseShKeyShare.extensions (body.slice p extEnd)

-- The share of the first handshake record that holds one.
def parseServerHelloKeyShare : Bytes → Option (Arr 32)
  | ct :: _ :: _ :: l₀ :: l₁ :: inbound =>
    let len := Bytes.ofBe [l₀, l₁]
    if inbound.length < len then
      none
    else
      let payload := inbound.take len
      let share? :=
        if ct ≠ 22 ∨ payload.length < 4 ∨ payload.head? ≠ some 2 then
          none
        else
          parseShKeyShare (payload.drop 4)
      share?.or (parseServerHelloKeyShare (inbound.drop len))
  | _ => none
termination_by inbound => inbound.length
decreasing_by simp only [List.length_drop, List.length_cons]; omega

end Notary
