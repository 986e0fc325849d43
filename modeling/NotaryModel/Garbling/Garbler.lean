import NotaryModel.Garbling.Preprocesser

open Circuit
open Notary (Err)

namespace Garbling

variable {L Q : Type} {A : Q → Type}

structure Garbler (sw : Swanky) (b : AuthBits (channel L A)) where
  delta              : Block
  zero               : Block
  andGateIndex       : Nat
  authShares         : List b.Share
  authSharesIndex    : Nat
  andAuthShares      : List b.Share
  andAuthSharesIndex : Nat
  rng                : Stream' Block

abbrev GarblerM (sw : Swanky) (b : AuthBits (channel L A)) :=
  StateT (Garbler sw b) (Prog (channel L A))

namespace Garbler

variable {sw : Swanky} {b : AuthBits (channel L A)}

-- Runs over a session of the library whose OT material is there already.
def newWithAndGenerator (sw : Swanky) (b : AuthBits (channel L A)) (circuit : Executor s n)
    (rng : Stream' Block) : Prog (channel L A) (Garbler sw b) := do
  let delta := b.delta
  let zero := rng.head
  let one := zero ^^^ delta
  let (authShares, knownTriples) ← preprocessCircuit sw b circuit
  writeBlock .one one
  pure {
    delta
    zero
    andGateIndex := 0
    authShares
    authSharesIndex := 0
    andAuthShares := knownTriples
    andAuthSharesIndex := 0
    rng := rng.tail
  }

def nextAndGateIndex : GarblerM sw b Nat := do
  let s ← get
  set ({ s with andGateIndex := s.andGateIndex + 1 } : Garbler sw b)
  pure s.andGateIndex

def nextAuthShare : GarblerM sw b b.Share := do
  let s ← get
  let share ← (index s.authShares s.authSharesIndex : Prog (channel L A) b.Share)
  set ({ s with authSharesIndex := s.authSharesIndex + 1 } : Garbler sw b)
  pure share

def nextAndAuthShare : GarblerM sw b b.Share := do
  let s ← get
  let share ← (index s.andAuthShares s.andAuthSharesIndex : Prog (channel L A) b.Share)
  set ({ s with andAuthSharesIndex := s.andAuthSharesIndex + 1 } : Garbler sw b)
  pure share

-- `WireMod2::rand(&mut self.rng, 2)`
def rand : GarblerM sw b Block := do
  let s ← get
  set ({ s with rng := s.rng.tail } : Garbler sw b)
  pure s.rng.head

def encodeWirelabels (maskedValues : List Bool) (authShares : List b.Share) :
    GarblerM sw b (List (AuthenticatedWireMod2 b.Share)) := do
  let zeros ← maskedValues.mapM fun _ => rand
  let delta := (← get).delta
  (maskedValues.zip zeros).forM fun x =>
    (writeBlock .wireLabel (x.2 ^^^ scale x.1 delta) : Prog (channel L A) Unit)
  pure <| (maskedValues.zip (zeros.zip authShares)).map fun x => ⟨x.1, x.2.1, x.2.2⟩

def and (la0 lb0 : AuthenticatedWireMod2 b.Share) :
    GarblerM sw b (AuthenticatedWireMod2 b.Share) := do
  let γ ← nextAndGateIndex
  let lcShare ← nextAuthShare
  let lcTriple ← nextAndAuthShare
  let delta := (← get).delta
  let la1 := la0.wireLabel ^^^ delta
  let lb1 := lb0.wireLabel ^^^ delta
  let hLa0 := sw.hash la0.wireLabel γ
  let hLb0 := sw.hash lb0.wireLabel γ
  let hLa1 := sw.hash la1 γ
  let hLb1 := sw.hash lb1 γ
  let keyA := b.key la0.authShare
  let keyB := b.key lb0.authShare
  let keyC := b.key lcShare
  let keyCTriple := b.key lcTriple
  let deltaBitA := scale (b.bit la0.authShare) delta
  let deltaBitB := scale (b.bit lb0.authShare) delta
  let deltaBitC := scale (b.bit lcShare) delta
  let deltaBitCTriple := scale (b.bit lcTriple) delta
  let gate0 := hLa0 ^^^ hLa1 ^^^ keyB ^^^ deltaBitB
  let gate1 := hLb0 ^^^ hLb1 ^^^ keyA ^^^ deltaBitA ^^^ la0.wireLabel
  let lc0 := hLa0 ^^^ hLb0 ^^^ keyC ^^^ deltaBitC ^^^ keyCTriple ^^^ deltaBitCTriple
  let bitC := sw.lsb lc0
  (writeBlock .gate0 gate0 : Prog (channel L A) Unit)
  (writeBlock .gate1 gate1 : Prog (channel L A) Unit)
  (writeF2 sw .bitC bitC : Prog (channel L A) Unit)
  let laValue := la0.maskedValue
  let laLambda := la0.authShare
  let lbValue := lb0.maskedValue
  let lbLambda := lb0.authShare
  let lcValue ← (readF2 sw .value : Prog (channel L A) Bool)
  let shareMasks := b.constantWithDelta ((laValue && lbValue) ^^ lcValue) delta
  let validationShare := b.xor (b.xor (b.xor (b.xor shareMasks (b.mulWithConst laLambda lbValue))
    (b.mulWithConst lbLambda laValue)) lcTriple) lcShare
  let validationBit ← b.openShares [validationShare] delta
  let c ← (index validationBit 0 : Prog (channel L A) Bool)
  if c = false then
    pure ⟨lcValue, lc0, lcShare⟩
  else
    (Prog.fail (I := channel L A) <| .other <|
      "Garbler's authentication validation check failed at index " ++ toString γ)

instance : Negating (GarblerM sw b) (AuthenticatedWireMod2 b.Share) where
  constant c := do
    let delta := (← get).delta
    let share := b.constantWithDelta false delta
    let zero ← rand
    (writeBlock .wireLabel (zero ^^^ scale c delta) : Prog (channel L A) Unit)
    pure ⟨c, zero, share⟩
  xor x y    := pure {
    maskedValue := x.maskedValue ^^ y.maskedValue
    wireLabel   := x.wireLabel ^^^ y.wireLabel
    authShare   := b.xor x.authShare y.authShare
  }
  and        := and
  negate x   := do
    let zero := (← get).zero
    pure ⟨x.maskedValue ^^ true, x.wireLabel ^^^ zero, x.authShare⟩

def encodeMany (values : List UInt16) (moduli : Nat) :
    GarblerM sw b (List (AuthenticatedWireMod2 b.Share)) := do
  if values.length ≠ moduli then
    (fault "one modulus for each value" : Prog (channel L A) _)
  let myAuthShares ← (List.replicate values.length ()).mapM fun _ => nextAuthShare
  let theirBits ← b.openTheirShares myAuthShares (← get).delta
  let myMaskedValues ← (theirBits.zip (myAuthShares.zip values)).mapM fun x =>
    match sw.ofU16 x.2.2 with
    | some value => pure (x.1 ^^ b.bit x.2.1 ^^ value)
    | none       => Prog.fail (I := channel L A) (.other "Invalid value, must be boolean")
  myMaskedValues.forM fun maskedValue =>
    (writeF2 sw .maskedValue maskedValue : Prog (channel L A) Unit)
  encodeWirelabels myMaskedValues myAuthShares

def receiveMany (moduli : Nat) : GarblerM sw b (List (AuthenticatedWireMod2 b.Share)) := do
  let myAuthShares ← (List.replicate moduli ()).mapM fun _ => nextAuthShare
  b.openMyShares myAuthShares
  let theirMaskedValues ← (List.replicate moduli ()).mapM fun _ =>
    (readF2 sw .maskedValue : Prog (channel L A) Bool)
  encodeWirelabels theirMaskedValues myAuthShares

def outputs (x : List (AuthenticatedWireMod2 b.Share)) : GarblerM sw b (Option (List UInt16)) := do
  b.openMyShares (x.map (·.authShare))
  pure none

end Garbler

end Garbling
