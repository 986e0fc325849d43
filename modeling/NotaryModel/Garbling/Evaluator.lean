import NotaryModel.Garbling.Preprocesser

open Circuit
open Notary (Err)

namespace Garbling

variable {L Q : Type} {A : Q → Type}

structure Evaluator (sw : Swanky) (b : AuthBits (channel L A)) where
  delta              : Block
  one                : Block
  andWireIndex       : Nat
  authShares         : List b.Share
  authSharesIndex    : Nat
  andAuthShares      : List b.Share
  andAuthSharesIndex : Nat

abbrev EvaluatorM (sw : Swanky) (b : AuthBits (channel L A)) :=
  StateT (Evaluator sw b) (Prog (channel L A))

namespace Evaluator

variable {sw : Swanky} {b : AuthBits (channel L A)}

def newWithAndGenerator (sw : Swanky) (b : AuthBits (channel L A)) (circuit : Executor s n) :
    Prog (channel L A) (Evaluator sw b) := do
  let delta := b.delta
  let (authShares, andAuthShares) ← preprocessCircuit sw b circuit
  let one ← readBlock .one
  pure {
    delta
    one
    andWireIndex := 0
    authShares
    authSharesIndex := 0
    andAuthShares
    andAuthSharesIndex := 0
  }

def nextAndWireIndex : EvaluatorM sw b Nat := do
  let s ← get
  set ({ s with andWireIndex := s.andWireIndex + 1 } : Evaluator sw b)
  pure s.andWireIndex

def nextAuthShare : EvaluatorM sw b b.Share := do
  let s ← get
  let share ← (index s.authShares s.authSharesIndex : Prog (channel L A) b.Share)
  set ({ s with authSharesIndex := s.authSharesIndex + 1 } : Evaluator sw b)
  pure share

def nextAndAuthShare : EvaluatorM sw b b.Share := do
  let s ← get
  let share ← (index s.andAuthShares s.andAuthSharesIndex : Prog (channel L A) b.Share)
  set ({ s with andAuthSharesIndex := s.andAuthSharesIndex + 1 } : Evaluator sw b)
  pure share

def receiveWirelabels (maskedValues : List Bool) (authShares : List b.Share) :
    EvaluatorM sw b (List (AuthenticatedWireMod2 b.Share)) :=
  (maskedValues.zip authShares).mapM fun x => do
    let wireLabel ← (readBlock .wireLabel : Prog (channel L A) Block)
    pure ⟨x.1, wireLabel, x.2⟩

def and (la lb : AuthenticatedWireMod2 b.Share) :
    EvaluatorM sw b (AuthenticatedWireMod2 b.Share) := do
  let γ ← nextAndWireIndex
  let lcShare ← nextAuthShare
  let lcTriple ← nextAndAuthShare
  let delta := (← get).delta
  let macShare := b.mac lcShare
  let macTriple := b.mac lcTriple
  let gateC0 ← (readBlock .gate0 : Prog (channel L A) Block)
  let gateC1 ← (readBlock .gate1 : Prog (channel L A) Block)
  let bitC ← (readF2 sw .bitC : Prog (channel L A) Bool)
  let gate0 := gateC0 ^^^ b.mac lb.authShare
  let gate1 := gateC1 ^^^ b.mac la.authShare
  let hLa := sw.hash la.wireLabel γ
  let hLb := sw.hash lb.wireLabel γ
  let laValue := la.maskedValue
  let laLambda := la.authShare
  let lbValue := lb.maskedValue
  let lbLambda := lb.authShare
  let gate0Muxed := scale laValue gate0
  let gate1Muxed := scale lbValue (gate1 ^^^ la.wireLabel)
  let lcLabel := hLa ^^^ hLb ^^^ macShare ^^^ macTriple ^^^ gate0Muxed ^^^ gate1Muxed
  let lcValue := sw.lsb lcLabel ^^ bitC
  (writeF2 sw .value lcValue : Prog (channel L A) Unit)
  let shareMasks := b.constantWithDelta ((laValue && lbValue) ^^ lcValue) delta
  let validationShare := b.xor (b.xor (b.xor (b.xor shareMasks (b.mulWithConst laLambda lbValue))
    (b.mulWithConst lbLambda laValue)) lcTriple) lcShare
  let validationBit ← b.openShares [validationShare] delta
  let c ← (index validationBit 0 : Prog (channel L A) Bool)
  if c = false then
    pure ⟨lcValue, lcLabel, lcShare⟩
  else
    (Prog.fail (I := channel L A) <| .other <|
      "Evaluator's authentication validation check failed at index " ++ toString γ)

instance : Negating (EvaluatorM sw b) (AuthenticatedWireMod2 b.Share) where
  constant c := do
    let share := b.constantWithDelta false (← get).delta
    let wireLabel ← (readBlock .wireLabel : Prog (channel L A) Block)
    pure ⟨c, wireLabel, share⟩
  xor x y    := pure {
    maskedValue := x.maskedValue ^^ y.maskedValue
    wireLabel   := x.wireLabel ^^^ y.wireLabel
    authShare   := b.xor x.authShare y.authShare
  }
  and        := and
  negate x   := do
    let one := (← get).one
    pure ⟨x.maskedValue ^^ true, x.wireLabel ^^^ one, x.authShare⟩

def encodeMany (values : List UInt16) (moduli : Nat) :
    EvaluatorM sw b (List (AuthenticatedWireMod2 b.Share)) := do
  if values.length ≠ moduli then
    (fault "one modulus for each value" : Prog (channel L A) _)
  let myAuthShares ← (List.replicate moduli ()).mapM fun _ => nextAuthShare
  let theirBits ← b.openTheirShares myAuthShares (← get).delta
  let myMaskedValues ← (theirBits.zip (myAuthShares.zip values)).mapM fun x =>
    match sw.ofU16 x.2.2 with
    | some value => pure (value ^^ b.bit x.2.1 ^^ x.1)
    | none       => (fault "Invalid value, must be boolean" : Prog (channel L A) Bool)
  myMaskedValues.forM fun maskedValue =>
    (writeF2 sw .maskedValue maskedValue : Prog (channel L A) Unit)
  receiveWirelabels myMaskedValues myAuthShares

def receiveMany (moduli : Nat) : EvaluatorM sw b (List (AuthenticatedWireMod2 b.Share)) := do
  let myAuthShares ← (List.replicate moduli ()).mapM fun _ => nextAuthShare
  b.openMyShares myAuthShares
  let maskedValues ← (List.replicate moduli ()).mapM fun _ =>
    (readF2 sw .maskedValue : Prog (channel L A) Bool)
  receiveWirelabels maskedValues myAuthShares

def outputs (x : List (AuthenticatedWireMod2 b.Share)) :
    EvaluatorM sw b (Option (List UInt16)) := do
  let masks ← b.openTheirShares (x.map (·.authShare)) (← get).delta
  pure <| some <| (masks.zip x).map fun y =>
    toU16 (y.1 ^^ y.2.maskedValue ^^ b.bit y.2.authShare)

end Evaluator

end Garbling
