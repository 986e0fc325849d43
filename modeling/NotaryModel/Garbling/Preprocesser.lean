import NotaryModel.Garbling.Wire

open Circuit

namespace Garbling

variable {L Q : Type} {A : Q → Type}

structure PreProcessedWire (Share : Type) where
  authShare : Share

structure WirePreProcessor (b : AuthBits (channel L A)) where
  authShares         : List b.Share
  authSharesIndex    : Nat
  andGateLeftInputs  : List b.Share
  andGateRightInputs : List b.Share
  delta              : Block

abbrev PreM (b : AuthBits (channel L A)) :=
  StateT (WirePreProcessor b) (Prog (channel L A))

namespace WirePreProcessor

variable {b : AuthBits (channel L A)}

def new (authShares : List b.Share) (delta : Block) : WirePreProcessor b where
  authShares
  authSharesIndex    := 0
  andGateLeftInputs  := []
  andGateRightInputs := []
  delta

def nextAuthShare : PreM b b.Share := do
  let s ← get
  let authshare ← (index s.authShares s.authSharesIndex : Prog (channel L A) b.Share)
  set { s with authSharesIndex := s.authSharesIndex + 1 }
  pure authshare

def receiveMany (n : Nat) : PreM b (List (PreProcessedWire b.Share)) :=
  (List.replicate n ()).mapM fun _ => do
    let authShare ← nextAuthShare
    pure ⟨authShare⟩

instance : Negating (PreM b) (PreProcessedWire b.Share) where
  constant _ := do
    let s ← get
    pure ⟨b.constantWithDelta false s.delta⟩
  xor x y    := pure ⟨b.xor x.authShare y.authShare⟩
  and x y    := do
    modify fun s => {
      s with
      andGateLeftInputs := s.andGateLeftInputs ++ [x.authShare]
      andGateRightInputs := s.andGateRightInputs ++ [y.authShare]
    }
    let authshare ← nextAuthShare
    pure ⟨authshare⟩
  negate x   := pure x

end WirePreProcessor

-- Runs the circuit on wires that a backend holds in a vector.
def executeOn {S Item : Type} [Negating (StateT S (Prog (channel L A))) Item]
    (c : Executor s n) (inputs : List Item) : StateT S (Prog (channel L A)) (Vector Item n) :=
  if h : inputs.length = s then
    c.execute ⟨inputs.toArray, h⟩
  else
    (fault "index out of bounds" : Prog (channel L A) (Vector Item n))

-- The shares of the wires and of the products of AND gates.
def preprocessCircuit (sw : Swanky) (b : AuthBits (channel L A)) (circuit : Executor s n) :
    Prog (channel L A) (List b.Share × List b.Share) := do
  let { nands, ninputs, nconstants } := sw.analyze circuit
  -- A circuit with few AND gates still gets as many triples as the protocol needs to be secure.
  let nandTriples := if 0 < nands ∧ nands < 320 then 320 else nands
  let randAndTriples ← (if nands > 0 then b.generateTriples nandTriples else pure [])
  let authShares ← b.generate (nands + ninputs + nconstants)
  let execute : PreM b (Vector (PreProcessedWire b.Share) n) := do
    let inputs ← WirePreProcessor.receiveMany s
    executeOn circuit inputs
  let wirePreprocessor := Prod.snd (← execute.run (.new authShares b.delta))
  let knownTriples ← (if nands > 0 then
      b.toKnownTriple (randAndTriples.take nands)
        wirePreprocessor.andGateLeftInputs wirePreprocessor.andGateRightInputs
    else
      pure [])
  pure (authShares, knownTriples)

end Garbling
