import NotaryModel.Circuit.Fancy
import NotaryModel.Notary.Garble

open Circuit
open FancyBinary (constant xor and)

-- The garbled circuits and the sessions that evaluate them, over a backend that works on bits: the
-- owner of an input hands the bit to its peer.
namespace Notary.Plain

theorem toList_set_xor (v : Vector Bool n) (h : r < n) (b : Bool) :
    (v.set r (v[r] ^^ b)).toList = if b then v.toList.modify r not else v.toList := by
  cases b
  case false => simp
  case true  =>
    rw [List.modify_eq_set_get _ (by simpa using h), Vector.toList_set]
    simp

theorem toList_foldl_set_xor (l : List (Fin 128)) (v : Vector Bool 128) (b : Bool) :
    (l.foldl (fun v r => v.set r (v.get r ^^ b)) v).toList =
    if b then (l.map Fin.val).foldl (fun v r => v.modify r not) v.toList else v.toList := by
  induction l generalizing v
  case nil          => simp
  case cons r l hi =>
    have hs : (v.set r (v.get r ^^ b)).toList = _ := toList_set_xor v r.isLt b
    rw [List.foldl_cons, hi, hs]
    cases b <;> rfl

section

variable {M : Type → Type} {Item : Type} [Monad M] [FancyBinary M Item]

-- Bit `xi` of the first factor: `z` collects the product, `v` is shifted and reduced.
def GhashMulCircuit.round (zero : Item) :
    Vector Item 128 × Vector Item 128 → Item → M (Vector Item 128 × Vector Item 128)
  | (z, v), xi => do
    let z ← Vector.ofFnM fun j => do
      let xv ← and xi v[j.val]
      xor z[j.val] xv
    let lsb := v[127]
    let v := Vector.ofFn fun j => if j.val = 0 then zero else v[j.val - 1]
    let v ← [0, 1, 2, 7].foldlM
      (fun (v : Vector Item 128) (r : Fin 128) => do return v.set r (← xor (v.get r) lsb)) v
    return (z, v)

def GhashMulCircuit.executeOn (x y : Vector Item 128) : M (Vector Item 128) := do
  let zero ← constant false
  let (z, _) ← x.toList.foldlM (GhashMulCircuit.round zero) (Vector.replicate 128 zero, y)
  return z

end

def GhashMulCircuit : BinaryCircuit 256 128 where
  execute inputs := GhashMulCircuit.executeOn
    (.ofFn fun i => inputs[i.val]) (.ofFn fun i => inputs[128 + i.val])

-- Chains `n` multiplications: the inputs are the hash key and then the blocks.
def GhashChainCircuit (nBlocks : Nat) : BinaryCircuit (128 + nBlocks * 128) 128 where
  execute inputs := do
    let h := .ofFn fun i => inputs[i.val]
    let zero ← constant false
    (List.finRange nBlocks).foldlM (fun acc blk => do
      let start := 128 + blk.val * 128
      let x ← Vector.ofFnM fun i => xor acc[i.val] inputs[start + i.val]
      GhashMulCircuit.executeOn x h) (.replicate 128 zero)

section

variable {M : Type → Type} {Item : Type} [Monad M] [FancyBinary M Item]

-- The inputs are the garbler's shares of the inputs of `inner`, its mask of the outputs, and the
-- same of the evaluator.
def splitSharedInputMask (inner : Vector Item s → M (Vector Item m))
    (inputs : Vector Item ((s + m) + (s + m))) : M (Vector Item m) := do
  let gb := s + m
  let combined ← Vector.ofFnM fun i : Fin s =>
    xor (inputs.get ((i.castAdd m).castAdd gb)) (inputs.get ((i.castAdd m).natAdd gb))
  let outputs ← inner combined
  Vector.ofFnM fun i => do
    let mask ← xor (inputs.get ((i.natAdd s).castAdd gb)) (inputs.get ((i.natAdd s).natAdd gb))
    xor (outputs.get i) mask

end

def SplitSharedInputMaskCircuit (inner : BinaryCircuit s m) :
    BinaryCircuit ((s + m) + (s + m)) m where
  execute := splitSharedInputMask inner.execute

def GhashChainWrk17Circuit (nBlocks : Nat) :
    BinaryCircuit ((128 + nBlocks * 128 + 128) + (128 + nBlocks * 128 + 128)) 128 :=
  SplitSharedInputMaskCircuit (GhashChainCircuit nBlocks)

inductive Owner
  | garbler
  | evaluator

abbrev wires : Interface where
  Label  := Owner
  Query  := Empty
  Answer := nofun
  Err    := Err
  closed := .closed

abbrev Session :=
  Prog wires

def encodeMany (owner : Owner) (vals : List Bool) (n : Nat) : Session (Vector Bool n) :=
  if h : vals.length = n then do
    let items : Vector Bool n := ⟨vals.toArray, h⟩
    Prog.send (I := wires) owner (items.map fun b => if b then 1 else 0).toList
    pure items
  else
    .fail (.panic "one modulus for each input")

def receiveMany (owner : Owner) (n : Nat) : Session (Vector Bool n) := do
  let v ← Prog.recv (I := wires) owner n
  pure (v.map (· == 1))

-- The garbler learns nothing of the outputs.
def garblerOutputs (_ : Vector Bool m) : Session (Option (Vector Bool m)) :=
  pure none

def evaluatorOutputs (out : Vector Bool m) : Session (Option (Vector Bool m)) :=
  pure (some out)

-- The common part of the notary's sessions: its shares and the random `mask` go in.
def notaryMaskedRun (circ : BinaryCircuit ((s + m) + (s + m)) m) (garblerSharedBits : List Bool)
    (mask : Bytes) : Session Bytes := do
  let gbVals := garblerSharedBits ++ bytesToBits mask
  let mine ← encodeMany .garbler gbVals (s + m)
  let theirs ← receiveMany .evaluator (s + m)
  let out := circ.value (mine ++ theirs)
  let _ ← garblerOutputs out
  pure mask

-- The common part of the client's sessions, whose own mask is zero.
def clientMaskedRun (circ : BinaryCircuit ((s + m) + (s + m)) m) (evaluatorSharedBits : List Bool) :
    Session (Vector Bool m) := do
  let evVals := evaluatorSharedBits ++ List.replicate m false
  let notary ← receiveMany .garbler (s + m)
  let mine ← encodeMany .evaluator evVals (s + m)
  let out := circ.value (notary ++ mine)
  let some vals ← evaluatorOutputs out
    | .fail (.panic "WRK17 evaluator receives circuit output")
  pure vals

def wrk17NotaryMaskedRun (inner : BinaryCircuit s m) (garblerSharedBits : List Bool)
    (mask : Arr (m / 8)) : Session Bytes :=
  notaryMaskedRun (SplitSharedInputMaskCircuit inner) garblerSharedBits mask.toList

def wrk17ClientMaskedRun (inner : BinaryCircuit s m) (evaluatorSharedBits : List Bool) :
    Session Bytes := do
  let vals ← clientMaskedRun (SplitSharedInputMaskCircuit inner) evaluatorSharedBits
  let full := bitsToBytes 32 vals.toList
  if m / 8 ≤ 32 then
    pure (full.toList.take (m / 8))
  else
    .fail (.panic "range end index out of range for slice of length 32")

def runNotaryGhashChain (nBlocks : Nat) (garblerSharedBits : List Bool) (mask : Arr 16) :
    Session Bytes :=
  notaryMaskedRun (GhashChainWrk17Circuit nBlocks) garblerSharedBits mask.toList

def runClientGhashChain (nBlocks : Nat) (evaluatorSharedBits : List Bool) : Session Bytes := do
  let vals ← clientMaskedRun (GhashChainWrk17Circuit nBlocks) evaluatorSharedBits
  pure (bitsToBytes16 vals.toList).toList

def chainBits (blocks : List (Arr 16)) (h : Arr 16) : List Bool :=
  bytesToBits h.toList ++ blocks.flatMap (bytesToBits ·.toList)

def notaryGhashChainWrk17 (blocksN : List (Arr 16)) (hN mask : Arr 16) : Session (Arr 16) := do
  let mask ← runNotaryGhashChain blocksN.length (chainBits blocksN hN) mask
  pure (.ofBytes 16 mask)

def clientGhashChainWrk17 (blocksC : List (Arr 16)) (hC : Arr 16) : Session (Arr 16) := do
  let share ← runClientGhashChain blocksC.length (chainBits blocksC hC)
  pure (.ofBytes 16 share)

def notaryAesBlockWrk17 (aesCircuit : BinaryCircuit 256 128) (blockN keyN mask : Arr 16) :
    Session (Arr 16) := do
  let gbBits := bytesToBits blockN.toList ++ bytesToBits keyN.toList
  let mask ← wrk17NotaryMaskedRun aesCircuit gbBits mask
  pure (.ofBytes 16 mask)

def clientAesBlockWrk17 (aesCircuit : BinaryCircuit 256 128) (blockC keyC : Arr 16) :
    Session (Arr 16) := do
  let evBits := bytesToBits blockC.toList ++ bytesToBits keyC.toList
  let share ← wrk17ClientMaskedRun aesCircuit evBits
  pure (.ofBytes 16 share)

def notarySha256CompressXor (compressCircuit : BinaryCircuit 768 256) (ivN : Arr 32)
    (blockN : Arr 64) (mask : Arr 32) : Session (Arr 32) := do
  let gbBits := bytesToBits (ivN.toList ++ blockN.toList)
  let mask ← notaryMaskedRun (SplitSharedInputMaskCircuit compressCircuit) gbBits mask.toList
  pure (.ofBytes 32 mask)

def clientSha256CompressXor (compressCircuit : BinaryCircuit 768 256) (ivC : Arr 32)
    (blockC : Arr 64) : Session (Arr 32) := do
  let evBits := bytesToBits (ivC.toList ++ blockC.toList)
  let vals ← clientMaskedRun (SplitSharedInputMaskCircuit compressCircuit) evBits
  pure (bitsToBytes 32 vals.toList)

end Notary.Plain
