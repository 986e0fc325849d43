import NotaryModel.Circuit.StraightLine
import NotaryModel.Notary.Garble

open Circuit
open Notary (Err)

@[simp]
theorem Prog.map_pure {I : Interface} (f : α → β) (a : α) :
    f <$> (Prog.pure a : Prog I α) = Prog.pure (f a) :=
  rfl

-- Authenticated garbling: the garbler and the evaluator of one circuit, over the authenticated bits
-- of a library.
namespace Garbling

-- `U8x16`, which wire labels, keys and MACs are stored in.
abbrev Block := Arr 16

-- The product of a bit and an element of the field of labels.
def scale (b : Bool) (x : Block) : Block :=
  if b then x else 0

-- A bit as a `u16`.
def toU16 (b : Bool) : UInt16 :=
  if b then 1 else 0

-- The messages of the protocol.
inductive Message
  | one
  | maskedValue
  | wireLabel
  | gate0
  | gate1
  | bitC
  | value

-- The channel also carries the messages `L` and the joint sessions `Q` of the library.
abbrev channel (L : Type) {Q : Type} (A : Q → Type) : Interface where
  Label  := Message ⊕ L
  Query  := Q
  Answer := A
  Err    := Err
  closed := .closed

-- What the analysis of a circuit counts.
structure Analysis where
  nands      : Nat
  ninputs    : Nat
  nconstants : Nat

-- What both parties use of the libraries for labels, bits and circuits.
structure Swanky where
  hash          : Block → Nat → Block
  lsb           : Block → Bool
  lsb_xor       : ∀ x y, lsb (x ^^^ y) = (lsb x ^^ lsb y)
  ofU16         : UInt16 → Option Bool
  ofU16_toU16   : ∀ b, ofU16 (toU16 b) = some b
  toByte        : Bool → Byte
  ofByte        : Byte → Except Err Bool
  ofByte_toByte : ∀ b, ofByte (toByte b) = .ok b
  analyze       : ∀ {s n : Nat}, Executor s n → Analysis

-- The analysis counts the inputs of a circuit and its `k` AND gates.
structure Swanky.Counts (sw : Swanky) (c : Executor s n) (k : Nat) : Prop where
  nands   : (sw.analyze c).nands = k
  ninputs : (sw.analyze c).ninputs = s

-- One party's end of the library for authenticated bits.
structure AuthBits (I : Interface) where
  Share             : Type
  Triple            : Type
  delta             : Block
  bit               : Share → Bool
  mac               : Share → Block
  key               : Share → Block
  xor               : Share → Share → Share
  mulWithConst      : Share → Bool → Share
  constantWithDelta : Bool → Block → Share
  generateTriples   : Nat → Prog I (List Triple)
  generate          : Nat → Prog I (List Share)
  toKnownTriple     : List Triple → List Share → List Share → Prog I (List Share)
  openMyShares      : List Share → Prog I Unit
  openTheirShares   : List Share → Block → Prog I (List Bool)
  openShares        : List Share → Block → Prog I (List Bool)

structure AuthenticatedWireMod2 (Share : Type) where
  maskedValue : Bool
  wireLabel   : Block
  authShare   : Share

section

variable {L Q : Type} {A : Q → Type}

def writeBlock (l : Message) (x : Block) : Prog (channel L A) Unit :=
  Prog.send (I := channel L A) (.inl l) x.toList

def readBlock (l : Message) : Prog (channel L A) Block :=
  Prog.recv (I := channel L A) (.inl l) 16

def writeF2 (sw : Swanky) (l : Message) (b : Bool) : Prog (channel L A) Unit :=
  Prog.send (I := channel L A) (.inl l) (Vector.toList #v[sw.toByte b])

def ofExcept : Except Err α → Prog (channel L A) α
  | .ok a    => .pure a
  | .error e => .fail e

def readF2 (sw : Swanky) (l : Message) : Prog (channel L A) Bool := do
  let v ← Prog.recv (I := channel L A) (.inl l) 1
  ofExcept (sw.ofByte v.byte)

def fault (msg : String) : Prog (channel L A) α :=
  .fail (.panic msg)

end

-- Element `i` of a vector, whose bounds are checked.
def index (xs : List α) (i : Nat) : Prog (channel L A) α :=
  match xs[i]? with
  | some x => pure x
  | none   => fault "index out of bounds"

theorem index_of_drop {xs : List α} (h : xs.drop i = x :: rest) :
    (index xs i : Prog (channel L A) α) = pure x := by
  have hx : xs[i]? = some x := by
    rw [←List.head?_drop, h]
    rfl
  rw [index, hx]

@[simp]
theorem scale_true (x : Block) : scale true x = x :=
  rfl

@[simp]
theorem scale_false (x : Block) : scale false x = 0 :=
  rfl

theorem scale_xor (a b : Bool) (x : Block) : scale (a ^^ b) x = scale a x ^^^ scale b x := by
  cases a <;> cases b <;> simp [scale]

end Garbling
