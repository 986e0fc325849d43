import Mathlib

namespace Circuit

-- What a circuit needs of the backend that executes it.
class FancyBinary (M : Type → Type) (Item : outParam Type) where
  constant : Bool → M Item
  xor      : Item → Item → M Item
  and      : Item → Item → M Item

-- The backend whose items are the bits themselves.
instance : FancyBinary Id Bool where
  constant b := pure b
  xor a b    := pure (a ^^ b)
  and a b    := pure (a && b)

namespace FancyBinary

@[simp]
theorem run_constant : (constant b : Id Bool).run = b :=
  rfl

@[simp]
theorem run_xor : (xor a b : Id Bool).run = (a ^^ b) :=
  rfl

@[simp]
theorem run_and : (and a b : Id Bool).run = (a && b) :=
  rfl

end FancyBinary

-- A circuit of `s` inputs and `n` outputs, which any backend can execute.
structure BinaryCircuit (s n : Nat) where
  execute : ∀ {M : Type → Type} {Item : Type} [Monad M] [FancyBinary M Item],
    Vector Item s → M (Vector Item n)

-- The circuit on bits.
def BinaryCircuit.value (c : BinaryCircuit s n) (bits : Vector Bool s) : Vector Bool n :=
  (c.execute (M := Id) bits).run

end Circuit
