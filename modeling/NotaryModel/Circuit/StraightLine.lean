import NotaryModel.Circuit.Fancy

namespace Circuit

-- A backend that negates as well.
class Negating (M : Type → Type) (Item : outParam Type) extends FancyBinary M Item where
  negate : Item → M Item

instance : Negating Id Bool where
  negate a := pure !a

-- A circuit whose gates each add a wire to the `k` wires that are there already.
inductive StraightLine : Nat → Nat → Type
  | outputs (outs : Vector (Fin k) n) : StraightLine k n
  | constant (b : Bool) (rest : StraightLine (k + 1) n) : StraightLine k n
  | negate (x : Fin k) (rest : StraightLine (k + 1) n) : StraightLine k n
  | xor (x y : Fin k) (rest : StraightLine (k + 1) n) : StraightLine k n
  | and (x y : Fin k) (rest : StraightLine (k + 1) n) : StraightLine k n

-- What a session runs: a circuit that can be executed by any backend.
structure Executor (s n : Nat) where
  execute : ∀ {M : Type → Type} {Item : Type} [Monad M] [Negating M Item],
    Vector Item s → M (Vector Item n)

def Executor.value (c : Executor s n) (bits : Vector Bool s) : Vector Bool n :=
  (c.execute (M := Id) bits).run

def BinaryCircuit.executor (c : BinaryCircuit s n) : Executor s n where
  execute := c.execute

namespace StraightLine

def execute {M : Type → Type} {Item : Type} [Monad M] [Negating M Item] :
    StraightLine k n → Vector Item k → M (Vector Item n)
  | outputs outs, ws    => pure (outs.map ws.get)
  | constant b rest, ws => do rest.execute (ws.push (← FancyBinary.constant b))
  | negate x rest, ws   => do rest.execute (ws.push (← Negating.negate (ws.get x)))
  | xor x y rest, ws    => do rest.execute (ws.push (← FancyBinary.xor (ws.get x) (ws.get y)))
  | and x y rest, ws    => do rest.execute (ws.push (← FancyBinary.and (ws.get x) (ws.get y)))

def executor (c : StraightLine s n) : Executor s n where
  execute := c.execute

-- The number of its AND gates.
def nands : StraightLine k n → Nat
  | outputs _       => 0
  | constant _ rest => rest.nands
  | negate _ rest   => rest.nands
  | xor _ _ rest    => rest.nands
  | and _ _ rest    => rest.nands + 1

end StraightLine

end Circuit
