import Mathlib

-- Straight-line circuits of gates over bits. A wire that nothing was written to has no value.
namespace Circuit

inductive GateKind
  | inv
  | xor
  | and

structure Gate where
  kind : GateKind
  in1  : Nat
  in2  : Nat
  out  : Nat

abbrev Wires := Nat → Option Bool

namespace Wires

def ofBits (bits : List Bool) : Wires :=
  fun w => bits[w]?

def Le (ws₁ ws₂ : Wires) : Prop :=
  ∀ w v, ws₁ w = some v → ws₂ w = some v

-- The wires `x`, from the most significant bit on, have the value `v`.
def Carries (ws : Wires) (x : Vector Nat n) (v : BitVec n) : Prop :=
  ∀ i, (h : i < n) → ws x[i] = some (v.getMsbD i)

theorem Le.refl : Le ws ws :=
  fun _ _ h => h

theorem Le.trans (h₁ : Le ws₁ ws₂) (h₂ : Le ws₂ ws₃) : Le ws₁ ws₃ :=
  fun w v h => h₂ w v (h₁ w v h)

theorem Carries.mono (h : Carries ws₁ x v) (l : Le ws₁ ws₂) : Carries ws₂ x v :=
  fun i hi => l _ _ (h i hi)

end Wires

def Gate.value (g : Gate) (ws : Wires) : Option Bool :=
  match g.kind with
  | .inv => do return !(← ws g.in1)
  | .xor => do return (← ws g.in1) ^^ (← ws g.in2)
  | .and => do return (← ws g.in1) && (← ws g.in2)

def eval (gates : List Gate) (ws : Wires) : Wires :=
  gates.foldl (fun ws g => Function.update ws g.out (g.value ws)) ws

theorem eval_concat :
    eval (gates ++ [g]) ws = Function.update (eval gates ws) g.out (g.value (eval gates ws)) := by
  rw [eval, List.foldl_append]
  rfl

def msbBits (v : BitVec n) : List Bool :=
  List.ofFn fun i : Fin n => v.getMsbD i

variable {n : Nat} {v : BitVec n}

@[simp]
theorem length_msbBits : (msbBits v).length = n := by
  simp [msbBits]

theorem Wires.Carries.map_toList (h : Carries ws x v) : x.toList.map ws = (msbBits v).map some := by
  refine List.ext_getElem (by simp) fun i hi _ => ?_
  have hi : i < n := by simpa using hi
  simpa [msbBits] using h i hi

-- Words one after the other: word `k` of `n` bits starts at `k * n`.
theorem getElem?_flatMap_msbBits {l : List (BitVec n)} (h : i < n) :
    (l.flatMap msbBits)[k * n + i]? = l[k]?.map fun v => v.getMsbD i := by
  induction l generalizing k
  case nil          => simp
  case cons v l hl =>
    rw [List.flatMap_cons]
    cases k
    case zero =>
      rw [Nat.zero_mul, Nat.zero_add, List.getElem?_append_left (by simpa using h)]
      simp [msbBits, h]
    case succ k =>
      have hk : (k + 1) * n + i = n + (k * n + i) := by ring
      rw [hk, List.getElem?_append_right (by simp), length_msbBits, Nat.add_sub_cancel_left, hl]
      rfl

-- The sum bit and the carry of a ripple-carry adder at bit `k`.
theorem getLsbD_add_ripple (x y : BitVec n) (h : k < n) :
    (x + y).getLsbD k = (x.getLsbD k ^^ y.getLsbD k ^^ BitVec.carry k x y false) := by
  rw [BitVec.getLsbD_add h, Bool.xor_assoc]

theorem carry_ripple (x y : BitVec n) :
    BitVec.carry (k + 1) x y false =
    ((x.getLsbD k && y.getLsbD k) ^^
      (x.getLsbD k ^^ y.getLsbD k) && BitVec.carry k x y false) := by
  rw [BitVec.carry_succ]
  cases x.getLsbD k <;> cases y.getLsbD k <;> cases BitVec.carry k x y false <;> rfl

end Circuit
