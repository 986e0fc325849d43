import Mathlib

open Polynomial

-- Lists of bits as polynomials over GF(2), lowest coefficient first.
namespace BinaryPoly

abbrev Poly := (ZMod 2)[X]

noncomputable def bit (b : Bool) : Poly :=
  if b then 1 else 0

noncomputable def toPoly : List Bool → Poly
  | []      => 0
  | b :: bs => bit b + X * toPoly bs

@[simp]
theorem bit_false : bit false = 0 :=
  rfl

@[simp]
theorem bit_true : bit true = 1 :=
  rfl

theorem bit_xor (a b : Bool) : bit (a ^^ b) = bit a + bit b := by
  cases a <;> cases b <;> simp [CharTwo.add_self_eq_zero]

@[simp]
theorem toPoly_nil : toPoly [] = 0 :=
  rfl

@[simp]
theorem toPoly_cons : toPoly (b :: bs) = bit b + X * toPoly bs :=
  rfl

@[simp]
theorem toPoly_replicate_false (n : Nat) : toPoly (List.replicate n false) = 0 := by
  induction n
  case zero      => rfl
  case succ n hi => simp [List.replicate_succ, hi]

theorem toPoly_append (a b : List Bool) : toPoly (a ++ b) = toPoly a + X ^ a.length * toPoly b := by
  induction a
  case nil         => simp
  case cons a l hi =>
    rw [List.cons_append, toPoly_cons, hi, toPoly_cons, List.length_cons, pow_succ']
    ring

theorem toPoly_zipWith_xor (h : a.length = b.length) :
    toPoly (List.zipWith xor a b) = toPoly a + toPoly b := by
  induction a generalizing b
  case nil => simp [List.length_eq_zero_iff.mp h.symm]
  case cons a as hi =>
    cases b
    case nil => cases h
    case cons b bs =>
      rw [List.zipWith_cons_cons, toPoly_cons, hi (Nat.succ.inj h), bit_xor, toPoly_cons, toPoly_cons]
      ring

theorem toPoly_modify_not (h : r < l.length) : toPoly (l.modify r not) = toPoly l + X ^ r := by
  induction l generalizing r
  case nil          => cases h
  case cons b bs hi =>
    cases r
    case zero =>
      rw [List.modify_zero_cons, toPoly_cons, toPoly_cons, ←Bool.xor_true, bit_xor, bit_true, pow_zero]
      ring
    case succ r =>
      rw [List.modify_succ_cons, toPoly_cons, hi (Nat.lt_of_succ_lt_succ h), toPoly_cons, pow_succ']
      ring

theorem bit_injective : Function.Injective bit := by
  intro a b h
  cases a <;> cases b <;> simp_all

theorem toPoly_inj (h : a.length = b.length) : toPoly a = toPoly b ↔ a = b where
  mpr := congrArg _
  mp e := by
    induction a generalizing b
    case nil => exact (List.length_eq_zero_iff.mp h.symm).symm
    case cons a as hi =>
      cases b
      case nil => cases h
      case cons b bs =>
        have hc := congrArg (coeff · 0) e
        have h₀ : bit a = bit b := by
          cases a <;> cases b <;> simp at hc ⊢
        have ht : toPoly as = toPoly bs := by
          rw [toPoly_cons, toPoly_cons, h₀] at e
          exact mul_left_cancel₀ X_ne_zero (add_left_cancel e)
        rw [bit_injective h₀, hi (Nat.succ.inj h) ht]

theorem toPoly_eq_sum (l : List Bool) :
    toPoly l = ∑ i ∈ Finset.range l.length, bit (l.getD i false) * X ^ i := by
  induction l
  case nil          => rfl
  case cons b bs hi =>
    rw [toPoly_cons, hi, List.length_cons, Finset.sum_range_succ', Finset.mul_sum, add_comm]
    simp only [List.getD_cons_succ, List.getD_cons_zero, pow_succ', pow_zero, mul_one]
    exact congrArg (· + bit b) <| Finset.sum_congr rfl fun i _ => by ring

theorem degree_toPoly_lt (l : List Bool) : (toPoly l).degree < l.length := by
  induction l
  case nil          => simp
  case cons b bs hi =>
    have hb : (bit b).degree < (bs.length + 1 : Nat) := by
      cases b <;> simp
      exact WithBot.coe_pos.mpr (Nat.succ_pos _)
    refine (degree_add_le _ _).trans_lt (max_lt hb ?_)
    by_cases hz : toPoly bs = 0
    · simp [hz]
    · rw [degree_mul, degree_X, add_comm, List.length_cons]
      exact_mod_cast WithBot.add_lt_add_right WithBot.one_ne_bot hi

-- Multiplication by `x` shifts the coefficients. What is shifted out of `n` coefficients is `x ^ n`.
theorem X_mul_toPoly (h : l.length = n + 1) :
    X * toPoly l = toPoly (false :: l.take n) + bit (l.getD n false) * X ^ (n + 1) := by
  have hn : n < l.length := by omega
  have hl : l = l.take n ++ [l.getD n false] := by
    rw [List.getD_eq_getElem l false hn, List.take_append_getElem hn, ←h, List.take_length]
  have ht : (l.take n).length = n := by simp [h]
  conv_lhs => rw [hl]
  rw [toPoly_append, ht, toPoly_cons, toPoly_cons, toPoly_nil, bit_false]
  ring

end BinaryPoly
