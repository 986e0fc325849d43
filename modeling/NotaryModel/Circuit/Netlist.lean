import NotaryModel.Circuit.Gates

open Circuit.Wires

namespace Circuit

-- With `n` inputs, each gate drives the wire behind those that are there already, and reads from them.
inductive Sequential (n : Nat) : List Gate → Prop
  | nil : Sequential n []
  | concat : Sequential n gates → g.in1 < n + gates.length → g.in2 < n + gates.length →
    g.out = n + gates.length → Sequential n (gates ++ [g])

namespace Sequential

variable {n : Nat} {gates : List Gate}

-- Each wire that is no input is driven once, in the order of the gates.
theorem outs (h : Sequential n gates) : gates.map Gate.out = List.range' n gates.length := by
  induction h
  case nil => rfl
  case concat ho hi =>
    rw [List.map_append, hi, List.map_singleton, ho, List.length_append, List.length_singleton,
      List.range'_concat, Nat.one_mul]

theorem reads (h : Sequential n gates) (hi : i < gates.length) :
    gates[i].in1 < n + i ∧ gates[i].in2 < n + i := by
  induction h
  case nil => exact absurd hi (Nat.not_lt_zero i)
  case concat gates g _ h₁ h₂ _ ih =>
    by_cases hl : i < gates.length
    case pos =>
      rw [List.getElem_append_left hl]
      exact ih hl
    case neg =>
      have he : i = gates.length := by
        rw [List.length_append, List.length_singleton] at hi
        omega
      subst he
      simpa using ⟨h₁, h₂⟩

theorem value_isSome {g : Gate} (h₁ : (ws g.in1).isSome) (h₂ : (ws g.in2).isSome) :
    (g.value ws).isSome := by
  obtain ⟨u, h₁⟩ := Option.isSome_iff_exists.mp h₁
  obtain ⟨v, h₂⟩ := Option.isSome_iff_exists.mp h₂
  cases hk : g.kind <;> simp [Gate.value, hk, h₁, h₂]

-- The wires that have a value are the inputs and those that are driven.
theorem eval_isSome_iff (h : Sequential bits.length gates) :
    (eval gates (ofBits bits) w).isSome ↔ w < bits.length + gates.length := by
  induction h generalizing w
  case nil => simp [eval, ofBits]
  case concat gates g _ h₁ h₂ ho ih =>
    rw [eval_concat, List.length_append, List.length_singleton]
    by_cases hw : w = g.out
    case pos =>
      subst hw
      rw [Function.update_self]
      exact iff_of_true (value_isSome (ih.mpr h₁) (ih.mpr h₂)) (by omega)
    case neg =>
      rw [Function.update_of_ne hw, ih]
      omega

end Sequential

end Circuit
