import NotaryModel.Circuit.Netlist
import NotaryModel.Circuit.StraightLine

namespace Circuit

-- The gates behind `k` wires as a straight-line circuit. Its outputs are the last `m` wires. There
-- is none if a gate reads a wire that is not there yet.
def straighten (m : Nat) : List Gate → (k : Nat) → Option (StraightLine k m)
  | [], k      =>
    if h : m ≤ k then
      some (.outputs (.ofFn fun i => (i.natAdd (k - m)).cast (Nat.sub_add_cancel h)))
    else
      none
  | g :: gs, k =>
    if h : g.in1 < k ∧ g.in2 < k then do
      let rest ← straighten m gs (k + 1)
      match g.kind with
      | .inv => some (.negate ⟨g.in1, h.left⟩ rest)
      | .xor => some (.xor ⟨g.in1, h.left⟩ ⟨g.in2, h.right⟩ rest)
      | .and => some (.and ⟨g.in1, h.left⟩ ⟨g.in2, h.right⟩ rest)
    else
      none

-- The wires below `k` have the values `v`.
def Wires.Agree (ws : Wires) (v : Vector Bool k) : Prop :=
  ∀ i, (h : i < k) → ws i = some v[i]

theorem Wires.Agree.push {ws : Wires} {v : Vector Bool k} (h : ws.Agree v) (hw : w = k) (b : Bool) :
    Wires.Agree (Function.update ws w (some b)) (v.push b) := by
  subst hw
  intro i hi
  rcases Nat.lt_succ_iff_lt_or_eq.mp hi with hl | rfl
  · rw [Function.update_of_ne hl.ne, Vector.getElem_push_lt hl]
    exact h i hl
  · rw [Function.update_self, Vector.getElem_push_eq]

-- Both evaluations drive the same wires.
theorem exists_straighten {gates : List Gate}
    (hr : ∀ i, (h : i < gates.length) → gates[i].in1 < k + i ∧ gates[i].in2 < k + i)
    (ho : gates.map Gate.out = List.range' k gates.length) (hm : m ≤ k + gates.length) :
    ∃ c, straighten m gates k = some c ∧ ∀ (v : Vector Bool k) (ws : Wires), ws.Agree v →
      (c.executor.value v).toList.map some =
        (List.range' (k + gates.length - m) m).map (eval gates ws) := by
  induction gates generalizing k
  case nil =>
    have hm : m ≤ k := hm
    refine ⟨_, dif_pos hm, fun v ws hv => List.ext_getElem (by simp) fun i hi _ => ?_⟩
    have hi : i < m := by simpa using hi
    have hw := hv (k - m + i) (by omega)
    simp only [Executor.value, StraightLine.executor, StraightLine.execute, Id.run_pure,
      List.getElem_map, Vector.getElem_toList, Vector.getElem_map, Vector.getElem_ofFn,
      List.getElem_range', List.length_nil, Nat.add_zero, Nat.one_mul, eval, List.foldl_nil, hw]
    rfl
  case cons g gates ih =>
    rw [List.map_cons, List.length_cons, List.range'_succ] at ho
    obtain ⟨hg, ho⟩ := List.cons.inj ho
    have h : g.in1 < k ∧ g.in2 < k := hr 0 (Nat.zero_lt_succ _)
    have hlen : k + (g :: gates).length = k + 1 + gates.length := by
      rw [List.length_cons]
      omega
    have hr' (i) (h : i < gates.length) :
        gates[i].in1 < k + 1 + i ∧ gates[i].in2 < k + 1 + i := by
      have h := hr (i + 1) (by simpa using h)
      rw [List.getElem_cons_succ] at h
      omega
    obtain ⟨c, hc, hv⟩ := ih hr' ho (hlen ▸ hm)
    have hs {ws : Wires} {v : Vector Bool k} {b : Bool} (ha : ws.Agree v)
        (hb : g.value ws = some b) : (c.executor.value (v.push b)).toList.map some =
          (List.range' (k + (g :: gates).length - m) m).map (eval (g :: gates) ws) := by
      have ha := ha.push hg b
      rw [←hb] at ha
      rw [hlen]
      exact hv _ _ ha
    cases hk : g.kind
    case inv =>
      refine ⟨.negate ⟨g.in1, h.left⟩ c, by simp [straighten, h, hc, hk], fun v ws ha => hs ha ?_⟩
      rw [Gate.value, hk]
      simp only [ha _ h.left]
      rfl
    case xor =>
      refine ⟨.xor ⟨g.in1, h.left⟩ ⟨g.in2, h.right⟩ c, by simp [straighten, h, hc, hk],
        fun v ws ha => hs ha ?_⟩
      rw [Gate.value, hk]
      simp only [ha _ h.left, ha _ h.right]
      rfl
    case and =>
      refine ⟨.and ⟨g.in1, h.left⟩ ⟨g.in2, h.right⟩ c, by simp [straighten, h, hc, hk],
        fun v ws ha => hs ha ?_⟩
      rw [Gate.value, hk]
      simp only [ha _ h.left, ha _ h.right]
      rfl

end Circuit
