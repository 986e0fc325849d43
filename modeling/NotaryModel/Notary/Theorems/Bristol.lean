import NotaryModel.Circuit.Netlist
import NotaryModel.Notary.Theorems.BristolText
import NotaryModel.Notary.Theorems.GenSha256Compress

open Circuit Wires
open Fips180 (Word)

namespace Notary.GenSha256Compress

variable {n : Nat} {b : Builder} {bits : List Bool}

-- What a user of a builder may call.
inductive Call
  | xor (a b : Nat)
  | and (a b : Nat)
  | inv (a : Nat)
  | constantU32 (value : Word)

def Call.run : Call → Build Unit
  | .xor a b           => discard (GenSha256Compress.xor a b)
  | .and a b           => discard (GenSha256Compress.and a b)
  | .inv a             => discard (GenSha256Compress.inv a)
  | .constantU32 value => discard (GenSha256Compress.constantU32 value)

-- The wires that the call names have been allocated.
def Call.Allocated (b : Builder) : Call → Prop
  | .xor a c       => a < b.nextWire ∧ c < b.nextWire
  | .and a c       => a < b.nextWire ∧ c < b.nextWire
  | .inv a         => a < b.nextWire
  | .constantU32 _ => True

-- The builders that there are.
inductive Built (n : Nat) : Builder → Prop
  | new : 0 < n → Built n (Builder.new n)
  | call {b : Builder} {c : Call} : Built n b → c.Allocated b → Built n (c.run.run b).2

-- The invariant of a builder with `n` inputs.
structure Builder.Sound (n : Nat) (b : Builder) : Prop where
  pos        : 0 < n
  next       : b.nextWire = n + b.gates.length
  sequential : Sequential n b.gates
  unary      : ∀ g ∈ b.gates, g.kind = .inv → g.in2 = 0
  ok         : ∀ bits, bits.length = n → b.Ok (ofBits bits)

namespace Builder.Sound

theorem new (h : 0 < n) : (Builder.new n).Sound n where
  pos        := h
  next       := rfl
  sequential := by
    have h₁ : Sequential n [⟨.xor, 0, 0, n⟩] := .concat .nil h h rfl
    exact .concat h₁ (Nat.lt_succ_self n) (Nat.lt_succ_of_lt h) rfl
  unary      := List.forall_mem_cons.mpr ⟨nofun, List.forall_mem_singleton.mpr fun _ => rfl⟩
  ok bits hb := ok_new hb h

theorem isSome_iff (hb : b.Sound n) (hl : bits.length = n) :
    (b.wires (ofBits bits) w).isSome ↔ w < b.nextWire := by
  subst hl
  rw [hb.next]
  exact hb.sequential.eval_isSome_iff

theorem zero_lt (hb : b.Sound n) : b.zero < b.nextWire := by
  have hl : (List.replicate n false).length = n := List.length_replicate
  rw [←hb.isSome_iff hl, (hb.ok _ hl).zero]
  rfl

variable {kind : GateKind} {in1 in2 : Nat}

theorem emits (hb : b.Sound n) (h₁ : in1 < b.nextWire) (h₂ : in2 < b.nextWire)
    (hl : bits.length = n) : ∃ v, Gate.value ⟨kind, in1, in2, b.nextWire⟩ (b.wires (ofBits bits)) =
      some v ∧ Emits (ofBits bits) b (gate kind in1 in2) fun r ws => ws r = some v := by
  have hv : (Gate.value ⟨kind, in1, in2, b.nextWire⟩ (b.wires (ofBits bits))).isSome :=
    Sequential.value_isSome ((hb.isSome_iff hl).mpr h₁) ((hb.isSome_iff hl).mpr h₂)
  obtain ⟨v, hv⟩ := Option.isSome_iff_exists.mp hv
  exact ⟨v, hv, emits_gate (hb.ok bits hl) hv⟩

-- A gate that reads allocated wires keeps the invariant.
theorem gate (hb : b.Sound n) (h₁ : in1 < b.nextWire) (h₂ : in2 < b.nextWire)
    (hk : kind = .inv → in2 = 0) : ((gate kind in1 in2).run b).2.Sound n where
  pos        := hb.pos
  next       := by
    change b.nextWire + 1 = n + (b.gates ++ [_]).length
    rw [hb.next, List.length_append]
    rfl
  sequential := .concat hb.sequential (hb.next ▸ h₁) (hb.next ▸ h₂) hb.next
  unary      := List.forall_mem_append.mpr ⟨hb.unary, List.forall_mem_singleton.mpr hk⟩
  ok bits hl :=
    have ⟨_, _, h⟩ := hb.emits h₁ h₂ hl
    h.ok

theorem nextWire_pos (hb : b.Sound n) : 0 < b.nextWire := by
  have hp := hb.pos
  rw [hb.next]
  omega

theorem call {c : Call} (hb : b.Sound n) (h : c.Allocated b) : (c.run.run b).2.Sound n := by
  cases c
  case xor         => exact hb.gate h.left h.right nofun
  case and         => exact hb.gate h.left h.right nofun
  case inv         => exact hb.gate h hb.nextWire_pos fun _ => rfl
  case constantU32 => exact hb

end Builder.Sound

theorem Built.sound (h : Built n b) : b.Sound n := by
  induction h
  case new h     => exact .new h
  case call h hi => exact hi.call h

-- The gates that pass the outputs on.
def passOn (b : Builder) (outs : List Nat) : List Nat × Builder :=
  (outs.mapM fun ow => xor ow b.zero).run b

structure PassesOn (n : Nat) (b : Builder) (outs : List Nat) (r : List Nat × Builder) : Prop where
  sound  : r.2.Sound n
  wires  : r.1 = List.range' b.nextWire outs.length
  next   : r.2.nextWire = b.nextWire + outs.length
  le     : ∀ bits, bits.length = n → Le (b.wires (ofBits bits)) (r.2.wires (ofBits bits))
  values : ∀ bits, bits.length = n →
    r.1.map (r.2.wires (ofBits bits)) = outs.map (b.wires (ofBits bits))

theorem passOn_cons : passOn b (ow :: outs) =
    (b.nextWire :: (passOn ((xor ow b.zero).run b).2 outs).1,
      (passOn ((xor ow b.zero).run b).2 outs).2) := by
  simp only [passOn, List.mapM_cons]
  rfl

-- Wires that have been allocated keep their values.
theorem Builder.Sound.wires_eq (hb : b.Sound n) (hl : bits.length = n) (hw : w < b.nextWire)
    (le : Le (b.wires (ofBits bits)) ws) : ws w = b.wires (ofBits bits) w := by
  obtain ⟨v, hv⟩ := Option.isSome_iff_exists.mp ((hb.isSome_iff hl).mpr hw)
  rw [hv, le _ _ hv]

-- The wire of a gate that passes `ow` on has the value of `ow`.
theorem Builder.Sound.xor_zero (hb : b.Sound n) (hl : bits.length = n) (hw : ow < b.nextWire) :
    Emits (ofBits bits) b (xor ow b.zero) fun r ws => ws r = b.wires (ofBits bits) ow := by
  obtain ⟨v, hv⟩ := Option.isSome_iff_exists.mp ((hb.isSome_iff hl).mpr hw)
  rw [hv]
  exact (emits_xor (hb.ok _ hl) hv (hb.ok _ hl).zero).weaken fun _ h => by rw [h, Bool.xor_false]

theorem passesOn (hb : b.Sound n) (h : ∀ w ∈ outs, w < b.nextWire) :
    PassesOn n b outs (passOn b outs) := by
  induction outs generalizing b
  case nil =>
    exact ⟨hb, rfl, rfl, fun _ _ => Le.refl, fun _ _ => rfl⟩
  case cons ow outs hi =>
    have hw : ow < b.nextWire := h ow List.mem_cons_self
    have ho {w} (hm : w ∈ outs) : w < b.nextWire := h w (List.mem_cons_of_mem _ hm)
    have hs : ((xor ow b.zero).run b).2.Sound n := hb.gate hw hb.zero_lt nofun
    have hr := hi hs fun w hm => Nat.lt_succ_of_lt (ho hm)
    rw [passOn_cons]
    constructor
    case sound => exact hr.sound
    case wires =>
      rw [hr.wires]
      rfl
    case next =>
      rw [hr.next, List.length_cons]
      exact Nat.succ_add_eq_add_succ ..
    case le =>
      exact fun bits hl => (hb.xor_zero hl hw).le.trans (hr.le bits hl)
    case values =>
      intro bits hl
      have hx := hb.xor_zero hl hw
      have hd : (passOn ((xor ow b.zero).run b).2 outs).2.wires (ofBits bits) b.nextWire =
          b.wires (ofBits bits) ow := by
        rw [hs.wires_eq hl (Nat.lt_succ_self _) (hr.le bits hl)]
        exact hx.post
      rw [List.map_cons, List.map_cons, hd, hr.values bits hl]
      congr 1
      exact List.map_congr_left fun w hm => hb.wires_eq hl (ho hm) hx.le

-- What is written of a builder with `n` input bits can be read back: the numbers are those of the
-- gates, gate `i` drives wire `n + i` and reads wires before it, and the last wires have the values of
-- the outputs.
theorem write_emits (h : Built n b) (ho : ∀ w ∈ outs, w < b.nextWire) (n1 n2 : Nat) :
    ∃ c : Bristol, b.write n1 n2 outs = c.text ∧ Bristol.read (b.write n1 n2 outs) = some c ∧
      c.nGates = c.gates.length ∧ c.nWires = n + c.gates.length ∧
      c.n1 = n1 ∧ c.n2 = n2 ∧ c.n3 = outs.length ∧ n + outs.length ≤ c.nWires ∧
      c.gates.map Gate.out = List.range' n c.gates.length ∧
      (∀ i, (hi : i < c.gates.length) → c.gates[i].in1 < n + i ∧ c.gates[i].in2 < n + i) ∧
      ∀ bits, bits.length = n →
        (∀ w ∈ outs, (b.wires (ofBits bits) w).isSome) ∧
        (List.range' (c.nWires - c.n3) c.n3).map (eval c.gates (ofBits bits)) =
          outs.map (b.wires (ofBits bits)) := by
  have hp := passesOn h.sound ho
  have hl : (passOn b outs).1.length = outs.length := by rw [hp.wires, List.length_range']
  have hn : (passOn b outs).2.nextWire = b.nextWire + outs.length := hp.next
  have hb := h.sound.next
  refine ⟨b.toBristol n1 n2 outs, rfl, Bristol.read_text hp.sound.unary, rfl, hp.sound.next, rfl, rfl,
    hl, ?_, hp.sound.sequential.outs, fun i => hp.sound.sequential.reads,
    fun bits hl' => ⟨fun w hw => ?_, ?_⟩⟩
  · change n + outs.length ≤ (passOn b outs).2.nextWire
    omega
  · exact (h.sound.isSome_iff hl').mpr (ho w hw)
  · change (List.range' ((passOn b outs).2.nextWire - (passOn b outs).1.length)
      (passOn b outs).1.length).map _ = _
    rw [hl, hn, Nat.add_sub_cancel, ←hp.wires]
    exact hp.values bits hl'

-- Two inputs, the negation of one of them, and the AND of both as the one output.
theorem write_emits_and : ∃ c : Bristol,
    ((inv 0).run ((and 0 1).run (Builder.new 2)).2).2.write 1 1 [4] = c.text ∧
      Bristol.read (((inv 0).run ((and 0 1).run (Builder.new 2)).2).2.write 1 1 [4]) = some c ∧
      c.n3 = 1 ∧ (List.range' (c.nWires - c.n3) c.n3).map (eval c.gates (ofBits [true, true])) =
        [some true] := by
  have ha : (Call.and 0 1).Allocated (Builder.new 2) := ⟨by decide, by decide⟩
  have hi : (Call.inv 0).Allocated ((and 0 1).run (Builder.new 2)).2 :=
    show 0 < ((and 0 1).run (Builder.new 2)).2.nextWire by decide
  have hb : Built 2 ((inv 0).run ((and 0 1).run (Builder.new 2)).2).2 :=
    .call (.call (.new Nat.two_pos) ha) hi
  have ho : ∀ w ∈ [4], w < ((inv 0).run ((and 0 1).run (Builder.new 2)).2).2.nextWire := by decide
  obtain ⟨c, ht, hr, -, -, -, -, h3, -, -, -, hv⟩ := write_emits hb ho 1 1
  exact ⟨c, ht, hr, h3, (hv [true, true] rfl).right⟩

end Notary.GenSha256Compress
