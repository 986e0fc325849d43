import NotaryModel.Garbling.Garbler
import NotaryModel.Garbling.Evaluator
import NotaryModel.TwoParty.Exchange

open Circuit Exchange

namespace Garbling

variable {L Q : Type} {A : Q → Type}

-- The shares that the two parties hold of one bit.
@[ext]
structure SharePair (gb ev : AuthBits (channel L A)) (Paired : gb.Share → ev.Share → Prop) where
  garbler   : gb.Share
  evaluator : ev.Share
  paired    : Paired garbler evaluator

variable {gb ev : AuthBits (channel L A)} {Paired : gb.Share → ev.Share → Prop}

def SharePair.value (p : SharePair gb ev Paired) : Bool :=
  gb.bit p.garbler ^^ ev.bit p.evaluator

theorem SharePair.pairs_ext {ps qs : List (SharePair gb ev Paired × SharePair gb ev Paired)}
    (h₁ : ps.map (·.1.garbler) = qs.map (·.1.garbler))
    (h₂ : ps.map (·.2.garbler) = qs.map (·.2.garbler))
    (h₃ : ps.map (·.1.evaluator) = qs.map (·.1.evaluator))
    (h₄ : ps.map (·.2.evaluator) = qs.map (·.2.evaluator)) : ps = qs := by
  induction ps generalizing qs
  case nil          => exact (List.map_eq_nil_iff.mp h₁.symm).symm
  case cons p ps hi =>
    cases qs
    case nil       => simp at h₁
    case cons q qs =>
      simp only [List.map_cons, List.cons.injEq] at h₁ h₂ h₃ h₄
      rw [hi h₁.2 h₂.2 h₃.2 h₄.2]
      congr 1
      exact Prod.ext (SharePair.ext h₁.1 h₃.1) (SharePair.ext h₂.1 h₄.1)

-- The bit that `k` shares is the product of those that `p` shares.
def Product (p : SharePair gb ev Paired × SharePair gb ev Paired) (k : SharePair gb ev Paired) :
    Prop :=
  k.value = (p.1.value && p.2.value)

-- What the libraries promise to two parties that both keep to them.
structure Lawful (sw : Swanky) (F : Functionality (channel L A)) (gb ev : AuthBits (channel L A))
    (Paired : gb.Share → ev.Share → Prop) (PairedTriples : gb.Triple → ev.Triple → Prop) :
    Prop where
  -- The color bits of the two labels of a wire differ.
  lsb_delta : sw.lsb gb.delta = true
  mac_eq : Paired x y → ev.mac y = gb.key x ^^^ scale (ev.bit y) gb.delta
  paired_xor : Paired x y → Paired x' y' → Paired (gb.xor x x') (ev.xor y y')
  paired_mul : Paired x y → Paired (gb.mulWithConst x c) (ev.mulWithConst y c)
  paired_constant : Paired (gb.constantWithDelta c gb.delta) (ev.constantWithDelta c ev.delta)
  garbler_bit_xor : gb.bit (gb.xor x x') = (gb.bit x ^^ gb.bit x')
  evaluator_bit_xor : ev.bit (ev.xor y y') = (ev.bit y ^^ ev.bit y')
  garbler_bit_mul : gb.bit (gb.mulWithConst x c) = (gb.bit x && c)
  evaluator_bit_mul : ev.bit (ev.mulWithConst y c) = (ev.bit y && c)
  bit_constant :
    (gb.bit (gb.constantWithDelta c gb.delta) ^^ ev.bit (ev.constantWithDelta c ev.delta)) = c
  generateTriples : Scheduled F (gb.generateTriples n) (ev.generateTriples n) fun ts ts' =>
    ts.length = n ∧ List.Forall₂ PairedTriples ts ts'
  generate : Scheduled F (gb.generate n) (ev.generate n) fun xs ys =>
    ∃ ss : List (SharePair gb ev Paired),
      ss.length = n ∧ xs = ss.map (·.garbler) ∧ ys = ss.map (·.evaluator)
  toKnownTriple (ps : List (SharePair gb ev Paired × SharePair gb ev Paired)) :
    ts.length = ps.length → List.Forall₂ PairedTriples ts ts' → Scheduled F
      (gb.toKnownTriple ts (ps.map (·.1.garbler)) (ps.map (·.2.garbler)))
      (ev.toKnownTriple ts' (ps.map (·.1.evaluator)) (ps.map (·.2.evaluator)))
      fun zs ws => ∃ ks : List (SharePair gb ev Paired),
        List.Forall₂ Product ps ks ∧ zs = ks.map (·.garbler) ∧ ws = ks.map (·.evaluator)
  openGarbler (ss : List (SharePair gb ev Paired)) : Scheduled F
    (gb.openMyShares (ss.map (·.garbler))) (ev.openTheirShares (ss.map (·.evaluator)) ev.delta)
    fun _ bs => bs = ss.map fun p => gb.bit p.garbler
  openEvaluator (ss : List (SharePair gb ev Paired)) : Scheduled F
    (gb.openTheirShares (ss.map (·.garbler)) gb.delta) (ev.openMyShares (ss.map (·.evaluator)))
    fun bs _ => bs = ss.map fun p => ev.bit p.evaluator
  openBoth (ss : List (SharePair gb ev Paired)) : Scheduled F
    (gb.openShares (ss.map (·.garbler)) gb.delta) (ev.openShares (ss.map (·.evaluator)) ev.delta)
    fun bs bs' => bs = ss.map (·.value) ∧ bs' = ss.map (·.value)

namespace Lawful

variable {sw : Swanky} {F : Functionality (channel L A)}
  {PairedTriples : gb.Triple → ev.Triple → Prop}

def xor (h : Lawful sw F gb ev Paired PairedTriples) (p q : SharePair gb ev Paired) :
    SharePair gb ev Paired :=
  ⟨_, _, h.paired_xor p.paired q.paired⟩

def mul (h : Lawful sw F gb ev Paired PairedTriples) (p : SharePair gb ev Paired) (c : Bool) :
    SharePair gb ev Paired :=
  ⟨_, _, h.paired_mul p.paired (c := c)⟩

def constant (h : Lawful sw F gb ev Paired PairedTriples) (c : Bool) : SharePair gb ev Paired :=
  ⟨_, _, h.paired_constant (c := c)⟩

variable (h : Lawful sw F gb ev Paired PairedTriples)
include h

theorem value_xor (p q : SharePair gb ev Paired) : (h.xor p q).value = (p.value ^^ q.value) := by
  simp only [SharePair.value, xor, h.garbler_bit_xor, h.evaluator_bit_xor, Bool.xor_assoc,
    Bool.xor_left_comm]

theorem value_mul (p : SharePair gb ev Paired) (c : Bool) : (h.mul p c).value = (p.value && c) := by
  simp only [SharePair.value, mul, h.garbler_bit_mul, h.evaluator_bit_mul,
    Bool.and_xor_distrib_right]

theorem value_constant (c : Bool) : (h.constant c).value = c :=
  h.bit_constant

theorem mac_evaluator (p : SharePair gb ev Paired) :
    ev.mac p.evaluator = gb.key p.garbler ^^^ scale (ev.bit p.evaluator) gb.delta :=
  h.mac_eq p.paired

-- The color bits of the labels of a wire tell which of its values they stand for.
theorem lsb_label (x : Block) (c : Bool) : (sw.lsb (x ^^^ scale c gb.delta) ^^ sw.lsb x) = c := by
  have hz : sw.lsb 0 = false := by simpa using sw.lsb_xor 0 0
  rw [sw.lsb_xor, Bool.xor_comm (sw.lsb x), Bool.xor_assoc, Bool.xor_self, Bool.xor_false]
  cases c
  case false => exact hz
  case true  => exact h.lsb_delta

end Lawful

-- The next share of the preprocessing and of the two parties.
section

variable {b : AuthBits (channel L A)} {sw : Swanky} {x : b.Share} {xs : List b.Share}

theorem WirePreProcessor.run_nextAuthShare {P : WirePreProcessor b}
    (h : P.authShares.drop P.authSharesIndex = x :: xs) : nextAuthShare.run P =
    .pure (x, { P with authSharesIndex := P.authSharesIndex + 1 }) := by
  simp [nextAuthShare, index_of_drop h]

theorem Garbler.run_nextAuthShare {S : Garbler sw b}
    (h : S.authShares.drop S.authSharesIndex = x :: xs) : nextAuthShare.run S =
    .pure (x, { S with authSharesIndex := S.authSharesIndex + 1 }) := by
  simp [nextAuthShare, index_of_drop h]

theorem Garbler.run_nextAndAuthShare {S : Garbler sw b}
    (h : S.andAuthShares.drop S.andAuthSharesIndex = x :: xs) : nextAndAuthShare.run S =
    .pure (x, { S with andAuthSharesIndex := S.andAuthSharesIndex + 1 }) := by
  simp [nextAndAuthShare, index_of_drop h]

theorem Evaluator.run_nextAuthShare {T : Evaluator sw b}
    (h : T.authShares.drop T.authSharesIndex = x :: xs) : nextAuthShare.run T =
    .pure (x, { T with authSharesIndex := T.authSharesIndex + 1 }) := by
  simp [nextAuthShare, index_of_drop h]

theorem Evaluator.run_nextAndAuthShare {T : Evaluator sw b}
    (h : T.andAuthShares.drop T.andAuthSharesIndex = x :: xs) : nextAndAuthShare.run T =
    .pure (x, { T with andAuthSharesIndex := T.andAuthSharesIndex + 1 }) := by
  simp [nextAndAuthShare, index_of_drop h]

end

end Garbling
