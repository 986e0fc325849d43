import NotaryModel.Notary.GenSha256Compress

open Circuit Wires
open Fips180 (Word Working)

namespace Notary.GenSha256Compress

variable {input : Wires} {b : Builder} {α β : Type}

def Builder.wires (b : Builder) (input : Wires) : Wires :=
  eval b.gates input

structure Builder.Ok (b : Builder) (input : Wires) : Prop where
  fresh : ∀ w, b.nextWire ≤ w → b.wires input w = none
  zero  : b.wires input b.zero = some false
  one   : b.wires input b.one = some true

-- From a builder in order, `m` comes to one in order in which every wire has the value it had.
structure Emits (input : Wires) (b : Builder) (m : Build α) (post : α → Wires → Prop) : Prop where
  ok   : (m.run b).2.Ok input
  le   : Le (b.wires input) ((m.run b).2.wires input)
  post : post (m.run b).1 ((m.run b).2.wires input)

namespace Emits

variable {m : Build α} {f : α → Build β} {P : α → Wires → Prop} {Q : β → Wires → Prop}

theorem pure (hb : b.Ok input) (h : Q x (b.wires input)) : Emits input b (Pure.pure x) Q where
  ok   := hb
  le   := Le.refl
  post := h

theorem bind (h : Emits input b m P)
    (hf : ∀ {x b'}, b'.Ok input → Le (b.wires input) (b'.wires input) → P x (b'.wires input) →
      Emits input b' (f x) Q) :
    Emits input b (m >>= f) Q where
  ok   := (hf h.ok h.le h.post).ok
  le   := h.le.trans (hf h.ok h.le h.post).le
  post := (hf h.ok h.le h.post).post

theorem get_bind {f : Builder → Build β} (h : Emits input b (f b) Q) :
    Emits input b (get >>= f) Q where
  ok   := h.ok
  le   := h.le
  post := h.post

theorem weaken (h : Emits input b m P)
    (hq : ∀ {x ws}, Le (b.wires input) ws → P x ws → Q' x ws) : Emits input b m Q' where
  ok   := h.ok
  le   := h.le
  post := hq h.le h.post

theorem ofFnM {f : Fin n → Build Nat} {g : Nat → Bool} (hb : b.Ok input)
    (hf : ∀ (i : Fin n) {b'}, b'.Ok input → Le (b.wires input) (b'.wires input) →
      Emits input b' (f i) fun r ws => ws r = some (g i)) :
    Emits input b (Vector.ofFnM f) fun x ws =>
      ∀ i, (h : i < n) → ws x[i] = some (g i) := by
  induction n
  case zero =>
    rw [Vector.ofFnM_zero]
    exact pure hb fun i hi => absurd hi i.not_lt_zero
  case succ n hi =>
    rw [Vector.ofFnM_succ]
    refine bind (hi fun i => hf i.castSucc) fun {x b₁} ok₁ le₁ h₁ => ?_
    refine bind (hf (Fin.last n) ok₁ le₁) fun {y b₂} ok₂ le₂ h₂ =>
      pure ok₂ fun i hi => ?_
    by_cases hn : i < n
    case pos => simpa [hn] using le₂ _ _ (h₁ i hn)
    case neg =>
      obtain rfl : i = n := by omega
      simpa using h₂

theorem foldlM_range' {f : α → Nat → Build α} {I : Nat → α → Wires → Prop} (hb : b.Ok input)
    (hf : ∀ {i x b'}, s ≤ i → i < s + n → b'.Ok input → Le (b.wires input) (b'.wires input) →
      I i x (b'.wires input) → Emits input b' (f x i) (I (i + 1)))
    (h : I s x (b.wires input)) :
    Emits input b ((List.range' s n).foldlM f x) (I (s + n)) := by
  induction n generalizing s x b
  case zero => exact pure hb h
  case succ n hi =>
    rw [List.range'_succ, List.foldlM_cons]
    refine bind (hf le_rfl (by omega) hb Le.refl h) fun ok le h => ?_
    rw [Nat.add_comm n, ←Nat.add_assoc]
    exact hi ok (fun hs hl ok' le' => hf (by omega) (by omega) ok' (le.trans le')) h

theorem foldlM_reverse_finRange {f : α → Fin n → Build α} {I : Nat → α → Wires → Prop}
    (hb : b.Ok input)
    (hf : ∀ {i x b'}, b'.Ok input → Le (b.wires input) (b'.wires input) →
      I (i.val + 1) x (b'.wires input) → Emits input b' (f x i) (I i))
    (h : I n x (b.wires input)) :
    Emits input b ((List.finRange n).reverse.foldlM f x) (I 0) := by
  induction n generalizing x b
  case zero => exact pure hb h
  case succ n hi =>
    rw [List.finRange_succ_last, List.reverse_append, List.reverse_singleton, List.singleton_append,
      List.foldlM_cons, ←List.map_reverse]
    refine bind (hf hb Le.refl (by simpa using h)) fun ok le h => ?_
    rw [List.foldlM_map]
    exact hi ok (fun {i _ _} ok' le' => hf (i := i.castSucc) ok' (le.trans le')) h

end Emits

theorem emits_gate (hb : b.Ok input)
    (h : Gate.value ⟨kind, in1, in2, b.nextWire⟩ (b.wires input) = some v) :
    Emits input b (gate kind in1 in2) fun r ws => ws r = some v := by
  have hw : ((gate kind in1 in2).run b).2.wires input =
      Function.update (b.wires input) b.nextWire (some v) := by
    rw [←h]
    exact eval_concat
  have hn {w v'} (hv : b.wires input w = some v') : w ≠ b.nextWire := by
    rintro rfl
    exact absurd hv (by simp [hb.fresh _ le_rfl])
  refine ⟨⟨fun w hl => ?_, ?_, ?_⟩, fun w v' hv => ?_, ?_⟩
  · have hl : b.nextWire + 1 ≤ w := hl
    rw [hw, Function.update_of_ne (by omega)]
    exact hb.fresh w (by omega)
  · rw [hw]
    exact (Function.update_of_ne (hn hb.zero) ..).trans hb.zero
  · rw [hw]
    exact (Function.update_of_ne (hn hb.one) ..).trans hb.one
  · rw [hw, Function.update_of_ne (hn hv), hv]
  · rw [hw]
    exact Function.update_self ..

theorem emits_xor (hb : b.Ok input) (hx : b.wires input x = some u) (hy : b.wires input y = some v) :
    Emits input b (xor x y) fun r ws => ws r = some (u ^^ v) :=
  emits_gate hb (by simp [Gate.value, hx, hy])

theorem emits_and (hb : b.Ok input) (hx : b.wires input x = some u) (hy : b.wires input y = some v) :
    Emits input b (and x y) fun r ws => ws r = some (u && v) :=
  emits_gate hb (by simp [Gate.value, hx, hy])

theorem emits_inv (hb : b.Ok input) (hx : b.wires input x = some u) :
    Emits input b (inv x) fun r ws => ws r = some !u :=
  emits_gate hb (by simp [Gate.value, hx])

section Words

variable {x y z : U32} {u v t : Word}

theorem emits_constantU32 (hb : b.Ok input) (v : Word) :
    Emits input b (constantU32 v) fun r ws => Carries ws r v := by
  refine .get_bind <| .pure hb fun i hi => ?_
  rw [Vector.getElem_ofFn]
  have hv : v.getMsbD i = decide ((v >>> (31 - i)) &&& 1 = 1) := by
    change _ = decide (_ &&& 1#32 = 1#32)
    rw [BitVec.and_one_eq_setWidth_ofBool_getLsbD, BitVec.getLsbD_ushiftRight,
      BitVec.getMsbD_eq_getLsbD, decide_eq_true hi, Bool.true_and]
    cases v.getLsbD (31 - i) <;> rfl
  rw [hv]
  by_cases h : (v >>> (31 - i)) &&& 1 = 1
  · rw [if_pos h, decide_eq_true h]
    exact hb.one
  · rw [if_neg h, decide_eq_false h]
    exact hb.zero

theorem emits_xorU32 (hb : b.Ok input) (hx : Carries (b.wires input) x u)
    (hy : Carries (b.wires input) y v) :
    Emits input b (xorU32 x y) fun r ws => Carries ws r (u ^^^ v) := by
  refine .ofFnM hb fun i _ ok l => ?_
  simpa using emits_xor ok (l _ _ (hx i i.isLt)) (l _ _ (hy i i.isLt))

theorem emits_andU32 (hb : b.Ok input) (hx : Carries (b.wires input) x u)
    (hy : Carries (b.wires input) y v) :
    Emits input b (andU32 x y) fun r ws => Carries ws r (u &&& v) := by
  refine .ofFnM hb fun i _ ok l => ?_
  simpa using emits_and ok (l _ _ (hx i i.isLt)) (l _ _ (hy i i.isLt))

theorem emits_notU32 (hb : b.Ok input) (hx : Carries (b.wires input) x u) :
    Emits input b (notU32 x) fun r ws => Carries ws r (~~~u) := by
  refine .ofFnM hb fun i _ ok l => ?_
  simpa using emits_inv ok (l _ _ (hx i i.isLt))

theorem carries_rotrU32 (hx : Carries ws x u) (n : Nat) (hn : n < 32) :
    Carries ws (rotrU32 x n) (u.rotateRight n) := by
  intro i hi
  have h := hx ((i + 32 - n) % 32) (Nat.mod_lt _ (by decide))
  have hr : (u.rotateRight n).getMsbD i = u.getMsbD ((i + 32 - n) % 32) := by
    rw [BitVec.getMsbD_rotateRight_of_lt hn, Nat.mod_eq_of_lt hn, decide_eq_true hi,
      Bool.true_and]
    by_cases hi : i < n
    · rw [if_pos hi, Nat.add_comm]
    · rw [if_neg hi, show (i + 32 - n) % 32 = i - n by omega]
  rw [hr]
  simpa [rotrU32, Nat.mod_eq_of_lt hn] using h

theorem emits_shrU32 (hb : b.Ok input) (hx : Carries (b.wires input) x u) (n : Nat) :
    Emits input b (shrU32 x n) fun r ws => Carries ws r (u >>> n) := by
  refine .get_bind <| .pure hb fun i hi => ?_
  rw [Vector.getElem_ofFn, BitVec.getMsbD_ushiftRight]
  by_cases h : n ≤ i
  · simpa [h, hi, Nat.not_lt.mpr h] using hx (i - n) (by omega)
  · simpa [h, Nat.not_le.mp h] using hb.zero

-- The sum from bit `i` on, and the carry into the bit before.
def Added (u v : Word) (i : Nat) (s : U32 × Nat) (ws : Wires) : Prop :=
  (∀ k, (h : k < 32) → i ≤ k → ws s.1[k] = some ((u + v).getMsbD k)) ∧
  ws s.2 = some (BitVec.carry (32 - i) u v false)

theorem getMsbD_eq_getLsbD (u : Word) (h : i < 32) : u.getMsbD i = u.getLsbD (31 - i) := by
  rw [BitVec.getMsbD_eq_getLsbD, decide_eq_true h, Bool.true_and]

theorem emits_addBit {i : Fin 31} (hb : b.Ok input) (hx : Carries (b.wires input) x u)
    (hy : Carries (b.wires input) y v) (h : Added u v (i + 1) s (b.wires input)) :
    Emits input b (addBit x y s i) (Added u v i) := by
  have hi : i.val < 32 := by omega
  have hx := hx i hi
  have hy := hy i hi
  rw [getMsbD_eq_getLsbD _ hi] at hx hy
  have hv : (u + v).getMsbD i = (u.getLsbD (31 - i) ^^ v.getLsbD (31 - i) ^^
      BitVec.carry (31 - i) u v false) := by
    rw [getMsbD_eq_getLsbD _ hi, getLsbD_add_ripple _ _ (by omega)]
  have ⟨hsum, hcarry⟩ := h
  rw [show 32 - (i.val + 1) = 31 - i.val by omega] at hcarry
  refine .bind (emits_xor hb hx hy) fun ok₁ l₁ ht₁ => ?_
  refine .bind (emits_xor ok₁ ht₁ (l₁ _ _ hcarry)) fun ok₂ l₂ hs => ?_
  have l₁₂ := l₁.trans l₂
  refine .bind (emits_and ok₂ (l₁₂ _ _ hx) (l₁₂ _ _ hy)) fun ok₃ l₃ ht₂ => ?_
  refine .bind (emits_and ok₃ (l₃ _ _ (l₂ _ _ ht₁)) (l₃ _ _ (l₁₂ _ _ hcarry))) fun ok₄ l₄ ht₃ => ?_
  refine .bind (emits_xor ok₄ (l₄ _ _ ht₂) ht₃) fun ok₅ l₅ hc => ?_
  have l := (l₃.trans l₄).trans l₅
  refine .pure ok₅ ⟨fun k h hk => ?_, ?_⟩
  · by_cases hki : k = i
    · subst hki
      rw [hv]
      simpa using l _ _ hs
    · have hk := (l₁₂.trans l) _ _ (hsum k h (by omega))
      simpa [Vector.getElem_set_ne, Ne.symm hki] using hk
  · rw [show 32 - i.val = 31 - i.val + 1 by omega, carry_ripple]
    exact hc

theorem emits_addU32 (hb : b.Ok input) (hx : Carries (b.wires input) x u)
    (hy : Carries (b.wires input) y v) :
    Emits input b (addU32 x y) fun r ws => Carries ws r (u + v) := by
  have h₃₁ : 31 < 32 := by decide
  have hx₀ := hx 31 h₃₁
  have hy₀ := hy 31 h₃₁
  rw [getMsbD_eq_getLsbD _ h₃₁] at hx₀ hy₀
  refine .bind (emits_xor hb hx₀ hy₀) fun {s _} ok₁ l₁ hs => ?_
  refine .bind (emits_and ok₁ (l₁ _ _ hx₀) (l₁ _ _ hy₀)) fun {c b₂} ok₂ l₂ hc => ?_
  have l := l₁.trans l₂
  have h : Added u v 31 ((Vector.replicate 32 0).set 31 s, c) (b₂.wires input) := by
    refine ⟨fun k h hk => ?_, ?_⟩
    · obtain rfl : k = 31 := Nat.le_antisymm (Nat.le_of_lt_succ h) hk
      rw [getMsbD_eq_getLsbD _ h₃₁, getLsbD_add_ripple _ _ (by decide)]
      simpa using l₂ _ _ hs
    · rw [carry_ripple]
      simpa using hc
  refine .bind (.foldlM_reverse_finRange ok₂ (fun ok l' => emits_addBit ok
    (hx.mono (l.trans l')) (hy.mono (l.trans l'))) h) fun ok₃ l₃ h => ?_
  exact .pure ok₃ fun k hk => h.1 k hk (Nat.zero_le _)

theorem emits_ch (hb : b.Ok input) (hx : Carries (b.wires input) x u)
    (hy : Carries (b.wires input) y v) (hz : Carries (b.wires input) z t) :
    Emits input b (ch x y z) fun r ws => Carries ws r (Fips180.ch u v t) :=
  .bind (emits_andU32 hb hx hy) fun ok₁ l₁ hxy =>
  .bind (emits_notU32 ok₁ (hx.mono l₁)) fun ok₂ l₂ hnx =>
  .bind (emits_andU32 ok₂ hnx (hz.mono (l₁.trans l₂))) fun ok₃ l₃ hnxz =>
  emits_xorU32 ok₃ (hxy.mono (l₂.trans l₃)) hnxz

theorem emits_maj (hb : b.Ok input) (hx : Carries (b.wires input) x u)
    (hy : Carries (b.wires input) y v) (hz : Carries (b.wires input) z t) :
    Emits input b (maj x y z) fun r ws => Carries ws r (Fips180.maj u v t) :=
  .bind (emits_andU32 hb hx hy) fun ok₁ l₁ hxy =>
  .bind (emits_andU32 ok₁ (hx.mono l₁) (hz.mono l₁)) fun ok₂ l₂ hxz =>
  .bind (emits_andU32 ok₂ (hy.mono (l₁.trans l₂)) (hz.mono (l₁.trans l₂))) fun ok₃ l₃ hyz =>
  .bind (emits_xorU32 ok₃ (hxy.mono (l₂.trans l₃)) (hxz.mono l₃)) fun ok₄ l₄ ha =>
  emits_xorU32 ok₄ ha (hyz.mono l₄)

theorem emits_bigSigma0 (hb : b.Ok input) (hx : Carries (b.wires input) x u) :
    Emits input b (bigSigma0 x) fun r ws => Carries ws r (Fips180.bigSigma0 u) :=
  .bind (emits_xorU32 hb (carries_rotrU32 hx 2 (by decide)) (carries_rotrU32 hx 13 (by decide)))
    fun ok l he => emits_xorU32 ok he ((carries_rotrU32 hx 22 (by decide)).mono l)

theorem emits_bigSigma1 (hb : b.Ok input) (hx : Carries (b.wires input) x u) :
    Emits input b (bigSigma1 x) fun r ws => Carries ws r (Fips180.bigSigma1 u) :=
  .bind (emits_xorU32 hb (carries_rotrU32 hx 6 (by decide)) (carries_rotrU32 hx 11 (by decide)))
    fun ok l he => emits_xorU32 ok he ((carries_rotrU32 hx 25 (by decide)).mono l)

theorem emits_smallSigma0 (hb : b.Ok input) (hx : Carries (b.wires input) x u) :
    Emits input b (smallSigma0 x) fun r ws => Carries ws r (Fips180.smallSigma0 u) :=
  .bind (emits_shrU32 hb hx 3) fun ok₁ l₁ hd =>
  .bind (emits_xorU32 ok₁ ((carries_rotrU32 hx 7 (by decide)).mono l₁)
    ((carries_rotrU32 hx 18 (by decide)).mono l₁)) fun ok₂ l₂ he =>
  emits_xorU32 ok₂ he (hd.mono l₂)

theorem emits_smallSigma1 (hb : b.Ok input) (hx : Carries (b.wires input) x u) :
    Emits input b (smallSigma1 x) fun r ws => Carries ws r (Fips180.smallSigma1 u) :=
  .bind (emits_shrU32 hb hx 10) fun ok₁ l₁ hd =>
  .bind (emits_xorU32 ok₁ ((carries_rotrU32 hx 17 (by decide)).mono l₁)
    ((carries_rotrU32 hx 19 (by decide)).mono l₁)) fun ok₂ l₂ he =>
  emits_xorU32 ok₂ he (hd.mono l₂)

end Words

section Compression

variable {iv : Vector Word 8} {m : Vector Word 16}

def Scheduled (m : Vector Word 16) (i : Nat) (w : Nat → U32) (ws : Wires) : Prop :=
  ∀ j < i, Carries ws (w j) (Fips180.schedule m j)

structure Works (v : Working U32) (u : Working Word) (ws : Wires) : Prop where
  a : Carries ws v.a u.a
  b : Carries ws v.b u.b
  c : Carries ws v.c u.c
  d : Carries ws v.d u.d
  e : Carries ws v.e u.e
  f : Carries ws v.f u.f
  g : Carries ws v.g u.g
  h : Carries ws v.h u.h

theorem Scheduled.mono (h : Scheduled m i w ws₁) (l : Le ws₁ ws₂) : Scheduled m i w ws₂ :=
  fun j hj => (h j hj).mono l

theorem Works.mono (h : Works v u ws₁) (l : Le ws₁ ws₂) : Works v u ws₂ where
  a := h.a.mono l
  b := h.b.mono l
  c := h.c.mono l
  d := h.d.mono l
  e := h.e.mono l
  f := h.f.mono l
  g := h.g.mono l
  h := h.h.mono l

theorem emits_scheduleWord (hb : b.Ok input) (hi : 16 ≤ i) (h : Scheduled m i w (b.wires input)) :
    Emits input b (scheduleWord w i) (Scheduled m (i + 1)) := by
  refine .bind (emits_smallSigma1 hb (h (i - 2) (by omega))) fun ok₁ l₁ hs₁ => ?_
  refine .bind (emits_smallSigma0 ok₁ (h.mono l₁ (i - 15) (by omega))) fun ok₂ l₂ hs₀ => ?_
  have h := h.mono (l₁.trans l₂)
  refine .bind (emits_addU32 ok₂ (hs₁.mono l₂) (h (i - 7) (by omega))) fun ok₃ l₃ ht => ?_
  refine .bind (emits_addU32 ok₃ (hs₀.mono l₃) (h.mono l₃ (i - 16) (by omega))) fun ok₄ l₄ hu => ?_
  refine .bind (emits_addU32 ok₄ (ht.mono l₄) hu) fun ok₅ l₅ hw => ?_
  refine .pure ok₅ fun j hj => ?_
  by_cases hji : j = i
  · rw [hji, Function.update_self, Fips180.schedule, dif_neg (Nat.not_lt.mpr hi), add_assoc]
    exact hw
  · rw [Function.update_of_ne hji]
    exact h.mono ((l₃.trans l₄).trans l₅) j (by omega)

theorem k_eq : k = Fips180.constants.flatten :=
  rfl

theorem emits_round (hb : b.Ok input) (hi : i < 64) (hw : Scheduled m 64 w (b.wires input))
    (h : Works v u (b.wires input)) :
    Emits input b (round w v i)
      fun v ws => Works v (Fips180.round (Fips180.constant i) (Fips180.schedule m i) u) ws := by
  refine .bind (emits_constantU32 hb (k.getD i 0)) fun ok₁ l₁ hk => ?_
  have h := h.mono l₁
  refine .bind (emits_bigSigma1 ok₁ h.e) fun ok₂ l₂ hs₁ => ?_
  have h := h.mono l₂
  refine .bind (emits_ch ok₂ h.e h.f h.g) fun ok₃ l₃ hch => ?_
  have h := h.mono l₃
  refine .bind (emits_addU32 ok₃ h.h (hs₁.mono l₃)) fun ok₄ l₄ ht => ?_
  have h := h.mono l₄
  refine .bind (emits_addU32 ok₄ ht (hch.mono l₄)) fun ok₅ l₅ ht => ?_
  have h := h.mono l₅
  have l := ((l₂.trans l₃).trans l₄).trans l₅
  refine .bind (emits_addU32 ok₅ ht (hk.mono l)) fun ok₆ l₆ ht => ?_
  have h := h.mono l₆
  have hwi := ((hw i hi).mono (l₁.trans l)).mono l₆
  refine .bind (emits_addU32 ok₆ ht hwi) fun ok₇ l₇ ht₁ => ?_
  have h := h.mono l₇
  refine .bind (emits_bigSigma0 ok₇ h.a) fun ok₈ l₈ hs₀ => ?_
  have h := h.mono l₈
  refine .bind (emits_maj ok₈ h.a h.b h.c) fun ok₉ l₉ hmj => ?_
  have h := h.mono l₉
  refine .bind (emits_addU32 ok₉ (hs₀.mono l₉) hmj) fun ok₁₀ l₁₀ ht₂ => ?_
  have h := h.mono l₁₀
  have ht₁ := ht₁.mono ((l₈.trans l₉).trans l₁₀)
  refine .bind (emits_addU32 ok₁₀ h.d ht₁) fun ok₁₁ l₁₁ he => ?_
  have h := h.mono l₁₁
  refine .bind (emits_addU32 ok₁₁ (ht₁.mono l₁₁) (ht₂.mono l₁₁)) fun ok₁₂ l₁₂ ha => ?_
  have h := h.mono l₁₂
  refine .pure ok₁₂ ⟨?a, h.a, h.b, h.c, he.mono l₁₂, h.e, h.f, h.g⟩
  rw [k_eq] at ha
  exact ha

def inputBits (iv : Vector Word 8) (m : Vector Word 16) : List Bool :=
  iv.toList.flatMap msbBits ++ m.toList.flatMap msbBits

theorem length_flatMap_msbBits (l : List Word) : (l.flatMap msbBits).length = 32 * l.length := by
  simp [List.length_flatMap, Nat.mul_comm]

theorem length_inputBits (iv : Vector Word 8) (m : Vector Word 16) :
    (inputBits iv m).length = 768 := by
  simp [inputBits]

theorem wires_new (h : bits.length = n) (hn : 0 < n) : (Builder.new n).wires (ofBits bits) =
    Function.update (Function.update (ofBits bits) n (some false)) (n + 1) (some true) := by
  have h₀ : ofBits bits 0 = some bits[0] := List.getElem?_eq_getElem (by omega)
  simp [Builder.wires, Builder.new, eval, Gate.value, h₀]

theorem ok_new (h : bits.length = n) (hn : 0 < n) : (Builder.new n).Ok (ofBits bits) where
  fresh w hw := by
    have hw : n + 2 ≤ w := hw
    rw [wires_new h hn, Function.update_of_ne (by omega), Function.update_of_ne (by omega)]
    exact List.getElem?_eq_none (by omega)
  zero := by
    rw [wires_new h hn]
    simp [Builder.new]
  one := by
    rw [wires_new h hn]
    simp [Builder.new]

theorem le_new (h : bits.length = n) (hn : 0 < n) :
    Le (ofBits bits) ((Builder.new n).wires (ofBits bits)) := by
  intro w v hw
  have hl : w < bits.length := (List.getElem?_eq_some_iff.mp hw).1
  rw [wires_new h hn, Function.update_of_ne (by omega), Function.update_of_ne (by omega), hw]

theorem carries_inputWord_iv (hi : i < 8) :
    Carries (ofBits (inputBits iv m)) (inputWord (i * 32)) iv[i] := by
  intro k hk
  have hl : i * 32 + k < (iv.toList.flatMap msbBits).length := by
    rw [length_flatMap_msbBits, Vector.length_toList]
    omega
  rw [ofBits, inputBits, inputWord, Vector.getElem_ofFn,
    List.getElem?_append_left hl, getElem?_flatMap_msbBits hk]
  simp [hi]

theorem carries_inputWord_block (hi : i < 16) :
    Carries (ofBits (inputBits iv m)) (inputWord (256 + i * 32)) m[i] := by
  intro k hk
  have hl : (iv.toList.flatMap msbBits).length = 256 := by
    rw [length_flatMap_msbBits, Vector.length_toList]
  rw [ofBits, inputBits, inputWord, Vector.getElem_ofFn,
    List.getElem?_append_right (by omega), hl, show 256 + i * 32 + k - 256 = i * 32 + k by omega,
    getElem?_flatMap_msbBits hk]
  simp [hi]

theorem emits_compression (hb : b.Ok input) (l : Le (ofBits (inputBits iv m)) (b.wires input)) :
    Emits input b compression
      fun out ws => out.map ws = ((Fips180.compress iv m).flatMap msbBits).map some := by
  have hh {i ws} (hi : i < 8) (l' : Le (b.wires input) ws) :
      Carries ws (inputWord (i * 32)) iv[i] :=
    (carries_inputWord_iv hi).mono (l.trans l')
  have hm : Scheduled m 16 (fun i => if i < 16 then inputWord (256 + i * 32) else .replicate 32 0)
      (b.wires input) := by
    intro j hj
    simp only [if_pos hj]
    rw [Fips180.schedule, dif_pos hj]
    exact (carries_inputWord_block hj).mono l
  refine .bind (.foldlM_range' hb (fun hs _ ok _ => emits_scheduleWord ok hs) hm)
    fun ok₁ l₁ hw => ?_
  have h₀ : Works ⟨inputWord (0 * 32), inputWord (1 * 32), inputWord (2 * 32), inputWord (3 * 32),
      inputWord (4 * 32), inputWord (5 * 32), inputWord (6 * 32), inputWord (7 * 32)⟩
      (Fips180.rounds iv m 0) _ :=
    ⟨hh (by decide) l₁, hh (by decide) l₁, hh (by decide) l₁, hh (by decide) l₁,
      hh (by decide) l₁, hh (by decide) l₁, hh (by decide) l₁, hh (by decide) l₁⟩
  refine .bind (.foldlM_range' (I := fun i v => Works v (Fips180.rounds iv m i)) ok₁
    (fun _ hi ok l => emits_round ok (by omega) (hw.mono l)) h₀) fun ok₂ l₂ hv => ?_
  have l₂ := l₁.trans l₂
  refine .bind (emits_addU32 ok₂ hv.a (hh (by decide) l₂)) fun ok₃ l₃ ha => ?_
  have hv := hv.mono l₃
  have l₃ := l₂.trans l₃
  refine .bind (emits_addU32 ok₃ hv.b (hh (by decide) l₃)) fun ok₄ l₄ hb => ?_
  have hv := hv.mono l₄
  have l₄' := l₃.trans l₄
  refine .bind (emits_addU32 ok₄ hv.c (hh (by decide) l₄')) fun ok₅ l₅ hc => ?_
  have hv := hv.mono l₅
  have l₅' := l₄'.trans l₅
  refine .bind (emits_addU32 ok₅ hv.d (hh (by decide) l₅')) fun ok₆ l₆ hd => ?_
  have hv := hv.mono l₆
  have l₆' := l₅'.trans l₆
  refine .bind (emits_addU32 ok₆ hv.e (hh (by decide) l₆')) fun ok₇ l₇ he => ?_
  have hv := hv.mono l₇
  have l₇' := l₆'.trans l₇
  refine .bind (emits_addU32 ok₇ hv.f (hh (by decide) l₇')) fun ok₈ l₈ hf => ?_
  have hv := hv.mono l₈
  have l₈' := l₇'.trans l₈
  refine .bind (emits_addU32 ok₈ hv.g (hh (by decide) l₈')) fun ok₉ l₉ hg => ?_
  have hv := hv.mono l₉
  refine .bind (emits_addU32 ok₉ hv.h (hh (by decide) (l₈'.trans l₉))) fun ok₁₀ l₁₀ hh => ?_
  refine .pure ok₁₀ ?_
  have l₉ := l₉.trans l₁₀
  have l₈ := l₈.trans l₉
  have l₇ := l₇.trans l₈
  have l₆ := l₆.trans l₇
  have l₅ := l₅.trans l₆
  simp only [List.flatMap_cons, List.flatMap_nil, List.append_nil, List.map_append,
    (ha.mono (l₄.trans l₅)).map_toList, (hb.mono l₅).map_toList, (hc.mono l₆).map_toList,
    (hd.mono l₇).map_toList, (he.mono l₈).map_toList, (hf.mono l₉).map_toList,
    (hg.mono l₁₀).map_toList, hh.map_toList, Fips180.compress]

theorem buildCompression_computes (iv : Vector Word 8) (m : Vector Word 16) :
    buildCompression.1.map (buildCompression.2.wires (ofBits (inputBits iv m))) =
    ((Fips180.compress iv m).flatMap msbBits).map some := by
  have hl := length_inputBits iv m
  exact (emits_compression (ok_new hl (by decide)) (le_new hl (by decide))).post

end Compression

end Notary.GenSha256Compress
