import NotaryModel.Notary.Theorems.Bristol

open Circuit Wires
open Fips180 (Word Working)

-- The generator calls the builder as its users may.
namespace Notary.GenSha256Compress

variable {n : Nat} {b b' : Builder} {α β : Type}

-- From a builder that there is, `m` comes to one that there is, on which no wire is lost.
structure Keeps (n : Nat) (b : Builder) (m : Build α) (post : α → Builder → Prop) : Prop where
  built : Built n (m.run b).2
  le    : b.nextWire ≤ (m.run b).2.nextWire
  post  : post (m.run b).1 (m.run b).2

-- The wires of a word have been allocated.
def Allocated (x : U32) (b : Builder) : Prop :=
  ∀ i, (h : i < 32) → x[i] < b.nextWire

theorem Allocated.mono (h : Allocated x b) (l : b.nextWire ≤ b'.nextWire) : Allocated x b' :=
  fun i hi => (h i hi).trans_le l

namespace Keeps

variable {m : Build α} {f : α → Build β} {P : α → Builder → Prop} {Q : β → Builder → Prop}

theorem pure (hb : Built n b) (h : Q x b) : Keeps n b (Pure.pure x) Q where
  built := hb
  le    := le_rfl
  post  := h

theorem bind (h : Keeps n b m P)
    (hf : ∀ {x b'}, Built n b' → b.nextWire ≤ b'.nextWire → P x b' → Keeps n b' (f x) Q) :
    Keeps n b (m >>= f) Q where
  built := (hf h.built h.le h.post).built
  le    := h.le.trans (hf h.built h.le h.post).le
  post  := (hf h.built h.le h.post).post

theorem get_bind {f : Builder → Build β} (h : Keeps n b (f b) Q) : Keeps n b (get >>= f) Q where
  built := h.built
  le    := h.le
  post  := h.post

theorem ofFnM {f : Fin j → Build Nat} (hb : Built n b)
    (hf : ∀ (i : Fin j) {b'}, Built n b' → b.nextWire ≤ b'.nextWire →
      Keeps n b' (f i) fun r b => r < b.nextWire) :
    Keeps n b (Vector.ofFnM f) fun x b => ∀ i, (h : i < j) → x[i] < b.nextWire := by
  induction j
  case zero =>
    rw [Vector.ofFnM_zero]
    exact pure hb fun i hi => absurd hi i.not_lt_zero
  case succ j hi =>
    rw [Vector.ofFnM_succ]
    refine bind (hi fun i => hf i.castSucc) fun {x b₁} hb₁ l₁ h₁ => ?_
    refine bind (hf (Fin.last j) hb₁ l₁) fun {y b₂} hb₂ l₂ h₂ => pure hb₂ fun i hi => ?_
    rcases Nat.lt_succ_iff_lt_or_eq.mp hi with hl | rfl
    · simpa [Vector.getElem_push_lt, hl] using (h₁ i hl).trans_le l₂
    · simpa using h₂

theorem foldlM {f : α → ι → Build α} {l : List ι} (hb : Built n b)
    (hf : ∀ {i x b'}, Built n b' → b.nextWire ≤ b'.nextWire → P x b' → Keeps n b' (f x i) P)
    (h : P x b) : Keeps n b (l.foldlM f x) P := by
  induction l generalizing x b
  case nil => exact pure hb h
  case cons i l hi =>
    rw [List.foldlM_cons]
    exact bind (hf hb le_rfl h) fun hb' l' h => hi hb' (fun hb l => hf hb (l'.trans l)) h

end Keeps

theorem keeps_xor (hb : Built n b) (hx : x < b.nextWire) (hy : y < b.nextWire) :
    Keeps n b (xor x y) fun r b => r < b.nextWire where
  built := .call (c := .xor x y) hb ⟨hx, hy⟩
  le    := Nat.le_succ _
  post  := Nat.lt_succ_self _

theorem keeps_and (hb : Built n b) (hx : x < b.nextWire) (hy : y < b.nextWire) :
    Keeps n b (and x y) fun r b => r < b.nextWire where
  built := .call (c := .and x y) hb ⟨hx, hy⟩
  le    := Nat.le_succ _
  post  := Nat.lt_succ_self _

theorem keeps_inv (hb : Built n b) (hx : x < b.nextWire) :
    Keeps n b (inv x) fun r b => r < b.nextWire where
  built := .call (c := .inv x) hb hx
  le    := Nat.le_succ _
  post  := Nat.lt_succ_self _

theorem Built.zero_lt (hb : Built n b) : b.zero < b.nextWire :=
  hb.sound.zero_lt

theorem Built.one_lt (hb : Built n b) : b.one < b.nextWire := by
  have hl : (List.replicate n false).length = n := List.length_replicate
  rw [←hb.sound.isSome_iff hl, (hb.sound.ok _ hl).one]
  rfl

section Words

variable {x y z : U32}

theorem keeps_constantU32 (hb : Built n b) (v : Word) : Keeps n b (constantU32 v) Allocated := by
  refine .get_bind <| .pure hb fun i hi => ?_
  rw [Vector.getElem_ofFn]
  split
  case isTrue  => exact hb.one_lt
  case isFalse => exact hb.zero_lt

theorem keeps_xorU32 (hb : Built n b) (hx : Allocated x b) (hy : Allocated y b) :
    Keeps n b (xorU32 x y) Allocated :=
  .ofFnM hb fun i _ hb l => keeps_xor hb (hx.mono l i i.isLt) (hy.mono l i i.isLt)

theorem keeps_andU32 (hb : Built n b) (hx : Allocated x b) (hy : Allocated y b) :
    Keeps n b (andU32 x y) Allocated :=
  .ofFnM hb fun i _ hb l => keeps_and hb (hx.mono l i i.isLt) (hy.mono l i i.isLt)

theorem keeps_notU32 (hb : Built n b) (hx : Allocated x b) : Keeps n b (notU32 x) Allocated :=
  .ofFnM hb fun i _ hb l => keeps_inv hb (hx.mono l i i.isLt)

theorem Allocated.rotrU32 (hx : Allocated x b) (r : Nat) : Allocated (rotrU32 x r) b := by
  intro i hi
  rw [GenSha256Compress.rotrU32, Vector.getElem_ofFn]
  exact hx _ _

theorem keeps_shrU32 (hb : Built n b) (hx : Allocated x b) (r : Nat) :
    Keeps n b (shrU32 x r) Allocated := by
  refine .get_bind <| .pure hb fun i hi => ?_
  rw [Vector.getElem_ofFn]
  split
  case isTrue  => exact hx _ _
  case isFalse => exact hb.zero_lt

-- The sum so far and the carry.
def AllocatedSum (s : U32 × Nat) (b : Builder) : Prop :=
  Allocated s.1 b ∧ s.2 < b.nextWire

theorem Allocated.set (hx : Allocated x b) (hw : w < b.nextWire) (hr : r < 32) :
    Allocated (x.set r w) b := by
  intro i hi
  rw [Vector.getElem_set]
  split
  · exact hw
  · exact hx i hi

theorem keeps_addBit {i : Fin 31} (hb : Built n b) (hx : Allocated x b) (hy : Allocated y b)
    (h : AllocatedSum s b) : Keeps n b (addBit x y s i) AllocatedSum := by
  have hi : i.val < 32 := by omega
  refine .bind (keeps_xor hb (hx i hi) (hy i hi)) fun hb₁ l₁ ht₁ => ?_
  refine .bind (keeps_xor hb₁ ht₁ (h.right.trans_le l₁)) fun hb₂ l₂ hs => ?_
  have l := l₁.trans l₂
  refine .bind (keeps_and hb₂ (hx.mono l i hi) (hy.mono l i hi)) fun hb₃ l₃ ht₂ => ?_
  have l' := l₂.trans l₃
  refine .bind (keeps_and hb₃ (ht₁.trans_le l') ((h.right.trans_le l₁).trans_le l'))
    fun hb₄ l₄ ht₃ => ?_
  refine .bind (keeps_xor hb₄ (ht₂.trans_le l₄) ht₃) fun hb₅ l₅ hc => ?_
  have l := l.trans <| l₃.trans <| l₄.trans l₅
  exact .pure hb₅ ⟨(h.left.mono l).set (hs.trans_le (l₃.trans (l₄.trans l₅))) hi, hc⟩

theorem keeps_addU32 (hb : Built n b) (hx : Allocated x b) (hy : Allocated y b) :
    Keeps n b (addU32 x y) Allocated := by
  have h₃₁ : 31 < 32 := by decide
  refine .bind (keeps_xor hb (hx 31 h₃₁) (hy 31 h₃₁)) fun hb₁ l₁ hs => ?_
  refine .bind (keeps_and hb₁ (hx.mono l₁ 31 h₃₁) (hy.mono l₁ 31 h₃₁)) fun hb₂ l₂ hc => ?_
  have l := l₁.trans l₂
  -- Wire zero stands where the sum has not been computed yet.
  have hz {b' : Builder} (hb : Built n b') : Allocated (.replicate 32 0) b' := fun i hi => by
    rw [Vector.getElem_replicate]
    exact hb.sound.nextWire_pos
  refine .bind (.foldlM hb₂ (fun hb l' => keeps_addBit hb (hx.mono (l.trans l'))
    (hy.mono (l.trans l'))) ⟨(hz hb₂).set (hs.trans_le l₂) h₃₁, hc⟩) fun hb₃ _ h => ?_
  exact .pure hb₃ h.left

theorem keeps_ch (hb : Built n b) (hx : Allocated x b) (hy : Allocated y b)
    (hz : Allocated z b) : Keeps n b (ch x y z) Allocated :=
  .bind (keeps_andU32 hb hx hy) fun hb₁ l₁ hxy =>
  .bind (keeps_notU32 hb₁ (hx.mono l₁)) fun hb₂ l₂ hnx =>
  .bind (keeps_andU32 hb₂ hnx (hz.mono (l₁.trans l₂))) fun hb₃ l₃ hnxz =>
  keeps_xorU32 hb₃ (hxy.mono (l₂.trans l₃)) hnxz

theorem keeps_maj (hb : Built n b) (hx : Allocated x b) (hy : Allocated y b)
    (hz : Allocated z b) : Keeps n b (maj x y z) Allocated :=
  .bind (keeps_andU32 hb hx hy) fun hb₁ l₁ hxy =>
  .bind (keeps_andU32 hb₁ (hx.mono l₁) (hz.mono l₁)) fun hb₂ l₂ hxz =>
  .bind (keeps_andU32 hb₂ (hy.mono (l₁.trans l₂)) (hz.mono (l₁.trans l₂))) fun hb₃ l₃ hyz =>
  .bind (keeps_xorU32 hb₃ (hxy.mono (l₂.trans l₃)) (hxz.mono l₃)) fun hb₄ l₄ ha =>
  keeps_xorU32 hb₄ ha (hyz.mono l₄)

theorem keeps_bigSigma0 (hb : Built n b) (hx : Allocated x b) :
    Keeps n b (bigSigma0 x) Allocated :=
  .bind (keeps_xorU32 hb (hx.rotrU32 2) (hx.rotrU32 13)) fun hb l he =>
  keeps_xorU32 hb he ((hx.rotrU32 22).mono l)

theorem keeps_bigSigma1 (hb : Built n b) (hx : Allocated x b) :
    Keeps n b (bigSigma1 x) Allocated :=
  .bind (keeps_xorU32 hb (hx.rotrU32 6) (hx.rotrU32 11)) fun hb l he =>
  keeps_xorU32 hb he ((hx.rotrU32 25).mono l)

theorem keeps_smallSigma0 (hb : Built n b) (hx : Allocated x b) :
    Keeps n b (smallSigma0 x) Allocated :=
  .bind (keeps_shrU32 hb hx 3) fun hb₁ l₁ hd =>
  .bind (keeps_xorU32 hb₁ ((hx.rotrU32 7).mono l₁) ((hx.rotrU32 18).mono l₁)) fun hb₂ l₂ he =>
  keeps_xorU32 hb₂ he (hd.mono l₂)

theorem keeps_smallSigma1 (hb : Built n b) (hx : Allocated x b) :
    Keeps n b (smallSigma1 x) Allocated :=
  .bind (keeps_shrU32 hb hx 10) fun hb₁ l₁ hd =>
  .bind (keeps_xorU32 hb₁ ((hx.rotrU32 17).mono l₁) ((hx.rotrU32 19).mono l₁)) fun hb₂ l₂ he =>
  keeps_xorU32 hb₂ he (hd.mono l₂)

end Words

section Compression

def AllocatedSchedule (w : Nat → U32) (b : Builder) : Prop :=
  ∀ i, Allocated (w i) b

structure AllocatedWorking (v : Working U32) (b' : Builder) : Prop where
  a : Allocated v.a b'
  b : Allocated v.b b'
  c : Allocated v.c b'
  d : Allocated v.d b'
  e : Allocated v.e b'
  f : Allocated v.f b'
  g : Allocated v.g b'
  h : Allocated v.h b'

theorem AllocatedSchedule.mono (h : AllocatedSchedule w b) (l : b.nextWire ≤ b'.nextWire) :
    AllocatedSchedule w b' :=
  fun i => (h i).mono l

theorem AllocatedWorking.mono (h : AllocatedWorking v b) (l : b.nextWire ≤ b'.nextWire) :
    AllocatedWorking v b' where
  a := h.a.mono l
  b := h.b.mono l
  c := h.c.mono l
  d := h.d.mono l
  e := h.e.mono l
  f := h.f.mono l
  g := h.g.mono l
  h := h.h.mono l

theorem keeps_scheduleWord (hb : Built n b) (h : AllocatedSchedule w b) (i : Nat) :
    Keeps n b (scheduleWord w i) AllocatedSchedule := by
  refine .bind (keeps_smallSigma1 hb (h (i - 2))) fun hb₁ l₁ hs₁ => ?_
  refine .bind (keeps_smallSigma0 hb₁ ((h (i - 15)).mono l₁)) fun hb₂ l₂ hs₀ => ?_
  have h := h.mono (l₁.trans l₂)
  refine .bind (keeps_addU32 hb₂ (hs₁.mono l₂) (h (i - 7))) fun hb₃ l₃ ht => ?_
  refine .bind (keeps_addU32 hb₃ (hs₀.mono l₃) ((h (i - 16)).mono l₃)) fun hb₄ l₄ hu => ?_
  refine .bind (keeps_addU32 hb₄ (ht.mono l₄) hu) fun hb₅ l₅ hw => ?_
  refine .pure hb₅ fun j => ?_
  by_cases hji : j = i
  case pos =>
    subst hji
    rw [Function.update_self]
    exact hw
  case neg =>
    rw [Function.update_of_ne hji]
    exact (h j).mono ((l₃.trans l₄).trans l₅)

theorem keeps_round (hb : Built n b) (hw : AllocatedSchedule w b) (h : AllocatedWorking v b)
    (i : Nat) : Keeps n b (round w v i) AllocatedWorking := by
  refine .bind (keeps_constantU32 hb (k.getD i 0)) fun hb₁ l₁ hk => ?_
  have h := h.mono l₁
  refine .bind (keeps_bigSigma1 hb₁ h.e) fun hb₂ l₂ hs₁ => ?_
  have h := h.mono l₂
  refine .bind (keeps_ch hb₂ h.e h.f h.g) fun hb₃ l₃ hch => ?_
  have h := h.mono l₃
  refine .bind (keeps_addU32 hb₃ h.h (hs₁.mono l₃)) fun hb₄ l₄ ht => ?_
  have h := h.mono l₄
  refine .bind (keeps_addU32 hb₄ ht (hch.mono l₄)) fun hb₅ l₅ ht => ?_
  have h := h.mono l₅
  have l := ((l₂.trans l₃).trans l₄).trans l₅
  refine .bind (keeps_addU32 hb₅ ht (hk.mono l)) fun hb₆ l₆ ht => ?_
  have h := h.mono l₆
  refine .bind (keeps_addU32 hb₆ ht ((hw i).mono ((l₁.trans l).trans l₆))) fun hb₇ l₇ ht₁ => ?_
  have h := h.mono l₇
  refine .bind (keeps_bigSigma0 hb₇ h.a) fun hb₈ l₈ hs₀ => ?_
  have h := h.mono l₈
  refine .bind (keeps_maj hb₈ h.a h.b h.c) fun hb₉ l₉ hmj => ?_
  have h := h.mono l₉
  refine .bind (keeps_addU32 hb₉ (hs₀.mono l₉) hmj) fun hb₁₀ l₁₀ ht₂ => ?_
  have h := h.mono l₁₀
  have ht₁ := ht₁.mono ((l₈.trans l₉).trans l₁₀)
  refine .bind (keeps_addU32 hb₁₀ h.d ht₁) fun hb₁₁ l₁₁ he => ?_
  have h := h.mono l₁₁
  refine .bind (keeps_addU32 hb₁₁ (ht₁.mono l₁₁) (ht₂.mono l₁₁)) fun hb₁₂ l₁₂ ha => ?_
  have h := h.mono l₁₂
  exact .pure hb₁₂ ⟨ha, h.a, h.b, h.c, he.mono l₁₂, h.e, h.f, h.g⟩

theorem keeps_compression (hb : Built n b) (hn : 768 ≤ b.nextWire) :
    Keeps n b compression fun out b => out.length = 256 ∧ ∀ w ∈ out, w < b.nextWire := by
  have hh {i b'} (hi : i < 24) (l : b.nextWire ≤ b'.nextWire) :
      Allocated (inputWord (i * 32)) b' := by
    intro j hj
    rw [inputWord, Vector.getElem_ofFn]
    exact Nat.lt_of_lt_of_le (by omega) (hn.trans l)
  have hm : AllocatedSchedule
      (fun i => if i < 16 then inputWord (256 + i * 32) else .replicate 32 0) b := by
    intro i
    dsimp only
    split
    case isTrue hi =>
      have h := hh (i := 8 + i) (by omega) (le_refl b.nextWire)
      rwa [show (8 + i) * 32 = 256 + i * 32 by omega] at h
    case isFalse =>
      intro j hj
      rw [Vector.getElem_replicate]
      exact hb.sound.nextWire_pos
  refine .bind (.foldlM hb (fun hb _ h => keeps_scheduleWord hb h _) hm) fun hb₁ l₁ hw => ?_
  refine .bind (.foldlM hb₁ (fun hb l h => keeps_round hb (hw.mono l) h _)
    ⟨hh (by decide) l₁, hh (by decide) l₁, hh (by decide) l₁, hh (by decide) l₁, hh (by decide) l₁,
      hh (by decide) l₁, hh (by decide) l₁, hh (by decide) l₁⟩) fun hb₂ l₂ hv => ?_
  have l := l₁.trans l₂
  refine .bind (keeps_addU32 hb₂ hv.a (hh (by decide) l)) fun hb₃ l₃ ha => ?_
  have hv := hv.mono l₃
  have l := l.trans l₃
  refine .bind (keeps_addU32 hb₃ hv.b (hh (by decide) l)) fun hb₄ l₄ hb => ?_
  have hv := hv.mono l₄
  have l := l.trans l₄
  refine .bind (keeps_addU32 hb₄ hv.c (hh (by decide) l)) fun hb₅ l₅ hc => ?_
  have hv := hv.mono l₅
  have l := l.trans l₅
  refine .bind (keeps_addU32 hb₅ hv.d (hh (by decide) l)) fun hb₆ l₆ hd => ?_
  have hv := hv.mono l₆
  have l := l.trans l₆
  refine .bind (keeps_addU32 hb₆ hv.e (hh (by decide) l)) fun hb₇ l₇ he => ?_
  have hv := hv.mono l₇
  have l := l.trans l₇
  refine .bind (keeps_addU32 hb₇ hv.f (hh (by decide) l)) fun hb₈ l₈ hf => ?_
  have hv := hv.mono l₈
  have l := l.trans l₈
  refine .bind (keeps_addU32 hb₈ hv.g (hh (by decide) l)) fun hb₉ l₉ hg => ?_
  have hv := hv.mono l₉
  have l := l.trans l₉
  refine .bind (keeps_addU32 hb₉ hv.h (hh (by decide) l)) fun {h' b₁₀} hb₁₀ l₁₀ hh => ?_
  refine .pure hb₁₀ ⟨by simp, ?_⟩
  have hmem {x : U32} (h : Allocated x b₁₀) : ∀ w ∈ x.toList, w < b₁₀.nextWire := by
    intro w hw
    obtain ⟨i, hi, rfl⟩ := List.getElem_of_mem hw
    simpa using h i (by simpa using hi)
  have l₉ := l₉.trans l₁₀
  have l₈ := l₈.trans l₉
  have l₇ := l₇.trans l₈
  have l₆ := l₆.trans l₇
  have l₅ := l₅.trans l₆
  simp only [List.flatMap_cons, List.flatMap_nil, List.append_nil, List.forall_mem_append]
  exact ⟨hmem (ha.mono (l₄.trans l₅)), hmem (hb.mono l₅), hmem (hc.mono l₆), hmem (hd.mono l₇),
    hmem (he.mono l₈), hmem (hf.mono l₉), hmem (hg.mono l₁₀), hmem hh⟩

theorem buildCompression_keeps : Keeps 768 (Builder.new 768) compression fun out b =>
    out.length = 256 ∧ ∀ w ∈ out, w < b.nextWire :=
  keeps_compression (.new (by decide)) (by decide)

end Compression

end Notary.GenSha256Compress
