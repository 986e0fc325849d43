import NotaryModel.Guest.CertificateVerify

namespace Guest

open Exec (bind_eq_ok_iff)

def IsAscii (s : String) : Prop :=
  ∀ b ∈ Bytes.ofString s, b < 0x80

def EqIgnoreAsciiCase (a b : Bytes) : Prop :=
  a.map toAsciiLowercase = b.map toAsciiLowercase

-- The name `h` is the single label `l`, the byte `c` and the name `t`.
structure Splits (h l : Bytes) (c : Byte) (t : Bytes) : Prop where
  eq    : h = l ++ c :: t
  label : l ≠ []
  dots  : 0x2e ∉ l

-- The rule of the comment: a pattern is matched as a whole, except that a leading `*.` stands for a
-- single label.
def Rfc9525 (p h : String) : Prop :=
  (¬[0x2a, 0x2e] <+: Bytes.ofString p ∧ EqIgnoreAsciiCase (Bytes.ofString p) (Bytes.ofString h)) ∨
  ∃ s l, Bytes.ofString p = 0x2a :: 0x2e :: s ∧ (l ≠ [] ∧ 0x2e ∉ l) ∧
    EqIgnoreAsciiCase (Bytes.ofString h) (l ++ 0x2e :: s)

theorem toAsciiLowercase_eq_dot_iff {b : Byte} : toAsciiLowercase b = 0x2e ↔ b = 0x2e := by
  have h : ∀ n < 256, toAsciiLowercase (.ofNat n) = 0x2e → UInt8.ofNat n = 0x2e := by
    decide +kernel
  constructor
  · intro hb
    rw [←UInt8.ofNat_toNat (x := b)] at hb ⊢
    exact h b.toNat b.toNat_lt hb
  · rintro rfl
    rfl

theorem dot_mem_iff_of_eqIgnoreAsciiCase (h : EqIgnoreAsciiCase a b) : 0x2e ∈ a ↔ 0x2e ∈ b := by
  have hm (l : Bytes) : 0x2e ∈ l ↔ 0x2e ∈ l.map toAsciiLowercase := by
    simp [toAsciiLowercase_eq_dot_iff]
  rw [hm a, hm b, h]

theorem rfc9525_wildcard_iff (hp : Bytes.ofString p = 0x2a :: 0x2e :: s) :
    Rfc9525 p h ↔ ∃ l t, Splits (Bytes.ofString h) l 0x2e t ∧ EqIgnoreAsciiCase t s := by
  constructor
  · rintro (⟨hn, _⟩ | ⟨s', l, hs, ⟨hl, hd⟩, he⟩)
    · exact absurd ⟨s, hp.symm⟩ hn
    · rw [hp] at hs
      obtain rfl : s = s' := by simpa using hs
      rw [EqIgnoreAsciiCase, List.map_append, List.map_cons] at he
      obtain ⟨l', r, hh, hl', hr⟩ := List.map_eq_append_iff.mp he
      obtain ⟨c, t, rfl, hc, ht⟩ := List.map_eq_cons_iff.mp hr
      obtain rfl := toAsciiLowercase_eq_dot_iff.mp hc
      refine ⟨l', t, ⟨hh, ?_, ?_⟩, ht⟩
      · rintro rfl
        exact hl (List.map_eq_nil_iff.mp hl'.symm)
      · rwa [dot_mem_iff_of_eqIgnoreAsciiCase hl']
  · rintro ⟨l, t, ⟨hh, hl, hd⟩, ht⟩
    refine .inr ⟨s, l, hp, ⟨hl, hd⟩, ?_⟩
    rw [EqIgnoreAsciiCase, hh, List.map_append, List.map_append, List.map_cons, List.map_cons, ht]

theorem strPrefix_of_ascii (h : ∀ b ∈ s, b < 0x80) (hi : i ≤ s.length) :
    strPrefix s i = .ok (s.take i) := by
  refine if_pos ?_
  obtain hi | hi := Nat.eq_or_lt_of_le hi
  · exact .inl hi
  · refine .inr ⟨s[i], by simp [hi], ?_⟩
    have hb : ∀ n < 128, UInt8.ofNat n &&& 0xc0 ≠ 0x80 := by decide +kernel
    have hs := hb s[i].toNat (UInt8.lt_iff_toNat_lt.mp (h _ (List.getElem_mem hi)))
    rwa [UInt8.ofNat_toNat] at hs

-- The code looks for the rest of the pattern at the end, but not at the byte before it.
theorem hostnameMatches_wildcard_iff (hp : Bytes.ofString p = 0x2a :: 0x2e :: s) (hh : IsAscii h) :
    hostnameMatches p h = .ok true ↔ ∃ l c, Splits (Bytes.ofString h) l c s := by
  simp only [hostnameMatches, hp]
  constructor
  · intro hm
    split_ifs at hm with hc
    · obtain ⟨⟨pre, hpre⟩, hl⟩ := hc
      rw [←hpre, List.length_append] at hl
      have hn : pre ≠ [] := by
        rintro rfl
        simp at hl
      have hlen : (Bytes.ofString h).length - s.length - 1 = pre.length - 1 := by
        rw [←hpre, List.length_append]
        omega
      obtain ⟨label, hs, hd⟩ := bind_eq_ok_iff.mp hm
      rw [strPrefix_of_ascii hh (by omega), hlen, ←hpre] at hs
      obtain rfl := Except.ok.inj hs
      rw [List.take_append_of_le_length (by omega), ←List.dropLast_eq_take] at hd
      refine ⟨pre.dropLast, pre.getLast hn, ?_, ?_, ?_⟩
      · rw [←hpre, List.append_cons, List.dropLast_append_getLast]
      · rw [←List.length_pos_iff, List.length_dropLast]
        omega
      · simpa [pure, Except.pure] using hd
    · cases hm
  · rintro ⟨l, c, hs, hl, hd⟩
    have hll := List.length_pos_iff.mpr hl
    have hlen : (Bytes.ofString h).length = l.length + 1 + s.length := by
      rw [hs, List.length_append, List.length_cons]
      omega
    have ht : (Bytes.ofString h).take ((Bytes.ofString h).length - s.length - 1) = l := by
      rw [hlen, hs, show l.length + 1 + s.length - s.length - 1 = l.length by omega, List.take_left]
    rw [if_pos ⟨⟨l ++ [c], by rw [hs, List.append_assoc]; rfl⟩, by omega⟩,
      strPrefix_of_ascii hh (by omega), ht]
    simp [hd, pure, Except.pure]

theorem Splits.unique (h : Splits n l c t) (h' : Splits n l' c' t') (ht : t.length = t'.length) :
    c = c' ∧ t = t' :=
  List.cons.inj <| List.append_inj_right' (h.eq.symm.trans h'.eq) (by simp [ht])

-- The byte before the last bytes of the host name is a dot exactly if these are the rest of the
-- pattern in the same case. This concerns patterns with a wildcard only.
def DotAndCase (p h : String) : Prop :=
  ∀ s l c t, Bytes.ofString p = 0x2a :: 0x2e :: s → Splits (Bytes.ofString h) l c t →
    EqIgnoreAsciiCase t s → (c = 0x2e ↔ t = s)

theorem hostnameMatches_exact (hp : ¬[0x2a, 0x2e] <+: Bytes.ofString p) :
    hostnameMatches p h = .ok true ↔ Rfc9525 p h := by
  have hr : Rfc9525 p h ↔ EqIgnoreAsciiCase (Bytes.ofString p) (Bytes.ofString h) := by
    constructor
    · rintro (⟨_, he⟩ | ⟨s, _, hs, _⟩)
      · exact he
      · exact absurd ⟨s, hs.symm⟩ hp
    · exact fun he => .inl ⟨hp, he⟩
  rw [hr]
  simp only [hostnameMatches]
  split
  case h_1 s hs => exact absurd ⟨s, hs.symm⟩ hp
  case h_2 => simp [pure, Except.pure, EqIgnoreAsciiCase]

theorem hostnameMatches_rfc9525_iff (hh : IsAscii h) :
    (hostnameMatches p h = .ok true ↔ Rfc9525 p h) ↔ DotAndCase p h := by
  by_cases hp : [0x2a, 0x2e] <+: Bytes.ofString p
  case neg =>
    refine iff_of_true (hostnameMatches_exact hp) ?_
    rintro s _ _ _ hs
    exact absurd ⟨s, hs.symm⟩ hp
  case pos =>
    obtain ⟨s, hs⟩ := hp
    have hs : Bytes.ofString p = 0x2a :: 0x2e :: s := hs.symm
    have hlen {t : Bytes} (h : EqIgnoreAsciiCase t s) : t.length = s.length := by
      simpa using congrArg List.length h
    rw [hostnameMatches_wildcard_iff hs hh, rfc9525_wildcard_iff hs]
    constructor
    · rintro h s' l c t hs' hl ht
      obtain rfl : s = s' := by simpa [hs] using hs'
      constructor
      · rintro rfl
        have ⟨l', c', hl'⟩ := h.mpr ⟨l, t, hl, ht⟩
        exact (hl.unique hl' (hlen ht)).right
      · rintro rfl
        have ⟨l', t', hl', ht'⟩ := h.mp ⟨l, c, hl⟩
        exact (hl.unique hl' (hlen ht').symm).left
    · intro h
      constructor
      · rintro ⟨l, c, hl⟩
        obtain rfl := (h s l c s hs hl rfl).mpr rfl
        exact ⟨l, s, hl, rfl⟩
      · rintro ⟨l, t, hl, ht⟩
        obtain rfl := (h s l _ t hs hl ht).mp rfl
        exact ⟨l, _, hl⟩

theorem hostnameMatches_rfc9525_iff_of_subdomain :
    (hostnameMatches "*.example.com" "foo.example.com" = .ok true ↔
      Rfc9525 "*.example.com" "foo.example.com") ↔
    DotAndCase "*.example.com" "foo.example.com" :=
  hostnameMatches_rfc9525_iff (by unfold IsAscii; decide +kernel)

-- A foreign domain that merely ends in the same letters.
theorem not_hostnameMatches_rfc9525 :
    ¬∀ p h, IsAscii p → IsAscii h → (hostnameMatches p h = .ok true ↔ Rfc9525 p h) := by
  intro hm
  have hh : IsAscii "notexample.com" := by unfold IsAscii; decide +kernel
  have hp : Bytes.ofString "*.example.com" = 0x2a :: 0x2e :: Bytes.ofString "example.com" := by
    decide
  have hs : Splits (Bytes.ofString "notexample.com") (Bytes.ofString "no") 0x74
      (Bytes.ofString "example.com") := ⟨by decide, by decide, by decide⟩
  have hr := hm "*.example.com" "notexample.com" (by unfold IsAscii; decide +kernel) hh
  have hd := hostnameMatches_rfc9525_iff hh |>.mp hr
  exact absurd ((hd _ _ _ _ hp hs rfl).mpr rfl) (by decide)

end Guest
