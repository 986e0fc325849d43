import NotaryModel.Primitives.Bytes

-- The value that an encoding starts with can be told from the bytes, whatever follows it, as long as
-- it is one of the values in `p`.
def SelfDelimiting (p : α → Prop) (enc : α → Bytes) : Prop :=
  ∀ ⦃a b t u⦄, p a → p b → enc a ++ t = enc b ++ u → a = b ∧ t = u

namespace SelfDelimiting

theorem of_length (hl : ∀ a b, p a → p b → (enc a).length = (enc b).length)
    (hi : ∀ a b, p a → p b → enc a = enc b → a = b) : SelfDelimiting p enc := by
  intro a b t u ha hb he
  have ⟨h, ht⟩ := List.append_inj he (hl a b ha hb)
  exact ⟨hi a b ha hb h, ht⟩

theorem singleton : SelfDelimiting (fun _ => True) fun b : Byte => [b] :=
  of_length (fun _ _ _ _ => rfl) (fun _ _ _ _ => List.singleton_inj.mp)

theorem arr : SelfDelimiting (fun _ => True) fun a : Arr n => a.toList :=
  of_length (by simp) (fun _ _ _ _ => Arr.toList_inj)

theorem be : SelfDelimiting (· < 256 ^ w) (Bytes.be w) :=
  of_length (by simp) (fun _ _ => Bytes.be_inj_of_lt)

theorem u64 : SelfDelimiting (fun _ => True) fun n : UInt64 => Bytes.be 8 n.toNat :=
  of_length (by simp) fun a b _ _ h =>
    UInt64.toNat_inj.mp (Bytes.be_inj_of_lt a.toNat_lt b.toNat_lt h)

-- A length prefix of `w` bytes delimits all strings that it can hold the length of.
theorem lengthPrefixed_inj {a b : Bytes} (ha : a.length < 256 ^ w) (hb : b.length < 256 ^ w)
    (he : Bytes.be w a.length ++ (a ++ t) = Bytes.be w b.length ++ (b ++ u)) : a = b ∧ t = u :=
  have ⟨hl, he⟩ := be ha hb he
  List.append_inj he hl

-- A list needs no count if what follows it has a known length.
theorem flatMap_inj {l l' : List α} (h : SelfDelimiting p enc) (hn : ∀ a, enc a ≠ [])
    (hl : ∀ a ∈ l, p a) (hl' : ∀ a ∈ l', p a) (ht : t.length = t'.length)
    (he : l.flatMap enc ++ t = l'.flatMap enc ++ t') : l = l' ∧ t = t' := by
  have hne (a : α) (l : List α) (t t' : Bytes) (ht : t.length = t'.length) :
      (a :: l).flatMap enc ++ t ≠ t' := by
    intro h
    have h := congrArg List.length h
    have hp := List.length_pos_iff.mpr (hn a)
    simp only [List.flatMap_cons, List.length_append] at h
    omega
  induction l generalizing l' with
  | nil =>
    cases l' with
    | nil       => exact ⟨rfl, he⟩
    | cons a l' => exact absurd he.symm (hne a l' t' t ht.symm)
  | cons a l hi =>
    cases l' with
    | nil       => exact absurd he (hne a l t t' ht)
    | cons b l' =>
      simp only [List.flatMap_cons, List.append_assoc] at he
      simp only [List.forall_mem_cons] at hl hl'
      obtain ⟨rfl, hr⟩ := h hl.left hl'.left he
      obtain ⟨rfl, ht⟩ := hi hl.right hl'.right hr
      exact ⟨rfl, ht⟩

end SelfDelimiting
