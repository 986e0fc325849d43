import NotaryModel.Notary.Indexed

namespace Notary.Indexed

open Exec (index range assert lift_ok range_eq_ok)

variable {bs s : Bytes}

section

variable {f : α → OptionT Exec β} {g : α → Option β}

@[simp]
theorem ofOption_some (a : α) : ofOption (some a) = pure a :=
  rfl

@[simp]
theorem ofOption_none : ofOption (none : Option α) = failure :=
  rfl

@[simp]
theorem failure_bind : (failure : OptionT Exec α) >>= f = failure :=
  rfl

theorem ofOption_bind (a? : Option α) (h : ∀ a, f a = ofOption (g a)) :
    ofOption a? >>= f = ofOption (a? >>= g) := by
  cases a?
  case none   => rfl
  case some a => exact h a

theorem run_ofOption (a? : Option α) : (ofOption a?).run = .ok a? :=
  rfl

end

-- What is read from position `pos` on in a slice that has `s` there up to position `e`.

theorem index_of_slice (hd : bs.slice pos e = s) (k : Nat) (h : s[k]? = some b) :
    index bs (pos + k) = .ok b := by
  have hk : k < e - pos := by
    by_contra hk
    rw [←hd, Bytes.slice, List.getElem?_take_eq_none (Nat.not_lt.mp hk)] at h
    cases h
  rw [←hd, Bytes.slice, List.getElem?_take_of_lt hk, List.getElem?_drop] at h
  exact Exec.index_eq_ok_iff.mpr h

theorem u16_of_slice (hd : bs.slice pos e = s) (k : Nat) (h₀ : s[k]? = some b₀)
    (h₁ : s[k + 1]? = some b₁) : u16 bs (pos + k) = .ok (Bytes.ofBe [b₀, b₁]) := by
  rw [u16, index_of_slice hd k h₀, Nat.add_assoc, index_of_slice hd (k + 1) h₁]
  rfl

theorem u24_of_slice (hd : bs.slice pos e = s) (k : Nat) (h₀ : s[k]? = some b₀)
    (h₁ : s[k + 1]? = some b₁) (h₂ : s[k + 2]? = some b₂) :
    u24 bs (pos + k) = .ok (Bytes.ofBe [b₀, b₁, b₂]) := by
  rw [u24, index_of_slice hd k h₀, Nat.add_assoc, index_of_slice hd (k + 1) h₁, Nat.add_assoc,
    index_of_slice hd (k + 2) h₂]
  rfl

theorem slice_add (bs : Bytes) (pos n e : Nat) : bs.slice (pos + n) e = (bs.slice pos e).drop n := by
  rw [Bytes.slice, Bytes.slice, List.drop_take, List.drop_drop, Nat.sub_add_eq]

theorem slice_zero_length (bs : Bytes) : bs.slice 0 bs.length = bs := by
  simp [Bytes.slice]

theorem length_of_slice (he : e ≤ bs.length) (hd : bs.slice pos e = b :: s) :
    e = pos + (s.length + 1) := by
  have hl := congrArg List.length hd
  rw [Bytes.length_slice, List.length_cons] at hl
  omega

theorem length_lt_of_slice (he : e ≤ bs.length) (hd : bs.slice pos e = s) (hs : s.length < n) :
    ¬pos + n ≤ e := by
  rw [←hd, Bytes.length_slice] at hs
  omega

theorem range_of_slice (he : e ≤ bs.length) (hd : bs.slice pos e = s) (h : pos + n ≤ e) :
    range bs pos (pos + n) = .ok (s.take n) := by
  rw [range_eq_ok (Nat.le_add_right ..) (h.trans he), ←hd, Bytes.slice, Bytes.slice, List.take_take,
    Nat.add_sub_cancel_left, Nat.min_eq_left (by omega)]

theorem length_lt_four (h : ∀ a b c d t, s = a :: b :: c :: d :: t → False) : s.length < 4 := by
  rcases s with _ | ⟨_, _ | ⟨_, _ | ⟨_, _ | _⟩⟩⟩
  case cons.cons.cons.cons => exact (h _ _ _ _ _ rfl).elim
  all_goals simp

theorem length_lt_five (h : ∀ a b c d e t, s = a :: b :: c :: d :: e :: t → False) :
    s.length < 5 := by
  rcases s with _ | ⟨_, _ | ⟨_, _ | ⟨_, _ | ⟨_, _ | _⟩⟩⟩⟩
  case cons.cons.cons.cons.cons => exact (h _ _ _ _ _ _ rfl).elim
  all_goals simp

theorem map_append_cons (l : List α) (a : α) (l? : Option (List α)) :
    (l ++ ·) <$> (a :: ·) <$> l? = (l ++ [a] ++ ·) <$> l? := by
  cases l? <;> simp

-- What the loop does when the header of a record is there.
theorem parseRecords.loop_record {bytes rest : Bytes}
    (hd : bytes.slice pos bytes.length = ct :: v₀ :: v₁ :: l₀ :: l₁ :: rest)
    (hlen : len = Bytes.ofBe [l₀, l₁]) (records : List RawRecord) :
    loop bytes pos records =
    if rest.length < len then
      failure
    else
      loop bytes (pos + 5 + len)
        (records ++ [⟨ct, .ofNat (Bytes.ofBe [v₀, v₁]), rest.take len⟩]) := by
  have hl := length_of_slice le_rfl hd
  simp only [List.length_cons] at hl
  have hct : index bytes pos = .ok ct := index_of_slice hd 0 rfl
  have hr : bytes.slice (pos + 5) bytes.length = rest := by
    rw [slice_add, hd]
    rfl
  rw [loop, dif_pos (by omega), hct, u16_of_slice hd 1 rfl rfl, u16_of_slice hd 3 rfl rfl, ←hlen]
  simp only [lift_ok, pure_bind]
  split_ifs with hc hlt hlt
  case pos => rfl
  case neg => omega
  case pos => omega
  case neg =>
    rw [range_of_slice le_rfl hr (by omega), lift_ok, pure_bind]

theorem parseRecords.loop_eq (bytes : Bytes) (pos : Nat) (records : List RawRecord) :
    loop bytes pos records =
    ofOption ((records ++ ·) <$> Notary.parseRecords (bytes.slice pos bytes.length)) := by
  unfold Notary.parseRecords
  induction hd : bytes.slice pos bytes.length using RawRecord.parse.induct generalizing pos records
  case case1 ct v₀ v₁ l₀ l₁ rest len hlt =>
    rw [parseRecords.loop_record hd rfl, if_pos hlt, RawRecord.parse, if_pos hlt]
    rfl
  case case2 ct v₀ v₁ l₀ l₁ rest len hlt ih =>
    have hn : bytes.slice (pos + 5 + len) bytes.length = rest.drop len := by
      rw [slice_add, slice_add, hd]
      rfl
    rw [parseRecords.loop_record hd rfl, if_neg hlt, RawRecord.parse, if_neg hlt, ih _ _ hn,
      map_append_cons]
  case case3 bs h =>
    rw [loop, dif_neg (length_lt_of_slice le_rfl hd (length_lt_five h)), RawRecord.parse.eq_2 _ h,
      Option.map_eq_map, Option.map_some, List.append_nil]
    rfl

theorem parseRecords_eq (bytes : Bytes) :
    parseRecords bytes = ofOption (Notary.parseRecords bytes) := by
  rw [parseRecords, parseRecords.loop_eq, slice_zero_length]
  simp

-- What the loop does when the header of a message is there.
theorem parseHandshakeMessages.loop_message {payload rest : Bytes}
    (hd : payload.slice p payload.length = ty :: l₀ :: l₁ :: l₂ :: rest)
    (hlen : len = Bytes.ofBe [l₀, l₁, l₂]) (out : List (Byte × Bytes)) :
    loop payload p out =
    if rest.length < len then
      failure
    else
      loop payload (p + 4 + len) (out ++ [(ty, rest.take len)]) := by
  have hl := length_of_slice le_rfl hd
  simp only [List.length_cons] at hl
  have hty : index payload p = .ok ty := index_of_slice hd 0 rfl
  have hr : payload.slice (p + 4) payload.length = rest := by
    rw [slice_add, hd]
    rfl
  rw [loop, dif_pos (by omega), hty, u24_of_slice hd 1 rfl rfl rfl, ←hlen]
  simp only [lift_ok, pure_bind]
  split_ifs with hc hlt hlt
  case pos => rfl
  case neg => omega
  case pos => omega
  case neg =>
    rw [range_of_slice le_rfl hr (by omega), lift_ok, pure_bind]

theorem parseHandshakeMessages.loop_eq (payload : Bytes) (p : Nat) (out : List (Byte × Bytes)) :
    loop payload p out =
    ofOption ((out ++ ·) <$> Notary.parseHandshakeMessages (payload.slice p payload.length)) := by
  induction hd : payload.slice p payload.length using Notary.parseHandshakeMessages.induct
    generalizing p out
  case case1 ty l₀ l₁ l₂ rest len hlt =>
    rw [parseHandshakeMessages.loop_message hd rfl, if_pos hlt, Notary.parseHandshakeMessages,
      if_pos hlt]
    rfl
  case case2 ty l₀ l₁ l₂ rest len hlt ih =>
    have hn : payload.slice (p + 4 + len) payload.length = rest.drop len := by
      rw [slice_add, slice_add, hd]
      rfl
    rw [parseHandshakeMessages.loop_message hd rfl, if_neg hlt, Notary.parseHandshakeMessages,
      if_neg hlt, ih _ _ hn, map_append_cons]
  case case3 bs h =>
    rw [loop, dif_neg (length_lt_of_slice le_rfl hd (length_lt_four h)),
      Notary.parseHandshakeMessages.eq_2 _ h, Option.map_eq_map, Option.map_some, List.append_nil]
    rfl

theorem parseHandshakeMessages_eq (payload : Bytes) :
    parseHandshakeMessages payload = ofOption (Notary.parseHandshakeMessages payload) := by
  rw [parseHandshakeMessages, parseHandshakeMessages.loop_eq, slice_zero_length]
  simp

theorem checkedSub_eq (h : b ≤ a) : checkedSub a b = pure (a - b) := by
  rw [checkedSub, if_pos h]
  rfl

theorem guard_pos {c : Prop} [Decidable c] (h : c) : (guard c : OptionT Exec Unit) = pure () :=
  if_pos h

theorem guard_neg {c : Prop} [Decidable c] (h : ¬c) : (guard c : OptionT Exec Unit) = failure :=
  if_neg h

-- What the loop does when the length of an entry is there.
theorem parseCertMessage.loop_entry (h : listEnd ≤ body.length)
    (hd : body.slice pos listEnd = l₀ :: l₁ :: l₂ :: list) (hc : certLen = Bytes.ofBe [l₀, l₁, l₂])
    (certs : List Bytes) : loop body listEnd pos certs =
    (if list.length < certLen then
      failure
    else do
      let left ← checkedSub listEnd (pos + 3 + certLen)
      guard (2 ≤ left)
      let extLen ← OptionT.lift (u16 body (pos + 3 + certLen))
      loop body listEnd (pos + 3 + certLen + (2 + extLen)) (certs ++ [list.take certLen])) := by
  have hl := length_of_slice h hd
  simp only [List.length_cons] at hl
  have hu : u24 body pos = .ok certLen := hc ▸ u24_of_slice hd 0 rfl rfl rfl
  have hs : body.slice (pos + 3) listEnd = list := by
    rw [slice_add, hd]
    rfl
  rw [loop, dif_pos (by omega), checkedSub_eq (by omega), pure_bind, guard_pos (by omega), pure_bind,
    hu]
  simp only [lift_ok, pure_bind]
  rw [checkedSub_eq (by omega), pure_bind]
  split_ifs with hlt
  case pos => rw [guard_neg (by omega), failure_bind]
  case neg =>
    rw [guard_pos (by omega), pure_bind, range_of_slice h hs (by omega)]
    simp only [lift_ok, pure_bind]

theorem parseCertMessage.loop_eq (body : Bytes) (h : listEnd ≤ body.length) (pos : Nat)
    (certs : List Bytes) :
    loop body listEnd pos certs =
    ofOption ((certs ++ ·) <$> Notary.parseCertMessage.certs (body.slice pos listEnd)) := by
  induction hd : body.slice pos listEnd using Notary.parseCertMessage.certs.induct
    generalizing pos certs
  case case1 =>
    have hn : ¬pos < listEnd := length_lt_of_slice h hd Nat.one_pos
    rw [loop, dif_neg hn, Notary.parseCertMessage.certs, Option.map_eq_map, Option.map_some,
      List.append_nil]
    rfl
  case case2 l₀ l₁ l₂ list certLen hlt =>
    rw [parseCertMessage.loop_entry h hd rfl, if_pos hlt, Notary.parseCertMessage.certs, if_pos hlt]
    rfl
  case case3 l₀ l₁ l₂ list certLen hlt e₀ e₁ rest hr ih =>
    have hs : body.slice (pos + 3 + certLen) listEnd = e₀ :: e₁ :: rest := by
      rw [Nat.add_assoc, slice_add, hd, ←hr]
      simp [Nat.add_comm 3]
    have hl := length_of_slice h hs
    simp only [List.length_cons] at hl
    have he : u16 body (pos + 3 + certLen) = .ok (Bytes.ofBe [e₀, e₁]) := u16_of_slice hs 0 rfl rfl
    have hn : body.slice (pos + 3 + certLen + (2 + Bytes.ofBe [e₀, e₁])) listEnd =
        rest.drop (Bytes.ofBe [e₀, e₁]) := by
      rw [slice_add, hs, Nat.add_comm 2]
      rfl
    rw [parseCertMessage.loop_entry h hd rfl, if_neg hlt, checkedSub_eq (by omega), pure_bind,
      guard_pos (by omega), pure_bind, he, lift_ok, pure_bind, ih _ _ hn,
      Notary.parseCertMessage.certs, if_neg hlt, ←map_append_cons]
    split
    case h_1 he' =>
      obtain ⟨rfl, h⟩ := List.cons.inj (hr.symm.trans he')
      obtain ⟨rfl, rfl⟩ := List.cons.inj h
      rfl
    case h_2 he' => exact (he' _ _ _ hr).elim
  case case4 l₀ l₁ l₂ list certLen hlt hr =>
    have hs : body.slice (pos + 3 + certLen) listEnd = list.drop certLen := by
      rw [Nat.add_assoc, slice_add, hd]
      simp [Nat.add_comm 3]
    have hl := length_of_slice h hd
    simp only [List.length_cons] at hl
    have hn : (list.drop certLen).length < 2 := by
      rcases hc : list.drop certLen with _ | ⟨_, _ | _⟩
      case cons.cons => exact (hr _ _ _ hc).elim
      all_goals simp
    have hn := length_lt_of_slice h hs hn
    rw [parseCertMessage.loop_entry h hd rfl, if_neg hlt, checkedSub_eq (by omega), pure_bind,
      guard_neg (by omega), failure_bind, Notary.parseCertMessage.certs, if_neg hlt]
    split
    case h_1 he' => exact (hr _ _ _ he').elim
    case h_2     => rfl
  case case5 bs hn he =>
    have hs : bs.length < 3 := by
      rcases bs with _ | ⟨_, _ | ⟨_, _ | _⟩⟩
      case cons.cons.cons => exact (he _ _ _ _ rfl).elim
      all_goals simp
    have hp : 0 < bs.length := List.length_pos_iff.mpr hn
    rw [←hd, Bytes.length_slice] at hs hp
    rw [loop, dif_pos (by omega), checkedSub_eq (by omega), pure_bind, guard_neg (by omega),
      failure_bind, Notary.parseCertMessage.certs.eq_3 _ hn he]
    rfl

theorem index_eq_ok (h : bs[i]? = some b) : index bs i = .ok b :=
  Exec.index_eq_ok_iff.mpr h

theorem u16_eq_ok (h : i + 2 ≤ bs.length) : u16 bs i = .ok (Bytes.ofBe (bs.slice i (i + 2))) := by
  have h₀ : bs[i]? = some (bs[i]) := List.getElem?_eq_getElem (by omega)
  have h₁ : bs[i + 1]? = some (bs[i + 1]) := List.getElem?_eq_getElem (by omega)
  rw [u16, index_eq_ok h₀, index_eq_ok h₁, Bytes.slice, Nat.add_sub_cancel_left,
    List.drop_eq_getElem_cons (by omega), List.drop_eq_getElem_cons (by omega)]
  rfl

theorem u24_eq_ok (h : i + 3 ≤ bs.length) : u24 bs i = .ok (Bytes.ofBe (bs.slice i (i + 3))) := by
  have h₀ : bs[i]? = some (bs[i]) := List.getElem?_eq_getElem (by omega)
  have h₁ : bs[i + 1]? = some (bs[i + 1]) := List.getElem?_eq_getElem (by omega)
  have h₂ : bs[i + 2]? = some (bs[i + 2]) := List.getElem?_eq_getElem (by omega)
  rw [u24, index_eq_ok h₀, index_eq_ok h₁, index_eq_ok h₂, Bytes.slice, Nat.add_sub_cancel_left,
    List.drop_eq_getElem_cons (by omega), List.drop_eq_getElem_cons (by omega),
    List.drop_eq_getElem_cons (by omega)]
  rfl

section

variable {f : Unit → OptionT Exec α} {g : Unit → Option α}

theorem guard_bind_eq {c : Prop} [Decidable c] (h : c → f () = ofOption (g ())) :
    guard c >>= f = ofOption (guard c >>= g) := by
  by_cases hc : c
  case pos =>
    rw [guard_pos hc, pure_bind, h hc, guard, if_pos hc]
    rfl
  case neg =>
    rw [guard_neg hc, failure_bind, guard, if_neg hc]
    rfl

theorem checkedSub_bind_eq (h : b + n ≤ a → f () = ofOption (g ())) :
    (checkedSub a b >>= fun left => guard (n ≤ left) >>= f) =
    ofOption (guard (b + n ≤ a) >>= g) := by
  by_cases hb : b ≤ a
  case pos =>
    rw [checkedSub_eq hb, pure_bind, guard_bind_eq fun hn => h (by omega)]
    simp only [Nat.le_sub_iff_add_le' hb]
  case neg =>
    have hn : ¬b + n ≤ a := by omega
    rw [checkedSub, if_neg hb, guard, if_neg hn]
    rfl

end

theorem index_bind_eq {f : Byte → OptionT Exec α} {g : Byte → Option α}
    (h : ∀ b, f b = ofOption (g b)) :
    (guard (i < bs.length) >>= fun _ => OptionT.lift (index bs i) >>= f) =
    ofOption (bs[i]? >>= g) := by
  by_cases hi : i < bs.length
  case pos =>
    have hb : bs[i]? = some bs[i] := List.getElem?_eq_getElem hi
    rw [guard_pos hi, pure_bind, index_eq_ok hb, hb, lift_ok, pure_bind, h]
    rfl
  case neg =>
    rw [guard_neg hi, List.getElem?_eq_none (Nat.not_lt.mp hi)]
    rfl

theorem parseCertMessage_eq (body : Bytes) :
    parseCertMessage body = ofOption (Notary.parseCertMessage body) := by
  refine index_bind_eq fun ctxLen => ?_
  rw [Nat.zero_add]
  refine checkedSub_bind_eq fun hp => ?_
  rw [u24_eq_ok hp, lift_ok, pure_bind]
  refine guard_bind_eq fun he => ?_
  rw [parseCertMessage.loop_eq body he]
  simp

theorem slice_slice (h : pos + j ≤ e) :
    (bs.slice pos e).slice i j = bs.slice (pos + i) (pos + j) := by
  rw [Bytes.slice, Bytes.slice, Bytes.slice, List.drop_take, List.drop_drop, List.take_take,
    Nat.min_eq_left (by omega), Nat.add_sub_add_left]

theorem arrayOf_eq (h : src.length = n) : arrayOf n src = .ok (Arr.ofBytes n src) := by
  rw [arrayOf, Exec.assert, if_pos h]
  rfl

-- The key share in an extension of type `extType` that `exts` starts with.
def keyShareIn (exts : Bytes) (extType extDataLen : Nat) : Option (Arr 32) :=
  if extType = 0x0033 ∧ extDataLen ≥ 2 + 32 ∧ Bytes.ofBe (Bytes.slice exts 0 2) = 0x001d ∧
      Bytes.ofBe (Bytes.slice exts 2 4) = 32 ∧ 4 + 32 ≤ exts.length then
    some (.ofBytes 32 (Bytes.slice exts 4 (4 + 32)))
  else
    none

theorem parseShKeyShare.extension_eq (h : extEnd ≤ body.length) (hp : p + extDataLen ≤ extEnd) :
    extension body extEnd p extType extDataLen =
    .ok (keyShareIn (body.slice p extEnd) extType extDataLen) := by
  have hl : (body.slice p extEnd).length = extEnd - p := by
    rw [Bytes.length_slice]
    omega
  unfold extension keyShareIn
  by_cases ht : extType = 0x0033 ∧ extDataLen ≥ 2 + 32
  case neg =>
    rw [if_neg ht, if_neg fun hc => ht ⟨hc.left, hc.right.left⟩]
    rfl
  have hle := ht.right
  rw [if_pos ht, u16_eq_ok (by omega), u16_eq_ok (by omega), slice_slice (by omega),
    slice_slice (by omega), hl]
  simp only [Exec.ok_bind, Nat.add_zero, Nat.add_assoc, Nat.reduceAdd]
  by_cases hg : (body.slice p (p + 2)).ofBe = 0x001d
  case neg =>
    rw [if_neg hg, if_neg fun hc => hg hc.right.right.left]
    rfl
  rw [if_pos hg]
  by_cases hk : (body.slice (p + 2) (p + 4)).ofBe = 32 ∧ p + 36 ≤ extEnd
  case neg =>
    rw [if_neg hk, if_neg fun hc => hk ⟨hc.right.right.right.left, by omega⟩]
    rfl
  have hke := hk.right
  have hs : (body.slice (p + 4) (p + 36)).length = 32 := by
    rw [Bytes.length_slice]
    omega
  rw [if_pos hk, if_pos ⟨ht.left, ht.right, hg, hk.left, by omega⟩, range_eq_ok (by omega) (by omega),
    Exec.ok_bind, arrayOf_eq hs, slice_slice hke]
  rfl

-- What the loop does when the header of an extension is there.
theorem parseShKeyShare.loop_extension {body exts : Bytes} (h : extEnd ≤ body.length)
    (hd : body.slice p extEnd = t₀ :: t₁ :: l₀ :: l₁ :: exts) (hlen : len = Bytes.ofBe [l₀, l₁]) :
    loop body extEnd p =
    if exts.length < len then
      failure
    else
      match keyShareIn exts (Bytes.ofBe [t₀, t₁]) len with
      | some key => pure key
      | none     => loop body extEnd (p + 4 + len) := by
  have hl := length_of_slice h hd
  simp only [List.length_cons] at hl
  have ht : u16 body p = .ok (Bytes.ofBe [t₀, t₁]) := u16_of_slice hd 0 rfl rfl
  have hs : body.slice (p + 4) extEnd = exts := by
    rw [slice_add, hd]
    rfl
  rw [loop, dif_pos (by omega), ht, u16_of_slice hd 2 rfl rfl, ←hlen]
  simp only [lift_ok, pure_bind]
  split_ifs with hc hlt hlt
  case pos => rfl
  case neg => omega
  case pos => omega
  case neg =>
    rw [parseShKeyShare.extension_eq h (by omega), hs]
    rfl

theorem parseShKeyShare.loop_eq (body : Bytes) (h : extEnd ≤ body.length) (p : Nat) :
    loop body extEnd p = ofOption (Notary.parseShKeyShare.extensions (body.slice p extEnd)) := by
  induction hd : body.slice p extEnd using Notary.parseShKeyShare.extensions.induct generalizing p
  case case1 t₀ t₁ l₀ l₁ exts extDataLen hlt =>
    rw [parseShKeyShare.loop_extension h hd rfl, if_pos hlt, Notary.parseShKeyShare.extensions,
      if_pos hlt]
    rfl
  case case2 t₀ t₁ l₀ l₁ exts extType extDataLen hlt hk =>
    rw [parseShKeyShare.loop_extension h hd rfl, if_neg hlt, Notary.parseShKeyShare.extensions,
      if_neg hlt, if_pos hk, keyShareIn, if_pos hk]
    rfl
  case case3 t₀ t₁ l₀ l₁ exts extType extDataLen hlt hk ih =>
    have hn : body.slice (p + 4 + extDataLen) extEnd = exts.drop extDataLen := by
      rw [slice_add, slice_add, hd]
      rfl
    rw [parseShKeyShare.loop_extension h hd rfl, if_neg hlt, Notary.parseShKeyShare.extensions,
      if_neg hlt, if_neg hk, keyShareIn, if_neg hk]
    exact ih _ hn
  case case4 bs hn =>
    rw [loop, dif_neg (length_lt_of_slice h hd (length_lt_four hn)),
      Notary.parseShKeyShare.extensions.eq_2 _ hn]
    rfl

theorem parseShKeyShare_eq (body : Bytes) :
    parseShKeyShare body = ofOption (Notary.parseShKeyShare body) := by
  refine guard_bind_eq fun _ => ?_
  refine index_bind_eq fun sessionIdLen => ?_
  rw [←Nat.add_assoc]
  refine guard_bind_eq fun _ => ?_
  refine index_bind_eq fun compLen => ?_
  rw [←Nat.add_assoc]
  refine guard_bind_eq fun hp => ?_
  rw [u16_eq_ok hp, lift_ok, pure_bind]
  refine guard_bind_eq fun he => ?_
  exact parseShKeyShare.loop_eq body he _

theorem parseServerHelloKeyShare.record_eq (ct : Byte) (payload : Bytes) :
    record ct payload = .ok
      (if ct ≠ 22 ∨ payload.length < 4 ∨ payload.head? ≠ some 2 then
        none
      else
        Notary.parseShKeyShare (payload.drop 4)) := by
  unfold record
  by_cases hct : ct ≠ 22
  case pos =>
    rw [if_pos hct, if_pos (.inl hct)]
    rfl
  by_cases hl : payload.length < 4
  case pos =>
    rw [if_neg hct, if_pos hl, if_pos (.inr (.inl hl))]
    rfl
  obtain ⟨ty, body, rfl⟩ : ∃ ty body, payload = ty :: body := by
    cases payload
    case nil  => exact absurd (Nat.zero_lt_succ 3) hl
    case cons => exact ⟨_, _, rfl⟩
  have hi : index (ty :: body) 0 = .ok ty := rfl
  rw [if_neg hct, if_neg hl, hi, Exec.ok_bind, List.head?_cons]
  by_cases hty : ty ≠ 2
  case pos =>
    rw [if_pos hty, if_pos (.inr (.inr fun h => hty (Option.some.inj h)))]
    rfl
  case neg =>
    have hh : ¬(ct ≠ 22 ∨ (ty :: body).length < 4 ∨ some ty ≠ some 2) :=
      fun h => h.elim hct fun h => h.elim hl fun h => hty fun he => h (congrArg some he)
    rw [if_neg hty, if_neg hh, range_eq_ok (Nat.not_lt.mp hl) le_rfl, Exec.ok_bind,
      parseShKeyShare_eq, run_ofOption, Bytes.slice, List.take_of_length_le (by simp)]

theorem parseServerHelloKeyShare.loop_eq (inbound : Bytes) (pos : Nat) :
    loop inbound pos =
    ofOption (Notary.parseServerHelloKeyShare (inbound.slice pos inbound.length)) := by
  induction hd : inbound.slice pos inbound.length using Notary.parseServerHelloKeyShare.induct
    generalizing pos
  case case1 ct v₀ v₁ l₀ l₁ rest len hlt =>
    have hl := length_of_slice le_rfl hd
    simp only [List.length_cons] at hl
    have hct : index inbound pos = .ok ct := index_of_slice hd 0 rfl
    rw [loop, dif_pos (by omega), Notary.parseServerHelloKeyShare, if_pos hlt, hct,
      u16_of_slice hd 3 rfl rfl]
    simp only [lift_ok, pure_bind]
    rw [if_pos (by omega)]
    rfl
  case case2 ct v₀ v₁ l₀ l₁ rest len hlt ih =>
    have hl := length_of_slice le_rfl hd
    simp only [List.length_cons] at hl
    have hct : index inbound pos = .ok ct := index_of_slice hd 0 rfl
    have hr : inbound.slice (pos + 5) inbound.length = rest := by
      rw [slice_add, hd]
      rfl
    rw [loop, dif_pos (by omega), Notary.parseServerHelloKeyShare, if_neg hlt, hct,
      u16_of_slice hd 3 rfl rfl]
    simp only [lift_ok, pure_bind]
    rw [if_neg (by omega), range_of_slice le_rfl hr (by omega)]
    simp only [lift_ok, pure_bind, parseServerHelloKeyShare.record_eq]
    split
    case h_1 epk he =>
      rw [he]
      rfl
    case h_2 he =>
      rw [he, Option.none_or]
      exact ih _ (by rw [slice_add, hr])
  case case3 bs h =>
    rw [loop, dif_neg (length_lt_of_slice le_rfl hd (length_lt_five h)),
      Notary.parseServerHelloKeyShare.eq_2 _ h]
    rfl

theorem parseServerHelloKeyShare_eq (inbound : Bytes) :
    parseServerHelloKeyShare inbound = ofOption (Notary.parseServerHelloKeyShare inbound) := by
  rw [parseServerHelloKeyShare, parseServerHelloKeyShare.loop_eq, slice_zero_length]

theorem xorNonce_eq (iv : Arr 12) (seq : UInt64) :
    xorNonce iv seq = .ok (Notary.xorNonce iv seq) := by
  obtain ⟨b₀, b₁, b₂, b₃, b₄, b₅, b₆, b₇, hb⟩ : ∃ b₀ b₁ b₂ b₃ b₄ b₅ b₆ b₇,
      Bytes.be 8 seq.toNat = [b₀, b₁, b₂, b₃, b₄, b₅, b₆, b₇] :=
    ⟨_, _, _, _, _, _, _, _, rfl⟩
  obtain ⟨i₀, i₁, i₂, i₃, i₄, i₅, i₆, i₇, i₈, i₉, i₁₀, i₁₁, hi⟩ :
      ∃ i₀ i₁ i₂ i₃ i₄ i₅ i₆ i₇ i₈ i₉ i₁₀ i₁₁,
      iv = #v[i₀, i₁, i₂, i₃, i₄, i₅, i₆, i₇, i₈, i₉, i₁₀, i₁₁] := by
    refine ⟨iv[0], iv[1], iv[2], iv[3], iv[4], iv[5], iv[6], iv[7], iv[8], iv[9], iv[10], iv[11], ?_⟩
    ext i hi
    interval_cases i <;> rfl
  rw [xorNonce, Notary.xorNonce, hb, hi]
  refine Eq.trans (b := Except.ok (Arr.ofBytes 12 [i₀, i₁, i₂, i₃, i₄ ^^^ b₀, i₅ ^^^ b₁, i₆ ^^^ b₂,
    i₇ ^^^ b₃, i₈ ^^^ b₄, i₉ ^^^ b₅, i₁₀ ^^^ b₆, i₁₁ ^^^ b₇])) rfl (congrArg Except.ok ?_)
  ext i hi
  interval_cases i <;> simp

section

variable {gcm : Gcm.Open} {compress : Arr 32 → Arr 64 → Arr 32} {key : Arr 16} {iv : Arr 12}

theorem decryptHsRecord_eq (seq : UInt64) (record : RawRecord) :
    decryptHsRecord gcm key iv seq record =
    ofOption (Notary.decryptHsRecord gcm key iv seq record) := by
  refine guard_bind_eq fun _ => ?_
  rw [xorNonce_eq, lift_ok, pure_bind]
  refine guard_bind_eq fun hl => ?_
  have hc : record.payload.slice 0 (record.payload.length - 16) =
      record.payload.take (record.payload.length - 16) := rfl
  have ht : record.payload.slice (record.payload.length - 16) record.payload.length =
      record.payload.drop (record.payload.length - 16) := List.take_of_length_le (by simp)
  have htl : (record.payload.drop (record.payload.length - 16)).length = 16 := by
    rw [List.length_drop]
    omega
  rw [checkedSub_eq hl, pure_bind, range_eq_ok (Nat.zero_le _) (Nat.sub_le ..), lift_ok, pure_bind,
    range_eq_ok (Nat.sub_le ..) le_rfl, lift_ok, pure_bind, hc, ht, arrayOf_eq htl, lift_ok,
    pure_bind]
  refine ofOption_bind _ fun buf => ?_
  exact ofOption_bind _ fun innerCt => rfl

theorem appendHsMessages_eq (messages : List Bytes) (plain : Bytes) (innerCt : Byte) :
    appendHsMessages messages plain innerCt =
    ofOption (Notary.appendHsMessages messages plain innerCt) := by
  unfold appendHsMessages Notary.appendHsMessages
  split_ifs
  case pos => rfl
  case neg =>
    rw [parseHandshakeMessages_eq]
    exact ofOption_bind _ fun msgs => rfl

theorem transcriptAfterServerFinished.round_eq (s : HsLoop) (r : RawRecord) :
    round gcm key iv s r = ofOption (Notary.transcriptAfterServerFinished.round gcm key iv s r) := by
  unfold round Notary.transcriptAfterServerFinished.round
  split_ifs
  case pos => rfl
  case neg =>
    rw [decryptHsRecord_eq]
    refine ofOption_bind _ fun x => ?_
    obtain ⟨plain, innerCt⟩ := x
    dsimp only
    rw [appendHsMessages_eq]
    exact ofOption_bind _ fun y => rfl

theorem foldlM_eq {f : β → α → OptionT Exec β} {g : β → α → Option β}
    (h : ∀ b a, f b a = ofOption (g b a)) (l : List α) (b : β) :
    l.foldlM f b = ofOption (l.foldlM g b) := by
  induction l generalizing b
  case nil => rfl
  case cons a l hi =>
    rw [List.foldlM_cons, List.foldlM_cons, h]
    exact ofOption_bind _ hi

theorem certChainDersFromHandshake.search_eq (records : List RawRecord) (seq : UInt64) :
    search gcm key iv records seq =
    ofOption (Notary.certChainDersFromHandshake.search gcm key iv records seq) := by
  induction records generalizing seq
  case nil => rfl
  case cons r rs hi =>
    unfold search Notary.certChainDersFromHandshake.search
    split_ifs
    case pos => exact hi seq
    case neg =>
      rw [decryptHsRecord_eq]
      refine ofOption_bind _ fun x => ?_
      obtain ⟨plain, innerCt⟩ := x
      dsimp only
      split_ifs
      case pos => exact hi (seq + 1)
      case neg =>
        rw [parseHandshakeMessages_eq]
        refine ofOption_bind _ fun msgs => ?_
        cases msgs.find? (·.1 == 11)
        case none     => exact hi (seq + 1)
        case some msg => exact parseCertMessage_eq msg.2

theorem transcriptAfterServerHello_eq (rawOutbound rawInbound : Bytes) :
    transcriptAfterServerHello compress rawOutbound rawInbound =
    ofOption (Notary.transcriptAfterServerHello compress rawOutbound rawInbound) := by
  unfold transcriptAfterServerHello
  rw [parseRecords_eq, parseRecords_eq]
  refine ofOption_bind _ fun out => ?_
  refine ofOption_bind _ fun inp => ?_
  refine ofOption_bind _ fun ch => ?_
  exact ofOption_bind _ fun sh => rfl

theorem transcriptAfterServerFinished_eq (rawOutbound rawInbound : Bytes) (ikm : Arr 32) :
    transcriptAfterServerFinished gcm compress rawOutbound rawInbound ikm =
    ofOption (Notary.transcriptAfterServerFinished compress gcm rawOutbound rawInbound ikm) := by
  unfold transcriptAfterServerFinished
  rw [transcriptAfterServerHello_eq, parseRecords_eq, parseRecords_eq]
  refine ofOption_bind _ fun afterSh => ?_
  refine ofOption_bind _ fun out => ?_
  refine ofOption_bind _ fun inp => ?_
  refine ofOption_bind _ fun ch => ?_
  refine ofOption_bind _ fun sh => ?_
  dsimp only
  rw [foldlM_eq transcriptAfterServerFinished.round_eq]
  refine ofOption_bind _ fun s => ?_
  exact guard_bind_eq fun _ => rfl

theorem transcriptHashesWithIkm_eq (rawOutbound rawInbound : Bytes) (ikm : Arr 32) :
    transcriptHashesWithIkm gcm compress rawOutbound rawInbound ikm =
    ofOption (Notary.transcriptHashesWithIkm compress gcm rawOutbound rawInbound ikm) := by
  unfold transcriptHashesWithIkm
  rw [transcriptAfterServerHello_eq, transcriptAfterServerFinished_eq]
  refine ofOption_bind _ fun afterSh => ?_
  exact ofOption_bind _ fun afterSf => rfl

theorem certChainDersFromHandshake_eq (rawOutbound rawInbound : Bytes) (ikm : Arr 32) :
    certChainDersFromHandshake gcm compress rawOutbound rawInbound ikm =
    ofOption (Notary.certChainDersFromHandshake compress gcm rawOutbound rawInbound ikm) := by
  unfold certChainDersFromHandshake
  rw [transcriptAfterServerHello_eq, parseRecords_eq]
  refine ofOption_bind _ fun afterSh => ?_
  refine ofOption_bind _ fun inp => ?_
  exact certChainDersFromHandshake.search_eq inp 0

-- No capture makes the notary panic: every index and every range is in bounds, and what is computed
-- with positions is what is computed on the bytes that are left.
theorem verifyHandshakeCapture_returns (files : Circuits) (gcm : Gcm.Open)
    (compress : Arr 32 → Arr 64 → Arr 32) (cap : HandshakeCapture) (ikm : Arr 32) :
    verifyHandshakeCapture gcm compress files cap ikm =
    .ok (Notary.verifyHandshakeCapture files compress gcm cap ikm) := by
  unfold verifyHandshakeCapture Notary.verifyHandshakeCapture
  rw [parseServerHelloKeyShare_eq, certChainDersFromHandshake_eq, transcriptHashesWithIkm_eq]
  simp only [run_ofOption, Exec.ok_bind]
  cases Notary.parseServerHelloKeyShare cap.inbound
  case none     => rfl
  case some epk =>
    dsimp only
    split_ifs
    case pos => rfl
    case neg =>
      cases Notary.certChainDersFromHandshake compress gcm cap.outbound cap.inbound ikm
      case none => rfl
      case some certDers =>
        dsimp only
        split_ifs
        case pos => rfl
        case neg =>
          cases Notary.transcriptHashesWithIkm compress gcm cap.outbound cap.inbound ikm <;> rfl

end

end Notary.Indexed
