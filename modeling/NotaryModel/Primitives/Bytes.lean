import Mathlib

abbrev Byte := UInt8

abbrev Bytes := List Byte

-- A fixed-size byte array (`[u8; n]`).
abbrev Arr (n : Nat) := Vector Byte n

namespace Bytes

-- The `w` big-endian bytes of `n`, where the bits of `n` above `8 * w` are dropped. For a length
-- `n` this is both the narrowing cast and the encoding of `(n as uW).to_be_bytes()`.
def be : Nat → Nat → Bytes
  | 0, _     => []
  | w + 1, n => UInt8.ofNat (n / 256 ^ w) :: be w n

-- The number that `uW::from_be_bytes` reads.
def ofBe (bs : Bytes) : Nat :=
  bs.foldl (fun n b => 256 * n + b.toNat) 0

-- The slice `bs[a..b]`.
def slice (bs : Bytes) (a b : Nat) : Bytes :=
  (bs.drop a).take (b - a)

-- The bytes of a string in UTF-8.
def ofString (s : String) : Bytes :=
  s.toUTF8.data.toList

-- `String::from_utf8`
def fromUtf8 (bs : Bytes) : Option String :=
  String.fromUTF8? bs.toByteArray

-- `format!("{:02x}", b)`
def hex (b : Byte) : String :=
  String.ofList [Nat.digitChar (b.toNat / 16), Nat.digitChar (b.toNat % 16)]

@[simp]
theorem length_be : (be w n).length = w := by
  induction w <;> simp [be, *]

@[simp]
theorem be_mod : be w (n % 256 ^ w) = be w n := by
  suffices h : ∀ k, w ≤ k → be w (n % 256 ^ k) = be w n from h w (le_refl w)
  intro k hk
  induction w with
  | zero      => rfl
  | succ w hi =>
    have h : n % 256 ^ k / 256 ^ w % 256 = n / 256 ^ w % 256 := by
      obtain ⟨d, rfl⟩ := Nat.exists_eq_add_of_le hk
      rw [Nat.pow_add, Nat.pow_succ, Nat.mul_assoc, Nat.mod_mul_right_div_self]
      exact Nat.mod_mod_of_dvd _ (Nat.dvd_mul_right ..)
    simp only [be, hi (by omega), List.cons.injEq, and_true]
    exact UInt8.toNat_inj.mp (by simpa using h)

theorem foldl_ofBe (acc : Nat) (bs : Bytes) :
    bs.foldl (fun n b => 256 * n + b.toNat) acc = 256 ^ bs.length * acc + ofBe bs := by
  induction bs generalizing acc with
  | nil          => simp [ofBe]
  | cons b bs hi =>
    simp only [ofBe, List.foldl_cons, List.length_cons]
    rw [hi, hi (256 * 0 + b.toNat)]
    ring

theorem ofBe_cons : ofBe (b :: bs) = 256 ^ bs.length * b.toNat + ofBe bs := by
  simpa [ofBe] using foldl_ofBe (256 * 0 + b.toNat) bs

theorem ofBe_lt (bs : Bytes) : ofBe bs < 256 ^ bs.length := by
  induction bs with
  | nil          => simp [ofBe]
  | cons b bs hi =>
    calc
      ofBe (b :: bs) = 256 ^ bs.length * b.toNat + ofBe bs := ofBe_cons
      _ < 256 ^ bs.length * b.toNat + 256 ^ bs.length      := Nat.add_lt_add_left hi _
      _ = 256 ^ bs.length * (b.toNat + 1)                  := rfl
      _ ≤ 256 ^ bs.length * 256                            := Nat.mul_le_mul_left _ b.toNat_lt
      _ = 256 ^ (b :: bs).length                           := rfl

@[simp]
theorem ofBe_be : ofBe (be w n) = n % 256 ^ w := by
  induction w with
  | zero      => simp [be, ofBe, Nat.mod_one]
  | succ w hi =>
    rw [be, ofBe_cons, hi, length_be, UInt8.toNat_ofNat']
    exact (Nat.add_comm ..).trans Nat.mod_mul.symm

theorem ofBe_be_of_lt (h : n < 256 ^ w) : ofBe (be w n) = n := by
  rw [ofBe_be, Nat.mod_eq_of_lt h]

theorem be_eq_iff : be w m = be w n ↔ m % 256 ^ w = n % 256 ^ w where
  mp h  := by simpa using congrArg ofBe h
  mpr h := by rw [←be_mod, h, be_mod]

theorem be_inj_of_lt (hm : m < 256 ^ w) (hn : n < 256 ^ w) (h : be w m = be w n) : m = n := by
  simpa [be_eq_iff, Nat.mod_eq_of_lt, hm, hn] using h

theorem be_ofBe (h : bs.length = w) : be w (ofBe bs) = bs := by
  subst h
  induction bs with
  | nil          => rfl
  | cons b bs hi =>
    rw [List.length_cons, be, ofBe_cons]
    congr 1
    · rw [Nat.mul_add_div (Nat.pos_of_ne_zero (by simp)), Nat.div_eq_of_lt (ofBe_lt bs)]
      simp
    · rw [←hi, ←be_mod, Nat.mul_add_mod]
      simp [hi, be_mod]

theorem ofString_inj (h : ofString s = ofString t) : s = t :=
  String.toByteArray_inj.mp <| ByteArray.ext <| Array.toList_inj.mp h

theorem ofString_append (s t : String) : ofString (s ++ t) = ofString s ++ ofString t := by
  simp [ofString]

theorem ofString_replicate (n : Nat) :
    ofString (.ofList (.replicate n 'a')) = .replicate n 0x61 := by
  induction n with
  | zero      => rfl
  | succ n hi =>
    rw [List.replicate_succ', List.replicate_succ', String.ofList_append, ofString_append, hi]
    rfl

theorem ofString_of_fromUtf8 (h : fromUtf8 bs = some s) : ofString s = bs := by
  unfold fromUtf8 String.fromUTF8? at h
  split at h
  case isTrue  => cases h; simp [ofString, String.fromUTF8]
  case isFalse => cases h

@[simp]
theorem fromUtf8_ofString (s : String) : fromUtf8 (ofString s) = some s := by
  have h : (ofString s).toByteArray = s.toByteArray := by
    ext1
    simp [ofString]
  simp [fromUtf8, h, String.fromUTF8?, s.isValidUTF8, String.fromUTF8]

@[simp]
theorem length_slice : (slice bs a b).length = min (b - a) (bs.length - a) := by
  simp [slice]

end Bytes

namespace Arr

instance : XorOp (Arr n) where
  xor a b := .zipWith (· ^^^ ·) a b

-- The array `[b; n]`.
def fill (n : Nat) (b : Byte) : Arr n :=
  .replicate n b

-- `dst[..src.len()].copy_from_slice(src)`
def copyFromSlice (dst : Arr n) (src : Bytes) : Arr n :=
  .ofFn fun i => src.getD i dst[i]

-- `dst[start..start + src.len()].copy_from_slice(src)`
def copyAt (dst : Arr n) (start : Nat) (src : Bytes) : Arr n :=
  .ofFn fun i =>
    if start ≤ i.val ∧ i.val < start + src.length then src.getD (i - start) 0 else dst[i]

-- The bytes of `bs` as an array, zero filled at the end and cut to size.
def ofBytes (n : Nat) (bs : Bytes) : Arr n :=
  .ofFn fun i => bs.getD i 0

-- The byte in a buffer for one.
def byte (a : Arr 1) : Byte :=
  a[0]

theorem toList_eq (a : Arr 1) : a.toList = [a.byte] := by
  apply List.ext_getElem
  · simp
  · rintro (_ | _) _ hi
    · rfl
    · simp at hi

@[simp]
theorem getElem_xor {a b : Arr n} (h : i < n) : (a ^^^ b)[i] = a[i] ^^^ b[i] :=
  Vector.getElem_zipWith h

@[simp]
theorem getElem_fill (h : i < n) : (fill n b)[i] = b :=
  Vector.getElem_replicate h

@[simp]
theorem getElem_copyFromSlice {dst : Arr n} (h : i < n) :
    (copyFromSlice dst src)[i] = src.getD i dst[i] := by
  simp [copyFromSlice]

@[simp]
theorem getElem_copyAt {dst : Arr n} (h : i < n) :
    (copyAt dst start src)[i] =
    if start ≤ i ∧ i < start + src.length then src.getD (i - start) 0 else dst[i] := by
  simp [copyAt]

@[simp]
theorem getElem_ofBytes (h : i < n) : (ofBytes n bs)[i] = bs.getD i 0 := by
  simp [ofBytes]

@[simp]
theorem ofBytes_toList (a : Arr n) : ofBytes n a.toList = a := by
  ext i h
  simp [h, List.getD_eq_getElem?_getD]

theorem toList_ofBytes (h : bs.length = n) : (ofBytes n bs).toList = bs := by
  apply List.ext_getElem
  · simp [h]
  · intro i h₁ h₂
    simp [h₂, List.getD_eq_getElem?_getD]

theorem ofBytes_take (bs : Bytes) : ofBytes n (bs.take n) = ofBytes n bs := by
  ext i h
  simp [h, List.getD_eq_getElem?_getD]

theorem ofBytes_inj (hl : bs.length = bs'.length) (hn : bs.length ≤ n)
    (h : ofBytes n bs = ofBytes n bs') : bs = bs' := by
  refine List.ext_getElem hl fun i h₁ h₂ => ?_
  have hi : i < n := Nat.lt_of_lt_of_le h₁ hn
  have he : (ofBytes n bs)[i] = (ofBytes n bs')[i] := by rw [h]
  simpa [h₁, h₂, List.getD_eq_getElem?_getD] using he

theorem xor_comm (a b : Arr n) : a ^^^ b = b ^^^ a := by
  ext i h
  simp [UInt8.xor_comm]

theorem xor_assoc (a b c : Arr n) : a ^^^ b ^^^ c = a ^^^ (b ^^^ c) := by
  ext i h
  simp [UInt8.xor_assoc]

@[simp]
theorem xor_self (a : Arr n) : a ^^^ a = 0 := by
  ext i h
  simp

@[simp]
theorem xor_zero (a : Arr n) : a ^^^ 0 = a := by
  ext i h
  simp

@[simp]
theorem zero_xor (a : Arr n) : 0 ^^^ a = a := by
  ext i h
  simp

@[simp]
theorem xor_xor_cancel_left (a b : Arr n) : a ^^^ (a ^^^ b) = b := by
  rw [←xor_assoc, xor_self, zero_xor]

@[simp]
theorem xor_xor_cancel_right (a b : Arr n) : a ^^^ b ^^^ b = a := by
  rw [xor_assoc, xor_self, xor_zero]

theorem xor_left_comm (a b c : Arr n) : a ^^^ (b ^^^ c) = b ^^^ (a ^^^ c) := by
  rw [←xor_assoc, xor_comm a, xor_assoc]

theorem xor_right_comm (a b c : Arr n) : a ^^^ b ^^^ c = a ^^^ c ^^^ b := by
  rw [xor_assoc, xor_comm b, ←xor_assoc]

theorem xor_eq_zero_iff {a b : Arr n} : a ^^^ b = 0 ↔ a = b where
  mp h  := by rw [←xor_xor_cancel_right a b, h, zero_xor]
  mpr h := h ▸ xor_self a

-- An array that is filled piece by piece holds its pieces.
theorem slice_copyAt {dst : Arr n} {src : Arr k} (h : start + k ≤ n) :
    ofBytes k (Bytes.slice (dst.copyAt start src.toList).toList start (start + k)) = src := by
  ext i hi
  have hn : start + i < n := by omega
  simp [Bytes.slice, List.getD_eq_getElem?_getD, hi, hn]

theorem slice_copyAt_of_disjoint {dst : Arr n} (h : b ≤ start ∨ start + src.length ≤ a) :
    Bytes.slice (dst.copyAt start src).toList a b = Bytes.slice dst.toList a b := by
  apply List.ext_getElem?
  intro i
  simp only [Bytes.slice, List.getElem?_take, List.getElem?_drop]
  split
  case isFalse => rfl
  case isTrue hi =>
    by_cases hn : a + i < n
    · have hd : ¬(start ≤ a + i ∧ a + i < start + src.length) := by omega
      simp [hn, hd]
    · simp [hn]

theorem toList_inj {a b : Arr n} (h : a.toList = b.toList) : a = b :=
  Vector.toList_inj.mp h

theorem copyAt_inj {dst : Arr n} (hl : src.length = src'.length) (hn : start + src.length ≤ n)
    (h : dst.copyAt start src = dst.copyAt start src') : src = src' := by
  refine List.ext_getElem hl fun i h₁ h₂ => ?_
  have hi : start + i < n := by omega
  have he : (dst.copyAt start src)[start + i] = (dst.copyAt start src')[start + i] := by rw [h]
  simpa [h₁, h₂, List.getD_eq_getElem?_getD] using he

-- An IV that is XORed with a sequence number determines the latter.
theorem xor_copyAt_inj {iv : Arr 12} {a b : UInt64}
    (h : iv ^^^ copyAt 0 4 (Bytes.be 8 a.toNat) = iv ^^^ copyAt 0 4 (Bytes.be 8 b.toNat)) :
    a = b := by
  have h := congrArg (iv ^^^ ·) h
  simp only [xor_xor_cancel_left] at h
  have h := copyAt_inj (by simp) (by simp) h
  exact UInt64.toNat_inj.mp (Bytes.be_inj_of_lt a.toNat_lt b.toNat_lt h)

end Arr
