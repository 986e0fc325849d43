import NotaryModel.Primitives.Exec

-- Strings as their bytes in UTF-8, with what the programs use of `str`.
namespace Text

open Exec (assert)

def fromUtf8 (bytes : Bytes) : Option Bytes :=
  if (ByteArray.mk bytes.toArray).validateUTF8 then some bytes else none

-- What stands before and after the first `pat`, which is not empty.
def splitOnce (pat : Bytes) : Bytes → Option (Bytes × Bytes)
  | []     => none
  | b :: s =>
    if pat.isPrefixOf (b :: s) then
      some ([], s.drop (pat.length - 1))
    else
      (splitOnce pat s).map fun (x, y) => (b :: x, y)

theorem length_lt_of_splitOnce (h : splitOnce pat s = some (x, y)) : y.length < s.length := by
  induction s generalizing x
  case nil => cases h
  case cons b s hi =>
    rw [splitOnce] at h
    split_ifs at h
    case pos =>
      cases h
      simp only [List.length_drop, List.length_cons]
      omega
    case neg =>
      have ⟨⟨x', y'⟩, hs, he⟩ := Option.map_eq_some_iff.mp h
      cases he
      exact Nat.lt_succ_of_lt (hi hs)

theorem eq_of_splitOnce (hp : pat ≠ []) (h : splitOnce pat s = some (x, y)) : s = x ++ pat ++ y := by
  induction s generalizing x
  case nil => cases h
  case cons b s hi =>
    rw [splitOnce] at h
    split_ifs at h with hb
    case pos =>
      obtain ⟨rfl, rfl⟩ := Prod.mk.inj (Option.some.inj h)
      have ⟨t, ht⟩ := List.isPrefixOf_iff_prefix.mp hb
      obtain ⟨p, ps, rfl⟩ := List.exists_cons_of_ne_nil hp
      rw [List.cons_append] at ht
      obtain ⟨rfl, rfl⟩ := List.cons.inj ht
      simp
    case neg =>
      have ⟨⟨x', y'⟩, hs, he⟩ := Option.map_eq_some_iff.mp h
      obtain ⟨rfl, rfl⟩ := Prod.mk.inj he
      rw [hi hs]
      rfl

theorem splitOnce_eq_none (h : ¬pat <:+: s) : splitOnce pat s = none := by
  induction s
  case nil => rfl
  case cons b s hi =>
    rw [splitOnce, if_neg, hi fun hs => h (hs.trans (List.suffix_cons b s).isInfix), Option.map_none]
    exact fun hb => h (List.isPrefixOf_iff_prefix.mp hb).isInfix

theorem splitOnce_append (hp : pat ≠ []) (h : ¬pat <:+: x ++ pat.dropLast) :
    splitOnce pat (x ++ pat ++ y) = some (x, y) := by
  induction x
  case nil =>
    obtain ⟨p, ps, rfl⟩ := List.exists_cons_of_ne_nil hp
    rw [List.nil_append, List.cons_append, splitOnce, if_pos (by simp [List.isPrefixOf_iff_prefix])]
    simp
  case cons b x hi =>
    have hx : ¬pat <:+: x ++ pat.dropLast := fun hx => h (hx.trans (List.suffix_cons b _).isInfix)
    rw [List.cons_append, List.cons_append, splitOnce, if_neg, hi hx, Option.map_some]
    -- A match at the start would end before the match that is there.
    intro hb
    have hb := List.isPrefixOf_iff_prefix.mp hb
    refine h (List.IsPrefix.isInfix (List.prefix_of_prefix_length_le hb ?_ ?_))
    · have hd : pat = pat.dropLast ++ [pat.getLast hp] := (List.dropLast_append_getLast hp).symm
      refine ⟨[pat.getLast hp] ++ y, ?_⟩
      conv_rhs => rw [hd]
      simp
    · simp
      omega

def split (pat s : Bytes) : List Bytes :=
  match _h : splitOnce pat s with
  | none        => [s]
  | some (x, y) => x :: split pat y
termination_by s.length
decreasing_by exact length_lt_of_splitOnce _h

def upTo (pat s : Bytes) : Bytes :=
  ((splitOnce pat s).map Prod.fst).getD s

theorem headD_split (pat s : Bytes) : (split pat s).headD [] = upTo pat s := by
  rw [split, upTo]
  split
  case h_1 h => rw [h]; rfl
  case h_2 h => rw [h]; rfl

theorem getElem?_one_split (pat s : Bytes) :
    (split pat s)[1]? = (splitOnce pat s).map fun (_, y) => upTo pat y := by
  rw [split]
  split
  case h_1 h => rw [h]; rfl
  case h_2 x y h =>
    have hy : (split pat y)[0]? = some (upTo pat y) := by
      rw [←headD_split, split]
      split <;> rfl
    rw [h, List.getElem?_cons_succ, hy]
    rfl

theorem upTo_isPrefix (hp : pat ≠ []) : upTo pat s <+: s := by
  rw [upTo]
  cases h : splitOnce pat s
  case none => exact List.prefix_refl s
  case some xy =>
    rw [eq_of_splitOnce hp h, List.append_assoc]
    exact List.prefix_append _ _

-- The characters of the Unicode property `White_Space`.
def whiteSpace : List Bytes :=
  [[0x09], [0x0a], [0x0b], [0x0c], [0x0d], [0x20], [0xc2, 0x85], [0xc2, 0xa0], [0xe1, 0x9a, 0x80],
   [0xe2, 0x80, 0x80], [0xe2, 0x80, 0x81], [0xe2, 0x80, 0x82], [0xe2, 0x80, 0x83],
   [0xe2, 0x80, 0x84], [0xe2, 0x80, 0x85], [0xe2, 0x80, 0x86], [0xe2, 0x80, 0x87],
   [0xe2, 0x80, 0x88], [0xe2, 0x80, 0x89], [0xe2, 0x80, 0x8a], [0xe2, 0x80, 0xa8],
   [0xe2, 0x80, 0xa9], [0xe2, 0x80, 0xaf], [0xe2, 0x81, 0x9f], [0xe3, 0x80, 0x80]]

-- The string without the characters of `cs` that it starts with, in at most `fuel` steps.
def trimWith (cs : List Bytes) : Nat → Bytes → Bytes
  | 0, s        => s
  | fuel + 1, s =>
    match cs.find? fun c => c.isPrefixOf s with
    | none   => s
    | some c => trimWith cs fuel (s.drop c.length)

def trimStart (s : Bytes) : Bytes :=
  trimWith whiteSpace s.length s

def trimEnd (s : Bytes) : Bytes :=
  (trimWith (whiteSpace.map List.reverse) s.length s.reverse).reverse

def trim (s : Bytes) : Bytes :=
  trimEnd (trimStart s)

def hexDigit (b : Byte) : Option Nat :=
  if 0x30 ≤ b ∧ b ≤ 0x39 then some (b.toNat - 0x30)
  else if 0x61 ≤ b ∧ b ≤ 0x66 then some (b.toNat - 0x57)
  else if 0x41 ≤ b ∧ b ≤ 0x46 then some (b.toNat - 0x37)
  else none

-- `usize::from_str_radix` with radix 16.
def fromStrRadix16 (s : Bytes) : Option Nat :=
  let digits := match s with
    | 0x2b :: s => s
    | s         => s
  if digits = [] then
    none
  else
    digits.foldlM (fun n b => do
      let d ← hexDigit b
      if n * 16 + d < 2 ^ 64 then some (n * 16 + d) else none) 0

def hexStep (n : Nat) (b : Byte) : Nat :=
  n * 16 + (hexDigit b).getD 0

def hexValue (digits : Bytes) : Nat :=
  digits.foldl hexStep 0

def IsHex (digits : Bytes) : Prop :=
  ∀ b ∈ digits, (hexDigit b).isSome

instance : DecidablePred IsHex :=
  fun digits => inferInstanceAs <| Decidable (∀ b ∈ digits, (hexDigit b).isSome)

theorem le_foldl_hexStep (digits : Bytes) (n : Nat) : n ≤ digits.foldl hexStep n := by
  induction digits generalizing n
  case nil          => exact le_rfl
  case cons b bs hi =>
    have hs : n ≤ hexStep n b := by
      unfold hexStep
      omega
    exact hs.trans (hi _)

-- The value only grows, so that it fits after every digit.
theorem foldlM_hexDigit (hd : IsHex digits) (hl : digits.foldl hexStep n < 2 ^ 64) :
    (digits.foldlM (fun n b => do
      let d ← hexDigit b
      if n * 16 + d < 2 ^ 64 then some (n * 16 + d) else none) n : Option Nat) =
    some (digits.foldl hexStep n) := by
  induction digits generalizing n
  case nil          => rfl
  case cons b bs hi =>
    have ⟨d, hb⟩ := Option.isSome_iff_exists.mp (hd b (List.mem_cons_self ..))
    have hs : hexStep n b = n * 16 + d := by rw [hexStep, hb, Option.getD_some]
    rw [List.foldl_cons, hs] at hl ⊢
    rw [List.foldlM_cons, hb]
    change Option.bind (if n * 16 + d < 2 ^ 64 then _ else _) _ = _
    rw [if_pos ((le_foldl_hexStep bs _).trans_lt hl)]
    exact hi (fun b h => hd b (List.mem_cons_of_mem _ h)) hl

theorem fromStrRadix16_eq (hd : IsHex digits) (hn : digits ≠ []) (hl : hexValue digits < 2 ^ 64) :
    fromStrRadix16 digits = some (hexValue digits) := by
  obtain ⟨b, bs, rfl⟩ := List.exists_cons_of_ne_nil hn
  have hb : b ≠ 0x2b := by
    rintro rfl
    exact absurd (hd _ (List.mem_cons_self ..)) (by decide)
  rw [fromStrRadix16, if_neg hn]
  · exact foldlM_hexDigit hd hl
  · exact fun _ h => hb (List.cons.inj h).1

theorem trimWith_eq (hc : ∀ c ∈ cs, ∀ b, c.head? = some b → (hexDigit b).isNone)
    (hn : [] ∉ cs) (hd : IsHex s) : trimWith cs n s = s := by
  cases n
  case zero => rfl
  case succ n =>
    rw [trimWith]
    have hf : (cs.find? fun c => c.isPrefixOf s) = none := by
      refine List.find?_eq_none.mpr fun c hm hp => ?_
      have hp := List.isPrefixOf_iff_prefix.mp hp
      obtain ⟨b, bs, rfl⟩ := List.exists_cons_of_ne_nil (ne_of_mem_of_not_mem hm hn)
      have hb := hd b (hp.subset (List.mem_cons_self ..))
      have hb' := hc _ hm b rfl
      rw [Option.isNone_iff_eq_none.mp hb'] at hb
      cases hb
    rw [hf]

theorem trim_eq (hd : IsHex s) : trim s = s := by
  have hr : IsHex s.reverse := fun b h => hd b (List.mem_reverse.mp h)
  rw [trim, trimStart, trimWith_eq (by decide +kernel) (by decide) hd, trimEnd,
    trimWith_eq (by decide +kernel) (by decide) hr, List.reverse_reverse]

def isCharBoundary (s : Bytes) (i : Nat) : Bool :=
  match s[i]? with
  | none   => i == s.length
  | some b => i == 0 || b < 0x80 || 0xc0 ≤ b

-- `&s[..i]`
def sliceTo (s : Bytes) (i : Nat) : Exec Bytes := do
  assert (isCharBoundary s i = true) "byte index is not a char boundary"
  pure (s.take i)

end Text
