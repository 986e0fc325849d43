import NotaryModel.Crypto.Fips180
import NotaryModel.Primitives.Bytes

-- The compression function on bytes, which are the big-endian bytes of its words.
namespace Fips180

def word (a b c d : Byte) : Word :=
  a.toBitVec ++ b.toBitVec ++ c.toBitVec ++ d.toBitVec

def words : Bytes → List Word
  | a :: b :: c :: d :: bs => word a b c d :: words bs
  | _                      => []

def wordVector (n : Nat) (bs : Bytes) : Vector Word n :=
  .ofFn fun i => (words bs).getD i 0

def wordBytes (w : Word) : Bytes :=
  [⟨w.extractLsb' 24 8⟩, ⟨w.extractLsb' 16 8⟩, ⟨w.extractLsb' 8 8⟩, ⟨w.extractLsb' 0 8⟩]

def compressBytes (iv : Arr 32) (block : Arr 64) : Arr 32 :=
  .ofBytes 32 ((compress (wordVector 8 iv.toList) (wordVector 16 block.toList)).flatMap wordBytes)

theorem eq_nil_of_short {bs : Bytes} (h : bs.length = 4 * n)
    (hb : ∀ a b c d bs', bs = a :: b :: c :: d :: bs' → False) : bs = [] := by
  match bs with
  | []                     => rfl
  | [_]                    => simp at h; omega
  | [_, _]                 => simp at h; omega
  | [_, _, _]              => simp at h; omega
  | a :: b :: c :: d :: bs => exact (hb a b c d bs rfl).elim

theorem length_words (h : bs.length = 4 * n) : (words bs).length = n := by
  fun_induction words bs generalizing n
  case case1 hi =>
    simp only [List.length_cons] at h ⊢
    rw [hi (n := n - 1) (by omega)]
    omega
  case case2 bs hb =>
    rw [eq_nil_of_short h hb, List.length_nil] at h
    rw [List.length_nil]
    omega

theorem toList_wordVector (h : bs.length = 4 * n) : (wordVector n bs).toList = words bs := by
  have hl := length_words h
  refine List.ext_getElem (by simp [hl]) fun i _ hi => ?_
  simp only [Vector.getElem_toList, wordVector, Vector.getElem_ofFn, List.getD_eq_getElem?_getD,
    List.getElem?_eq_getElem hi]
  rfl

end Fips180
