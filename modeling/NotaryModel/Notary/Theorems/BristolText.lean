import NotaryModel.Notary.GenSha256Compress

open Circuit

-- The text of a circuit is read back line by line and word by word.
namespace Notary.GenSha256Compress

abbrev Line := List String

def gateWords (g : Gate) : Line :=
  match g.kind with
  | .inv => ["1", "1", toString g.in1, toString g.out, "INV"]
  | .xor => ["2", "1", toString g.in1, toString g.in2, toString g.out, "XOR"]
  | .and => ["2", "1", toString g.in1, toString g.in2, toString g.out, "AND"]

-- Three blanks stand between the inputs and the output. An empty line is before the gates, and what
-- is behind the last newline is empty as well.
def Bristol.lines (c : Bristol) : List Line :=
  [toString c.nGates, toString c.nWires] ::
    [toString c.n1, toString c.n2, "", "", toString c.n3] :: [""] :: c.gates.map gateWords ++ [[""]]

def render (ls : List Line) : List Char :=
  ['\n'].intercalate (ls.map fun l => [' '].intercalate (l.map String.toList))

def readLines (text : String) : List Line :=
  (text.toList.splitOn '\n').map fun l => (l.splitOn ' ').map String.ofList

def Gate.read : Line → Option Gate
  | ["1", "1", in1, out, "INV"]      => return ⟨.inv, ← in1.toNat?, 0, ← out.toNat?⟩
  | ["2", "1", in1, in2, out, "XOR"] => return ⟨.xor, ← in1.toNat?, ← in2.toNat?, ← out.toNat?⟩
  | ["2", "1", in1, in2, out, "AND"] => return ⟨.and, ← in1.toNat?, ← in2.toNat?, ← out.toNat?⟩
  | _                                => none

def Bristol.read (text : String) : Option Bristol :=
  match readLines text with
  | [nGates, nWires] :: [n1, n2, "", "", n3] :: [""] :: body =>
    if body.getLast? = some [""] then
      return ⟨← nGates.toNat?, ← nWires.toNat?, ← n1.toNat?, ← n2.toNat?, ← n3.toNat?,
        ← body.dropLast.mapM Gate.read⟩
    else
      none
  | _ => none

-- What may stand on a line as one word.
def IsWord (w : String) : Prop :=
  ' ' ∉ w.toList ∧ '\n' ∉ w.toList

instance : DecidablePred IsWord :=
  fun _ => inferInstanceAs (Decidable (_ ∧ _))

theorem isWord_toString (n : Nat) : IsWord (toString n) := by
  have hd {c : Char} (h : c ∈ (toString n).toList) : c.isDigit := by
    rw [Nat.toString_eq_ofList_toDigits, String.toList_ofList] at h
    exact Nat.isDigit_of_mem_toDigits (by decide) (by decide) h
  exact ⟨fun h => absurd (hd h) (by decide), fun h => absurd (hd h) (by decide)⟩

theorem isWord_gateWords (g : Gate) : ∀ w ∈ gateWords g, IsWord w := by
  have hn := isWord_toString
  have hl : IsWord "1" ∧ IsWord "2" ∧ IsWord "INV" ∧ IsWord "XOR" ∧ IsWord "AND" := by decide
  obtain ⟨kind, in1, in2, out⟩ := g
  cases kind <;>
    simp only [gateWords, List.forall_mem_cons, hn, hl, List.not_mem_nil, IsEmpty.forall_iff,
      implies_true, and_self]

theorem Bristol.isWord_lines (c : Bristol) : ∀ l ∈ c.lines, ∀ w ∈ l, IsWord w := by
  have hn := isWord_toString
  have he : IsWord "" := by decide
  have hg : ∀ l ∈ c.gates.map gateWords, ∀ w ∈ l, IsWord w :=
    List.forall_mem_map.mpr fun g _ => isWord_gateWords g
  simp only [lines, List.cons_append, List.forall_mem_cons, List.forall_mem_append, hn, he,
    List.not_mem_nil, IsEmpty.forall_iff, implies_true, and_true, true_and]
  exact hg

theorem Bristol.nil_not_mem_lines (c : Bristol) : [] ∉ c.lines := by
  have hg : [] ∉ c.gates.map gateWords := by
    rw [List.mem_map]
    rintro ⟨⟨kind, in1, in2, out⟩, -, h⟩
    cases kind <;> exact nomatch h
  simp [lines, hg]

theorem not_mem_intercalate {c : Char} {ls : List (List Char)} (hs : c ≠ ' ')
    (h : ∀ l ∈ ls, c ∉ l) : c ∉ [' '].intercalate ls := by
  induction ls
  case nil => exact List.not_mem_nil
  case cons l ls hi =>
    rw [List.forall_mem_cons] at h
    cases ls
    case nil  => simpa using h.left
    case cons =>
      rw [List.intercalate_cons_cons, List.mem_append, List.mem_append, List.mem_singleton, not_or,
        not_or]
      exact ⟨⟨h.left, hs⟩, hi h.right⟩

-- The words on the lines of a text are read back.
theorem readLines_of_render {ls : List Line} (hl : ls ≠ []) (hn : [] ∉ ls)
    (hw : ∀ l ∈ ls, ∀ w ∈ l, IsWord w) (h : text.toList = render ls) : readLines text = ls := by
  have hc : ∀ cs ∈ ls.map fun l => [' '].intercalate (l.map String.toList), '\n' ∉ cs := by
    rw [List.forall_mem_map]
    refine fun l hm => not_mem_intercalate (by decide) (List.forall_mem_map.mpr fun w hm' => ?_)
    exact (hw l hm w hm').right
  rw [readLines, h, render, List.splitOn_intercalate _ hc (by simpa using hl), List.map_map]
  refine (List.map_congr_left fun l hm => ?_).trans (List.map_id ls)
  have hs : ∀ w ∈ l.map String.toList, ' ' ∉ w :=
    List.forall_mem_map.mpr fun w hm' => (hw l hm w hm').left
  have he : l ≠ [] := fun he => hn (he ▸ hm)
  rw [Function.comp_apply, List.splitOn_intercalate _ hs (by simpa using he), List.map_map]
  exact (List.map_congr_left fun _ _ => String.ofList_toList).trans (List.map_id l)

theorem gateLine_toList (g : Gate) :
    (gateLine g).toList = [' '].intercalate ((gateWords g).map String.toList) ++ ['\n'] := by
  obtain ⟨kind, in1, in2, out⟩ := g
  cases kind <;> simp [gateLine, gateWords, List.intercalate]

theorem render_concat (ls : List Line) : render (ls ++ [[""]]) =
    ls.flatMap fun l => [' '].intercalate (l.map String.toList) ++ ['\n'] := by
  induction ls
  case nil => rfl
  case cons l ls hi =>
    rw [List.flatMap_cons, ←hi, render, render, List.cons_append, List.map_cons,
      List.intercalate_cons_of_ne_nil (by simp), List.append_assoc]

theorem Bristol.toList_text (c : Bristol) : c.text.toList = render c.lines := by
  rw [lines, render_concat]
  simp [text, gateLine_toList, List.flatMap_map, List.intercalate]

theorem Gate.read_words {g : Gate} (h : g.kind = .inv → g.in2 = 0) :
    Gate.read (gateWords g) = some g := by
  obtain ⟨kind, in1, in2, out⟩ := g
  cases kind
  case inv =>
    obtain rfl : in2 = 0 := h rfl
    simp [gateWords, Gate.read]
  case xor => simp [gateWords, Gate.read]
  case and => simp [gateWords, Gate.read]

theorem Gate.mapM_read_words {gates : List Gate} (h : ∀ g ∈ gates, g.kind = .inv → g.in2 = 0) :
    (gates.map gateWords).mapM Gate.read = some gates := by
  induction gates
  case nil => rfl
  case cons g gates hi =>
    rw [List.forall_mem_cons] at h
    rw [List.map_cons, List.mapM_cons, Gate.read_words h.left, hi h.right]
    rfl

theorem Bristol.read_text {c : Bristol} (h : ∀ g ∈ c.gates, g.kind = .inv → g.in2 = 0) :
    Bristol.read c.text = some c := by
  have hl : readLines c.text = c.lines :=
    readLines_of_render nofun c.nil_not_mem_lines c.isWord_lines c.toList_text
  rw [read, hl, lines]
  simp [Gate.mapM_read_words h]

end Notary.GenSha256Compress
