import NotaryModel.TwoParty.Exchange

open Relation

variable {I J : Interface} {α β : Type}

-- Programs over another interface that carry out what the interface `I` takes for granted: its
-- joint sessions, of which `left` and `right` get the number.
structure Carrier (I J : Interface) where
  label : I.Label → J.Label
  err   : I.Err → J.Err
  left  : Nat → (q : I.Query) → Prog J (I.Answer q)
  right : Nat → (q : I.Query) → Prog J (I.Answer q)

-- Replaces the joint sessions of a program by what carries them out.
def Prog.implement (label : I.Label → J.Label) (err : I.Err → J.Err)
    (run : Nat → (q : I.Query) → Prog J (I.Answer q)) : Nat → Prog I α → Prog J α
  | _, pure a       => pure a
  | _, fail e       => fail (err e)
  | i, write l bs p => write (label l) bs (p.implement label err run i)
  | i, read l n k   => read (label l) n fun v => (k v).implement label err run i
  | i, session q k  => run i q >>= fun y => (k y).implement label err run (i + 1)

namespace Carrier

def implementLeft (c : Carrier I J) : Nat → Prog I α → Prog J α :=
  Prog.implement c.label c.err c.left

def implementRight (c : Carrier I J) : Nat → Prog I α → Prog J α :=
  Prog.implement c.label c.err c.right

def cells (c : Carrier I J) (t : List (Cell I)) : List (Cell J) :=
  t.map fun x => (c.label x.1, x.2)

-- A net whose sessions are carried out, between two of them.
def image (c : Carrier I J) (s : Net I α β) (j : Nat) : Exchange.Net J α β where
  left     := c.implementLeft s.sessions s.left
  right    := c.implementRight s.sessions s.right
  toRight  := c.cells s.toRight
  toLeft   := c.cells s.toLeft
  pending  := []
  sessions := j
  aligned  := True

-- The programs do what the functionality promises of each session, under the answers `m` of the
-- left party.
def Realizes (c : Carrier I J) (F : Functionality I) (m : Masks I) (G : Functionality J) : Prop :=
  ∀ i q q' y, F.respond q q' (m i q) = some y →
    Exchange.Scheduled G (c.left i q) (c.right i q') fun a b => a = m i q ∧ b = y

variable {c : Carrier I J}

theorem cells_append (t u : List (Cell I)) : c.cells (t ++ u) = c.cells t ++ c.cells u :=
  List.map_append

theorem cells_map (l : I.Label) (bs : Bytes) :
    c.cells (bs.map (l, ·)) = bs.map (c.label l, ·) := by
  rw [cells, List.map_map]
  rfl

end Carrier

theorem Prog.Halted.implement {p : Prog I α} (h : p.Halted) (label : I.Label → J.Label)
    (err : I.Err → J.Err) (run : Nat → (q : I.Query) → Prog J (I.Answer q)) (i : Nat) :
    (p.implement label err run i).Halted := by
  cases h
  case pure => exact .pure
  case fail => exact .fail

-- A move that gets the bytes of its step is one of the program whose sessions are carried out.
theorem Move.implement {c : Carrier I J} {run : Nat → (q : I.Query) → Prog J (I.Answer q)}
    {p p' : Prog I α} {a : Prop} (h : Move halted p t p' t' w a) (ha : a) (i : Nat) :
    Move False (p.implement c.label c.err run i) (c.cells t) (p'.implement c.label c.err run i)
      (c.cells t') (c.cells w) True := by
  cases h
  case write =>
    rw [Carrier.cells_map]
    exact .write
  case read cells h =>
    refine .read_aligned (cells.map (·.2)) ?_
    rw [h, Carrier.cells_append, Vector.toList_map, List.map_map]
    refine congrArg (· ++ _) (List.map_congr_left fun x hx => ?_)
    rw [ha x hx]
    rfl
  case eof => exact ha.elim

namespace Exchange.Step

variable {F : Functionality I} {m : Masks I}

theorem left_aligned (h : Move False p t p' t' w True) :
    Step F m ⟨p, q, r, t, s, i, a⟩ ⟨p', q, r ++ w, t', s, i, a⟩ := by
  have h : Step F m ⟨p, q, r, t, s, i, a⟩ _ := .left h
  rwa [and_true] at h

theorem right_aligned (h : Move False q r q' r' w True) :
    Step F m ⟨p, q, r, t, s, i, a⟩ ⟨p, q', r', t ++ w, s, i, a⟩ := by
  have h : Step F m ⟨p, q, r, t, s, i, a⟩ _ := .right h
  rwa [and_true] at h

end Exchange.Step

section

variable {F : Functionality I} {m : Masks I} {G : Functionality J} {c : Carrier I J}
  {s s' : Net I α β}

theorem Step.implement (hc : c.Realizes F m G) (h : Step F m s s') (ha : s'.aligned) (r : Masks J)
    (j : Nat) : ∃ k, Exchange.Steps G r (c.image s j) (c.image s' k) := by
  cases h
  case left h =>
    refine ⟨j, .single ?_⟩
    simp only [Carrier.image, Carrier.cells_append]
    exact .left_aligned (h.implement ha.right _)
  case right h =>
    refine ⟨j, .single ?_⟩
    simp only [Carrier.image, Carrier.cells_append]
    exact .right_aligned (h.implement ha.right _)
  case session h =>
    obtain ⟨_, _, k, ⟨rfl, rfl⟩, hs⟩ := (hc _ _ _ _ h).steps r _ _ j True
    exact ⟨k, hs⟩

theorem Steps.implement (hc : c.Realizes F m G) (h : Steps F m s s') (ha : s'.aligned) (r : Masks J)
    (j : Nat) : ∃ k, Exchange.Steps G r (c.image s j) (c.image s' k) := by
  induction h
  case refl      => exact ⟨j, .refl⟩
  case tail h hi =>
    obtain ⟨k, hs⟩ := hi (h.aligned ha)
    obtain ⟨l, hs'⟩ := h.implement hc ha r k
    exact ⟨l, hs.trans hs'⟩

-- If both parties can halt in step while their sessions are taken for granted, then they do so in
-- every interleaving when these are carried out.
theorem Steps.implement_of_halted {p : Prog I α} {q : Prog I β} (hc : c.Realizes F m G)
    (h : Steps F m (.init p q) s') (ha : s'.aligned) (hl : s'.left.Halted) (hr : s'.right.Halted)
    (r : Masks J) : ∃ k, ∀ s,
      Exchange.Steps G r (.init (c.implementLeft 0 p) (c.implementRight 0 q)) s →
      s.aligned ∧ Exchange.Steps G r s (c.image s' k) := by
  obtain ⟨k, hs⟩ := h.implement hc ha r 0
  refine ⟨k, fun s hs' => ?_⟩
  have hf := hs.of_halted (hl.implement ..) (hr.implement ..) hs'
  exact ⟨hf.aligned trivial, hf⟩

theorem Steps.implement_to_final {p : Prog I α} {q : Prog I β} (hc : c.Realizes F m G)
    (h : Steps F m (.init p q) (.final a b n)) (r : Masks J) : ∃ k, ∀ s,
      Exchange.Steps G r (.init (c.implementLeft 0 p) (c.implementRight 0 q)) s →
      s.aligned ∧ Exchange.Steps G r s (.final a b k) :=
  h.implement_of_halted hc trivial .pure .pure r

end
