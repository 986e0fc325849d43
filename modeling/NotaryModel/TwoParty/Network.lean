import NotaryModel.TwoParty.Matched

open Relation

-- A byte in flight, marked with the step of the protocol that it was written for.
abbrev Cell (I : Interface) :=
  I.Label × Byte

-- Two parties and the streams between them, one for each direction. `aligned` holds as long as each
-- read got exactly bytes that were written for its step.
structure Net (I : Interface) (α β : Type) where
  left     : Prog I α
  right    : Prog I β
  toRight  : List (Cell I)
  toLeft   : List (Cell I)
  sessions : Nat
  aligned  : Prop

variable {I : Interface}

-- One party's own move: `t` is its incoming stream before and `t'` after the move, `w` is what the
-- move appends to the outgoing stream, and `c` tells whether it got the bytes of its step. A party
-- runs into the end of its stream only if its peer has `halted`.
inductive Move {α : Type} (halted : Prop) :
    Prog I α → List (Cell I) → Prog I α → List (Cell I) → List (Cell I) → Prop → Prop
  | write : Move halted (.write l bs p) t p t (bs.map (l, ·)) True
  | read {k : Option (Arr n) → Prog I α} (cells : Vector (Cell I) n) :
    t = cells.toList ++ t' →
    Move halted (.read l n k) t (k <| some <| cells.map (·.2)) t' [] (∀ c ∈ cells.toList, c.1 = l)
  | eof {k : Option (Arr n) → Prog I α} :
    halted → t.length < n → Move halted (.read l n k) t (k none) [] [] False

namespace Move

variable {α : Type} {p : Prog I α}

theorem deterministic (h₁ : Move h p t p₁ t₁ w₁ c₁) (h₂ : Move h p t p₂ t₂ w₂ c₂) :
    p₁ = p₂ ∧ t₁ = t₂ ∧ w₁ = w₂ ∧ c₁ = c₂ := by
  cases h₁ <;> cases h₂
  case write.write => simp
  case read.read cells₁ ht₁ cells₂ ht₂ =>
    have ⟨hc, ht⟩ := List.append_inj (ht₁ ▸ ht₂) (by simp)
    simp [Vector.toList_inj.mp hc, ht]
  case read.eof cells ht _ h => simp [ht] at h
  case eof.read h cells ht   => simp [ht] at h
  case eof.eof => simp

theorem not_halted (h : Move halted p t p' t' w c) : ¬p.Halted := by
  rintro ⟨⟩ <;> cases h

-- More input does not change a move that is not caused by the end of the stream.
theorem append (h : Move halted p t p' t' w c) (hh : ¬halted) (u : List (Cell I)) :
    Move halted' p (t ++ u) p' (t' ++ u) w c := by
  cases h
  case write         => exact .write
  case read cells ht => exact .read cells (by simp [ht])
  case eof h _       => exact absurd h hh

theorem ensures (h : Move halted p t p' t' w c) (he : p.Ensures Φ) : p'.Ensures Φ := by
  intro _ _ a hr
  replace hr : Run True _ _ _ := hr.mono fun _ => trivial
  cases h
  case write      => exact he _ _ a (.write hr)
  case read cells => exact he _ _ a (.read _ hr)
  case eof        => exact he _ _ a (.closed trivial hr)

end Move

-- A joint session is entered by both parties at once, and only with empty streams: its bytes would
-- otherwise be mixed with those in flight.
inductive Step {α β : Type} (F : Functionality I) (m : Masks I) : Net I α β → Net I α β → Prop
  | left : Move q.Halted p t p' t' w c → Step F m ⟨p, q, r, t, i, a⟩ ⟨p', q, r ++ w, t', i, a ∧ c⟩
  | right : Move p.Halted q r q' r' w c → Step F m ⟨p, q, r, t, i, a⟩ ⟨p, q', r', t ++ w, i, a ∧ c⟩
  | session {k : I.Answer q → Prog I α} {k' : I.Answer q' → Prog I β} :
    F.respond q q' (m i q) = some y →
    Step F m ⟨.session q k, .session q' k', [], [], i, a⟩ ⟨k (m i q), k' y, [], [], i + 1, a⟩

abbrev Steps (F : Functionality I) (m : Masks I) : Net I α β → Net I α β → Prop :=
  ReflTransGen (Step F m)

namespace Net

variable {α β : Type}

def init (p : Prog I α) (q : Prog I β) : Net I α β :=
  ⟨p, q, [], [], 0, True⟩

-- The state in which both parties have returned and nothing is left in flight.
def final (a : α) (b : β) (n : Nat) : Net I α β :=
  ⟨.pure a, .pure b, [], [], n, True⟩

structure Done (s : Net I α β) : Prop where
  left    : s.left.Halted
  right   : s.right.Halted
  toRight : s.toRight = []
  toLeft  : s.toLeft = []

theorem not_done_of_session {k : I.Answer q → Prog I α} :
    ¬(⟨.session q k, p, r, t, i, c⟩ : Net I α β).Done := by
  rintro ⟨⟨⟩, -, -, -⟩

theorem final_done : (final a b n : Net I α β).Done :=
  ⟨.pure, .pure, rfl, rfl⟩

end Net

namespace Step

variable {α β : Type} {F : Functionality I} {m : Masks I} {s s₁ s₂ : Net I α β}

theorem aligned (h : Step F m s₁ s₂) (ha : s₂.aligned) : s₁.aligned := by
  cases h
  case left    => exact ha.1
  case right   => exact ha.1
  case session => exact ha

theorem not_halted (h : Step F m s₁ s₂) (hl : s₁.left.Halted) : ¬s₁.right.Halted := by
  intro hr
  cases h
  case left h  => exact h.not_halted hl
  case right h => exact h.not_halted hr
  case session => cases hl

theorem ensures (h : Step F m s₁ s₂) (hl : s₁.left.Ensures Φ) (hr : s₁.right.Ensures Ψ) :
    s₂.left.Ensures Φ ∧ s₂.right.Ensures Ψ := by
  cases h
  case left h    => exact ⟨h.ensures hl, hr⟩
  case right h   => exact ⟨hl, h.ensures hr⟩
  case session h => exact ⟨fun _ _ _ h => hl _ _ _ (.session _ h), fun _ _ _ h => hr _ _ _ (.session _ h)⟩

theorem not_of_session_read {k : I.Answer q' → Prog I α} {k' : Option (Arr n) → Prog I β}
    (hr : r.length < n) : ¬Step F m ⟨.session q' k, .read l n k', r, t, i, c⟩ s := by
  intro h
  cases h
  case left h => cases h
  case right h =>
    cases h
    case read ht => simp [ht] at hr
    case eof h _ => cases h

theorem not_of_read_session {k : Option (Arr n) → Prog I α} {k' : I.Answer q' → Prog I β}
    (ht : t.length < n) : ¬Step F m ⟨.read l n k, .session q' k', r, t, i, c⟩ s := by
  intro h
  cases h
  case left h =>
    cases h
    case read hr => simp [hr] at ht
    case eof h _ => cases h
  case right h => cases h

theorem not_of_session_session {k : I.Answer q' → Prog I α} {k' : I.Answer q'' → Prog I β}
    (ht : t ≠ []) : ¬Step F m ⟨.session q' k, .session q'' k', r, t, i, c⟩ s := by
  intro h
  cases h
  case left h  => cases h
  case right h => cases h
  case session => exact ht rfl

theorem diamond (h₁ : Step F m s s₁) (h₂ : Step F m s s₂) :
    s₁ = s₂ ∨ ∃ s', Step F m s₁ s' ∧ Step F m s₂ s' := by
  cases h₁ <;> cases h₂
  case left.left h₁ _ _ _ _ h₂ =>
    obtain ⟨rfl, rfl, rfl, rfl⟩ := h₁.deterministic h₂
    exact .inl rfl
  case right.right h₁ _ _ _ _ h₂ =>
    obtain ⟨rfl, rfl, rfl, rfl⟩ := h₁.deterministic h₂
    exact .inl rfl
  case left.right hl _ _ _ _ hr =>
    refine .inr ⟨_, .right (hr.append hl.not_halted _), ?_⟩
    rw [and_right_comm]
    exact .left (hl.append hr.not_halted _)
  case right.left hr _ _ _ _ hl =>
    refine .inr ⟨_, .left (hl.append hr.not_halted _), ?_⟩
    rw [and_right_comm]
    exact .right (hr.append hl.not_halted _)
  case session.session h₁ _ h₂ => simp_all
  all_goals cases ‹Move _ _ _ _ _ _ _›

end Step

namespace Steps

variable {α β : Type} {F : Functionality I} {m : Masks I} {s s₁ s₂ : Net I α β}

theorem aligned (h : Steps F m s₁ s₂) (ha : s₂.aligned) : s₁.aligned := by
  induction h
  case refl      => exact ha
  case tail h hi => exact hi (h.aligned ha)

theorem confluent (h₁ : Steps F m s s₁) (h₂ : Steps F m s s₂) : Join (Steps F m) s₁ s₂ := by
  refine church_rosser (fun s s₁ s₂ h₁ h₂ => ?_) h₁ h₂
  obtain rfl | ⟨s', h₁, h₂⟩ := h₁.diamond h₂
  · exact ⟨s₁, .refl, .refl⟩
  · exact ⟨s', .single h₁, .single h₂⟩

theorem eq_of_stuck (h : Steps F m s₁ s₂) (hs : ∀ s, ¬Step F m s₁ s) : s₁ = s₂ := by
  obtain rfl | ⟨s, h, _⟩ := h.cases_head
  · rfl
  · exact absurd h (hs s)

-- All interleavings of the two parties end in the same state.
theorem of_halted (h : Steps F m s s₁) (hl : s₁.left.Halted) (hr : s₁.right.Halted)
    (h' : Steps F m s s₂) : Steps F m s₂ s₁ := by
  obtain ⟨s', h₁, h₂⟩ := h.confluent h'
  exact eq_of_stuck h₁ (fun _ h => h.not_halted hl hr) ▸ h₂

theorem of_done (h : Steps F m s s₁) (hd : s₁.Done) (h' : Steps F m s s₂) : Steps F m s₂ s₁ :=
  h.of_halted hd.left hd.right h'

theorem ensures (h : Steps F m s₁ s₂) (hl : s₁.left.Ensures Φ) (hr : s₁.right.Ensures Ψ) :
    s₂.left.Ensures Φ ∧ s₂.right.Ensures Ψ := by
  induction h
  case refl      => exact ⟨hl, hr⟩
  case tail h hi => exact h.ensures hi.left hi.right

end Steps

-- The two parties are in step: in each state that they can reach, every read has got the bytes of
-- its step, and unless both have halted with nothing left in flight, one of them can proceed.
def InStep (F : Functionality I) (p : Prog I α) (q : Prog I β) : Prop :=
  ∀ m s, Steps F m (.init p q) s → s.aligned ∧ (s.Done ∨ ∃ s', Step F m s s')

namespace InStep

variable {α β : Type} {F : Functionality I} {p : Prog I α} {q : Prog I β}

theorem of_steps (h : ∀ m, ∃ s, Steps F m (.init p q) s ∧ s.Done ∧ s.aligned) : InStep F p q := by
  intro m s hs
  have ⟨s', hs', hd, ha⟩ := h m
  have hr := hs'.of_done hd hs
  refine ⟨hr.aligned ha, ?_⟩
  obtain rfl | ⟨s₁, h₁, _⟩ := hr.cases_head
  · exact .inl hd
  · exact .inr ⟨s₁, h₁⟩

theorem not_of_stuck (h : Steps F m (.init p q) s) (hd : ¬s.Done) (hs : ∀ s', ¬Step F m s s') :
    ¬InStep F p q := by
  intro hi
  obtain ⟨_, h | ⟨s', h⟩⟩ := hi m s h
  · exact hd h
  · exact hs s' h

end InStep
