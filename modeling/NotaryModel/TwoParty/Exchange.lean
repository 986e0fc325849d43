import NotaryModel.TwoParty.Lockstep

open Relation

variable {I : Interface} {α β γ δ : Type}

-- Networks in which a joint session is an exchange that both parties complete: it orders nothing but
-- the sessions among each other.
namespace Exchange

-- The left party's part in a session is `pending` until the right party takes its own.
structure Net (I : Interface) (α β : Type) where
  left     : Prog I α
  right    : Prog I β
  toRight  : List (Cell I)
  toLeft   : List (Cell I)
  pending  : List ((q : I.Query) × I.Answer q)
  sessions : Nat
  aligned  : Prop

def Net.init (p : Prog I α) (q : Prog I β) : Net I α β :=
  ⟨p, q, [], [], [], 0, True⟩

-- The channel stays open, so that no read runs into its end.
inductive Step (F : Functionality I) (m : Masks I) : Net I α β → Net I α β → Prop
  | left : Move False p t p' t' w c →
    Step F m ⟨p, q, r, t, s, i, a⟩ ⟨p', q, r ++ w, t', s, i, a ∧ c⟩
  | right : Move False q r q' r' w c →
    Step F m ⟨p, q, r, t, s, i, a⟩ ⟨p, q', r', t ++ w, s, i, a ∧ c⟩
  | enter {k : I.Answer q' → Prog I α} :
    Step F m ⟨.session q' k, q, r, t, s, i, a⟩ ⟨k (m i q'), q, r, t, s ++ [⟨q', m i q'⟩], i + 1, a⟩
  | join {k : I.Answer q' → Prog I β} : F.respond q q' y = some y' →
    Step F m ⟨p, .session q' k, r, t, ⟨q, y⟩ :: s, i, a⟩ ⟨p, k y', r, t, s, i, a⟩

abbrev Steps (F : Functionality I) (m : Masks I) : Net I α β → Net I α β → Prop :=
  ReflTransGen (Step F m)

section

variable {F : Functionality I} {m : Masks I} {s s₁ s₂ : Net I α β}

namespace Step

theorem aligned (h : Step F m s₁ s₂) (ha : s₂.aligned) : s₁.aligned := by
  cases h
  case left  => exact ha.1
  case right => exact ha.1
  case enter => exact ha
  case join  => exact ha

theorem not_halted (h : Step F m s₁ s₂) (hl : s₁.left.Halted) : ¬s₁.right.Halted := by
  intro hr
  cases h
  case left h  => exact h.not_halted hl
  case right h => exact h.not_halted hr
  case enter   => cases hl
  case join    => cases hr

theorem diamond (h₁ : Step F m s s₁) (h₂ : Step F m s s₂) :
    s₁ = s₂ ∨ ∃ s', Step F m s₁ s' ∧ Step F m s₂ s' := by
  cases h₁ <;> cases h₂
  case left.left h₁ _ _ _ _ h₂ =>
    obtain ⟨rfl, rfl, rfl, rfl⟩ := h₁.deterministic h₂
    exact .inl rfl
  case right.right h₁ _ _ _ _ h₂ =>
    obtain ⟨rfl, rfl, rfl, rfl⟩ := h₁.deterministic h₂
    exact .inl rfl
  case left.right hl _ _ _ _ hr =>
    refine .inr ⟨_, .right (hr.append id _), ?_⟩
    rw [and_right_comm]
    exact .left (hl.append id _)
  case right.left hr _ _ _ _ hl =>
    refine .inr ⟨_, .left (hl.append id _), ?_⟩
    rw [and_right_comm]
    exact .right (hr.append id _)
  case left.join   => exact .inr ⟨_, .join ‹_›, .left ‹_›⟩
  case join.left   => exact .inr ⟨_, .left ‹_›, .join ‹_›⟩
  case right.enter => exact .inr ⟨_, .enter, .right ‹_›⟩
  case enter.right => exact .inr ⟨_, .right ‹_›, .enter⟩
  case enter.enter => exact .inl rfl
  case enter.join  => exact .inr ⟨_, .join ‹_›, .enter⟩
  case join.enter  => exact .inr ⟨_, .enter, .join ‹_›⟩
  case join.join   => simp_all
  all_goals cases ‹Move _ _ _ _ _ _ _›

end Step

namespace Steps

theorem aligned (h : Steps F m s₁ s₂) (ha : s₂.aligned) : s₁.aligned := by
  induction h
  case refl      => exact ha
  case tail h hi => exact hi (h.aligned ha)

theorem eq_of_stuck (h : Steps F m s₁ s₂) (hs : ∀ s, ¬Step F m s₁ s) : s₁ = s₂ := by
  obtain rfl | ⟨s, h, _⟩ := h.cases_head
  · rfl
  · exact absurd h (hs s)

-- A state in which nothing can happen any more is the end of every interleaving.
theorem of_stuck (h : Steps F m s s₁) (hs : ∀ s, ¬Step F m s₁ s) (h' : Steps F m s s₂) :
    Steps F m s₂ s₁ := by
  have ⟨s', h₁, h₂⟩ := church_rosser (fun s s₁ s₂ h₁ h₂ => ?_) h h'
  · exact eq_of_stuck h₁ hs ▸ h₂
  · obtain rfl | ⟨s', h₁, h₂⟩ := h₁.diamond h₂
    · exact ⟨s₁, .refl, .refl⟩
    · exact ⟨s', .single h₁, .single h₂⟩

theorem of_halted (h : Steps F m s s₁) (hl : s₁.left.Halted) (hr : s₁.right.Halted)
    (h' : Steps F m s s₂) : Steps F m s₂ s₁ :=
  h.of_stuck (fun _ h => h.not_halted hl hr) h'

end Steps

end

variable {F : Functionality I} {m : Masks I}

namespace Step

theorem writeLeft :
    Step F m ⟨.write l bs p, q, r, t, s, i, c⟩ ⟨p, q, r ++ bs.map (l, ·), t, s, i, c⟩ := by
  have h : Step F m ⟨.write l bs p, q, r, t, s, i, c⟩ _ := .left .write
  rwa [and_true] at h

theorem writeRight :
    Step F m ⟨p, .write l bs q, r, t, s, i, c⟩ ⟨p, q, r, t ++ bs.map (l, ·), s, i, c⟩ := by
  have h : Step F m ⟨p, .write l bs q, r, t, s, i, c⟩ _ := .right .write
  rwa [and_true] at h

theorem readLeft {k : Option (Arr n) → Prog I α} (v : Arr n)
    (ht : t = v.toList.map (l, ·) ++ t') :
    Step F m ⟨.read l n k, q, r, t, s, i, c⟩ ⟨k (some v), q, r, t', s, i, c⟩ := by
  have h : Step F m ⟨.read l n k, q, r, t, s, i, c⟩ _ := .left (.read_aligned v ht)
  rwa [and_true, List.append_nil] at h

theorem readRight {k : Option (Arr n) → Prog I β} (v : Arr n)
    (hr : r = v.toList.map (l, ·) ++ r') :
    Step F m ⟨p, .read l n k, r, t, s, i, c⟩ ⟨p, k (some v), r', t, s, i, c⟩ := by
  have h : Step F m ⟨p, .read l n k, r, t, s, i, c⟩ _ := .right (.read_aligned v hr)
  rwa [and_true, List.append_nil] at h

theorem enter_eq {k : I.Answer q' → Prog I α} (hy : y = m i q') :
    Step F m ⟨.session q' k, q, r, t, s, i, c⟩ ⟨k y, q, r, t, s ++ [⟨q', y⟩], i + 1, c⟩ :=
  hy ▸ .enter

end Step

-- The events of two parties in an order in which they can happen: `u` and `v` are the messages in
-- flight in both directions and `s` are the pending sessions.
inductive Schedule (F : Functionality I) : List (I.Label × Bytes) → List (I.Label × Bytes) →
    List ((q : I.Query) × I.Answer q) → List (Event I) → List (Event I) → Prop
  | nil : Schedule F [] [] [] [] []
  | writeLeft : Schedule F (u ++ [(l, bs)]) v s es es' → Schedule F u v s (.write l bs :: es) es'
  | writeRight : Schedule F u (v ++ [(l, bs)]) s es es' → Schedule F u v s es (.write l bs :: es')
  | readLeft : Schedule F u v s es es' → Schedule F u ((l, bs) :: v) s (.read l bs :: es) es'
  | readRight : Schedule F u v s es es' → Schedule F ((l, bs) :: u) v s es (.read l bs :: es')
  | enter : Schedule F u v (s ++ [⟨q, y⟩]) es es' → Schedule F u v s (.session q y :: es) es'
  | join : F.respond q q' y = some y' → Schedule F u v s es es' →
    Schedule F u v (⟨q, y⟩ :: s) es (.session q' y' :: es')

namespace Schedule

theorem append (h₁ : Schedule F u v s es₁ es₁') (h₂ : Schedule F [] [] [] es₂ es₂') :
    Schedule F u v s (es₁ ++ es₂) (es₁' ++ es₂') := by
  induction h₁
  case nil               => exact h₂
  case writeLeft hi      => exact .writeLeft hi
  case writeRight hi     => exact .writeRight hi
  case readLeft hi       => exact .readLeft hi
  case readRight hi      => exact .readRight hi
  case enter hi          => exact .enter hi
  case join hr _ hi      => exact .join hr hi

theorem flatMap {l : List ι} {E E' : ι → List (Event I)}
    (h : ∀ i ∈ l, Schedule F [] [] [] (E i) (E' i)) :
    Schedule F [] [] [] (l.flatMap E) (l.flatMap E') := by
  induction l
  case nil         => exact .nil
  case cons i l hi =>
    rw [List.forall_mem_cons] at h
    exact append h.left (hi h.right)

-- The messages of a stream as cells.
def cells (u : List (I.Label × Bytes)) : List (Cell I) :=
  u.flatMap fun x => x.2.map (x.1, ·)

theorem cells_concat (u : List (I.Label × Bytes)) (l : I.Label) (bs : Bytes) :
    cells u ++ bs.map (l, ·) = cells (u ++ [(l, bs)]) := by
  simp [cells]

-- What is left of a program that has ended with `r`.
def ret : Except I.Err α → Prog I α
  | .ok a    => .pure a
  | .error e => .fail e

-- Two runs take place in the network if their events can be scheduled.
theorem steps (h : Schedule F u v s es es') {p : Prog I α} {q : Prog I β} (hp : Run False p es r)
    (hq : Run False q es' r') (hm : m.Answers i (Event.sessions es)) (f : α → Prog I γ)
    (g : β → Prog I δ) (c : Prop) :
    ∃ j, Steps F m ⟨p >>= f, q >>= g, cells u, cells v, s, i, c⟩
      ⟨ret r >>= f, ret r' >>= g, [], [], [], j, c⟩ := by
  induction h generalizing p q i
  case nil =>
    cases hp <;> cases hq
    all_goals exact ⟨i, .refl⟩
  case writeLeft hi =>
    cases hp
    case write hp =>
      have ⟨j, h⟩ := hi hp hq hm
      refine ⟨j, .head .writeLeft ?_⟩
      rw [cells_concat]
      exact h
  case writeRight hi =>
    cases hq
    case write hq =>
      have ⟨j, h⟩ := hi hp hq hm
      refine ⟨j, .head .writeRight ?_⟩
      rw [cells_concat]
      exact h
  case readLeft hi =>
    cases hp
    case read v hp =>
      have ⟨j, h⟩ := hi hp hq hm
      exact ⟨j, .head (.readLeft v rfl) h⟩
  case readRight hi =>
    cases hq
    case read v hq =>
      have ⟨j, h⟩ := hi hp hq hm
      exact ⟨j, .head (.readRight v rfl) h⟩
  case enter hi =>
    cases hp
    case session hp =>
      have ⟨hy, hm⟩ := hm
      have ⟨j, h⟩ := hi hp hq hm
      exact ⟨j, .head (.enter_eq hy) h⟩
  case join hr _ hi =>
    cases hq
    case session hq =>
      have ⟨j, h⟩ := hi hp hq hm
      exact ⟨j, .head (.join hr) h⟩

theorem matches_pending (h : Schedule F u v s es es') :
    Event.reads es' = u ++ Event.writes es ∧ Event.reads es = v ++ Event.writes es' ∧
    List.Forall₂ (fun s s' => F.respond s.1 s'.1 s.2 = some s'.2) (s ++ Event.sessions es)
      (Event.sessions es') := by
  induction h
  case join hr _ hi => exact ⟨hi.left, hi.right.left, .cons hr hi.right.right⟩
  all_goals simp_all

theorem matched (h : Schedule F [] [] [] es es') : Matched F es es' :=
  have ⟨hr, hl, hs⟩ := h.matches_pending
  ⟨hr.symm, hl, hs⟩

theorem read_write (h : Schedule F [] [] [] es es') :
    Schedule F [] [] [] (.read l bs :: es) (.write l bs :: es') :=
  .writeRight <| .readLeft h

theorem write_read (h : Schedule F [] [] [] es es') :
    Schedule F [] [] [] (.write l bs :: es) (.read l bs :: es') :=
  .writeLeft <| .readRight h

theorem session (hr : F.respond q q' y = some y') (h : Schedule F [] [] [] es es') :
    Schedule F [] [] [] (.session q y :: es) (.session q' y' :: es') :=
  .enter <| .join hr h

end Schedule

-- The net in which both parties have returned.
abbrev Net.final (a : α) (b : β) (i : Nat) : Net I α β :=
  ⟨.pure a, .pure b, [], [], [], i, True⟩

-- For all answers that the left party may get, the two have runs that return results related by `Φ`
-- and whose events can be scheduled.
def Scheduled (F : Functionality I) (p : Prog I α) (q : Prog I β) (Φ : α → β → Prop) : Prop :=
  ∀ (m : Masks I) (i : Nat), ∃ a b es es', Φ a b ∧ Run False p es (.ok a) ∧ Run False q es' (.ok b) ∧
    Schedule F [] [] [] es es' ∧ m.Answers i (Event.sessions es)

namespace Scheduled

variable {p : Prog I α} {q : Prog I β} {Φ : α → β → Prop}

theorem pure (h : Φ a b) : Scheduled F (.pure a) (.pure b) Φ :=
  fun _ _ => ⟨a, b, [], [], h, .pure, .pure, .nil, trivial⟩

theorem mono {Ψ : α → β → Prop} (h : Scheduled F p q Φ) (hΨ : ∀ a b, Φ a b → Ψ a b) :
    Scheduled F p q Ψ :=
  fun m i =>
    have ⟨a, b, es, es', hΦ, hr⟩ := h m i
    ⟨a, b, es, es', hΨ a b hΦ, hr⟩

theorem bind {f : α → Prog I γ} {g : β → Prog I δ} {Ψ : γ → δ → Prop} (h : Scheduled F p q Φ)
    (hf : ∀ a b, Φ a b → Scheduled F (f a) (g b) Ψ) : Scheduled F (p >>= f) (q >>= g) Ψ := by
  intro m i
  obtain ⟨a, b, es₁, es₁', hΦ, hp, hq, hs₁, hm₁⟩ := h m i
  obtain ⟨c, d, es₂, es₂', hΨ, hf, hg, hs₂, hm₂⟩ :=
    hf a b hΦ m (i + (Event.sessions es₁).length)
  refine ⟨c, d, _, _, hΨ, hp.bind_ok hf, hq.bind_ok hg, hs₁.append hs₂, ?_⟩
  rw [Event.sessions_append]
  exact Masks.Answers.append_iff.mpr ⟨hm₁, hm₂⟩

theorem attempt (h : Scheduled F p q Φ) :
    Scheduled F p q.attempt fun a r => ∃ b, r = .ok b ∧ Φ a b :=
  fun m i =>
    have ⟨a, b, es, es', hΦ, hp, hq, hs, hm⟩ := h m i
    ⟨a, .ok b, es, es', ⟨b, rfl, hΦ⟩, hp, Run.attempt_iff.mpr ⟨_, hq, rfl⟩, hs, hm⟩

theorem session {q q' : I.Query} {Φ : I.Answer q → I.Answer q' → Prop}
    (h : ∀ y, ∃ y', F.respond q q' y = some y' ∧ Φ y y') :
    Scheduled F (Prog.join q) (Prog.join q') Φ := by
  intro m i
  have ⟨y', hr, hΦ⟩ := h (m i q)
  exact ⟨m i q, y', _, _, hΦ, .session _ .pure, .session _ .pure, .session hr .nil, rfl, trivial⟩

theorem recv_send {v : Arr n} {Φ : Arr n → Unit → Prop} (h : Φ v ()) :
    Scheduled F (Prog.recv l n) (Prog.send l v.toList) Φ :=
  fun _ _ => ⟨v, (), _, _, h, .read v .pure, .write .pure, .read_write .nil, trivial⟩

theorem send_recv {v : Arr n} {Φ : Unit → Arr n → Prop} (h : Φ () v) :
    Scheduled F (Prog.send l v.toList) (Prog.recv l n) Φ :=
  fun _ _ => ⟨(), v, _, _, h, .write .pure, .read v .pure, .write_read .nil, trivial⟩

theorem steps (h : Scheduled F p q Φ) (m : Masks I) (f : α → Prog I γ) (g : β → Prog I δ) (i : Nat)
    (c : Prop) : ∃ a b j, Φ a b ∧
      Steps F m ⟨p >>= f, q >>= g, [], [], [], i, c⟩ ⟨f a, g b, [], [], [], j, c⟩ := by
  have ⟨a, b, es, es', hΦ, hp, hq, hs, hm⟩ := h m i
  have ⟨j, h⟩ := hs.steps hp hq hm f g c
  exact ⟨a, b, j, hΦ, h⟩

-- However the two are run, they can go on to the state in which both have returned, and up to there
-- every read has got the bytes of its step.
theorem steps_to_final (h : Scheduled F p q Φ) (m : Masks I) : ∃ a b j, Φ a b ∧
    ∀ s, Steps F m (.init p q) s → s.aligned ∧ Steps F m s (.final a b j) := by
  obtain ⟨a, b, j, hΦ, hs⟩ := h.steps m Prog.pure Prog.pure 0 True
  rw [Prog.bind_pure, Prog.bind_pure] at hs
  refine ⟨a, b, j, hΦ, fun s hs' => ?_⟩
  have hf := Steps.of_halted hs .pure .pure hs'
  exact ⟨hf.aligned trivial, hf⟩

end Scheduled

-- With nothing in flight before and after, `p` and `q` get to `p'` and `q'`.
def Reaches (F : Functionality I) (p p' : Prog I α) (q q' : Prog I β) : Prop :=
  ∀ (m : Masks I) (i : Nat) (c : Prop),
    ∃ j, Steps F m ⟨p, q, [], [], [], i, c⟩ ⟨p', q', [], [], [], j, c⟩

namespace Reaches

theorem refl {p : Prog I α} {q : Prog I β} : Reaches F p p q q :=
  fun _ i _ => ⟨i, .refl⟩

theorem trans {p p' p'' : Prog I α} {q q' q'' : Prog I β} (h : Reaches F p p' q q')
    (h' : Reaches F p' p'' q' q'') : Reaches F p p'' q q'' := by
  intro m i c
  have ⟨j, hs⟩ := h m i c
  have ⟨k, hs'⟩ := h' m j c
  exact ⟨k, hs.trans hs'⟩

theorem of_scheduled {p : Prog I α} {q : Prog I β} {f : α → Prog I γ} {g : β → Prog I δ}
    (h : Scheduled F p q fun a' b' => a' = a ∧ b' = b) :
    Reaches F (p >>= f) (f a) (q >>= g) (g b) := by
  intro m i c
  obtain ⟨_, _, j, ⟨rfl, rfl⟩, hs⟩ := h.steps m f g i c
  exact ⟨j, hs⟩

end Reaches

theorem Step.not_of_read {k : Option (Arr n) → Prog I α} {b : β} {s : Net I α β} (hn : 0 < n) :
    ¬Step F m ⟨.read l n k, .pure b, r, [], t, i, c⟩ s := by
  intro h
  cases h
  case left h =>
    cases h
    case read cells h =>
      have hl := congrArg List.length h
      simp at hl
      omega
    case eof h _ => exact h
  case right h => cases h

-- A read for which the bytes of another step are in flight, while the writer waits in a session:
-- either it gets these bytes, or nothing can happen any more.
theorem Steps.out_of_step {k : Option (Arr n) → Prog I α} {k' : I.Answer q → Prog I β} (hn : 0 < n)
    (hx : x.1 ≠ l) : ∃ s, Steps F m ⟨.read l n k, .session q k', r, x :: t, [], i, c⟩ s ∧
      (s.aligned → ¬s.right.Halted ∧ ∀ s', ¬Step F m s s') := by
  by_cases ht : n ≤ (x :: t).length
  case pos =>
    have hl : ((x :: t).take n).length = n := List.length_take_of_le ht
    let cells : Vector (Cell I) n := ⟨((x :: t).take n).toArray, by simpa using hl⟩
    have hc : x :: t = cells.toList ++ (x :: t).drop n := (List.take_append_drop n (x :: t)).symm
    refine ⟨_, .single <| .left <| .read cells hc, fun ha => ?_⟩
    have hm : x ∈ cells.toList := by
      obtain ⟨n, rfl⟩ := Nat.exists_eq_add_of_lt hn
      simp [cells]
    exact absurd (ha.right x hm) hx
  case neg =>
    refine ⟨_, .refl, fun _ => ⟨nofun, fun s' h => ?_⟩⟩
    cases h
    case left h =>
      cases h
      case read cells h =>
        rw [h] at ht
        simp at ht
      case eof h _ => exact h
    case right h => cases h

end Exchange
