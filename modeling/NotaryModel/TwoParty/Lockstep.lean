import NotaryModel.TwoParty.Network

open Relation

variable {I : Interface} {α β γ δ : Type}

namespace Move

theorem send {f : Unit → Prog I α} :
    Move halted (Prog.send l bs >>= f) t (f ()) t (bs.map (l, ·)) True :=
  .write

-- A read that gets the bytes of its step.
theorem read_aligned {k : Option (Arr n) → Prog I α} (v : Arr n) (ht : t = v.toList.map (l, ·) ++ t') :
    Move halted (.read l n k) t (k (some v)) t' [] True := by
  have h : Move halted (.read l n k) t _ t' [] _ :=
    .read (v.map (l, ·)) (by simp [ht, Vector.toList_map])
  have hl : (∀ c ∈ (v.map (l, ·)).toList, c.1 = l) = True := by simp
  have hv : (v.map (l, ·)).map (·.2) = v := by simp
  rw [hl, hv] at h
  exact h

theorem recv {f : Arr n → Prog I α} (v : Arr n) (ht : t = v.toList.map (l, ·) ++ t') :
    Move halted (Prog.recv l n >>= f) t (f v) t' [] True :=
  read_aligned v ht

end Move

-- Started at the same point of both streams, `p` and `q` return results related by `Φ` after `k`
-- joint sessions, and they leave nothing in flight.
def Meets (F : Functionality I) (k : Nat) (p : Prog I α) (q : Prog I β) (Φ : α → β → Prop) : Prop :=
  ∀ (m : Masks I) {γ δ : Type} (f : α → Prog I γ) (g : β → Prog I δ) (i : Nat) (c : Prop),
    ∃ a b, Φ a b ∧ Steps F m ⟨p >>= f, q >>= g, [], [], i, c⟩ ⟨f a, g b, [], [], i + k, c⟩

namespace Meets

variable {F : Functionality I} {p : Prog I α} {q : Prog I β} {Φ : α → β → Prop}

theorem pure (h : Φ a b) : Meets F 0 (.pure a) (.pure b) Φ :=
  fun _ _ _ _ _ _ _ => ⟨a, b, h, .refl⟩

theorem mono {Ψ : α → β → Prop} (h : Meets F k p q Φ) (hΨ : ∀ a b, Φ a b → Ψ a b) :
    Meets F k p q Ψ :=
  fun m _ _ f g i c =>
    have ⟨a, b, hΦ, hs⟩ := h m f g i c
    ⟨a, b, hΨ a b hΦ, hs⟩

theorem bind {f : α → Prog I γ} {g : β → Prog I δ} {Ψ : γ → δ → Prop} (h : Meets F k p q Φ)
    (hf : ∀ a b, Φ a b → Meets F j (f a) (g b) Ψ) : Meets F (k + j) (p >>= f) (q >>= g) Ψ := by
  intro m _ _ f' g' i c
  obtain ⟨a, b, hΦ, h₁⟩ := h m (fun a => f a >>= f') (fun b => g b >>= g') i c
  obtain ⟨a', b', hΨ, h₂⟩ := hf a b hΦ m f' g' (i + k) c
  refine ⟨a', b', hΨ, ?_⟩
  rw [bind_assoc, bind_assoc, ←Nat.add_assoc]
  exact h₁.trans h₂

theorem map {f : α → γ} {g : β → δ} {Ψ : γ → δ → Prop} (h : Meets F k p q Φ)
    (hΨ : ∀ a b, Φ a b → Ψ (f a) (g b)) : Meets F k (f <$> p) (g <$> q) Ψ :=
  bind h (fun a b hΦ => pure (hΨ a b hΦ))

theorem join {q q' : I.Query} {Φ : I.Answer q → I.Answer q' → Prop}
    (h : ∀ y, ∃ y', F.respond q q' y = some y' ∧ Φ y y') :
    Meets F 1 (Prog.join q) (Prog.join q') Φ := by
  intro m _ _ f g i c
  obtain ⟨y', hr, hΦ⟩ := h (m i q)
  exact ⟨m i q, y', hΦ, .single <| .session hr⟩

theorem send_recv {v : Arr n} {Φ : Unit → Arr n → Prop} (h : Φ () v) :
    Meets F 0 (Prog.send l v.toList) (Prog.recv l n) Φ := by
  intro m _ _ f g i c
  let w := v.toList.map (l, ·)
  have hs : Step F m ⟨Prog.send l v.toList >>= f, Prog.recv l n >>= g, [], [], i, c⟩
      ⟨f (), Prog.recv l n >>= g, w, [], i, c ∧ True⟩ := .left .send
  have hr : Step F m ⟨f (), Prog.recv l n >>= g, w, [], i, c ∧ True⟩
      ⟨f (), g v, [], [], i, (c ∧ True) ∧ True⟩ := .right <| .recv v (List.append_nil w).symm
  exact ⟨(), v, h, by simpa using ReflTransGen.refl.tail hs |>.tail hr⟩

theorem recv_send {v : Arr n} {Φ : Arr n → Unit → Prop} (h : Φ v ()) :
    Meets F 0 (Prog.recv l n) (Prog.send l v.toList) Φ := by
  intro m _ _ f g i c
  let w := v.toList.map (l, ·)
  have hs : Step F m ⟨Prog.recv l n >>= f, Prog.send l v.toList >>= g, [], [], i, c⟩
      ⟨Prog.recv l n >>= f, g (), [], w, i, c ∧ True⟩ := .right .send
  have hr : Step F m ⟨Prog.recv l n >>= f, g (), [], w, i, c ∧ True⟩
      ⟨f v, g (), [], [], i, (c ∧ True) ∧ True⟩ := .left <| .recv v (List.append_nil w).symm
  exact ⟨v, (), h, by simpa using ReflTransGen.refl.tail hs |>.tail hr⟩

-- A run that ends with both parties halted goes through the state that the two have met in.
theorem steps_halted {f : α → Prog I γ} {g : β → Prog I δ} {s : Net I γ δ} (h : Meets F k p q Φ)
    (hs : Steps F m ⟨p >>= f, q >>= g, [], [], i, c⟩ s) (hl : s.left.Halted) (hr : s.right.Halted) :
    ∃ a b, Φ a b ∧ Steps F m ⟨f a, g b, [], [], i + k, c⟩ s :=
  have ⟨a, b, hΦ, h⟩ := h m f g i c
  ⟨a, b, hΦ, hs.of_halted hl hr h⟩

theorem steps_final (h : Meets F k p q Φ) (m : Masks I) :
    ∃ a b, Φ a b ∧ Steps F m (.init p q) (.final a b k) := by
  obtain ⟨a, b, hΦ, hs⟩ := h m Prog.pure Prog.pure 0 True
  refine ⟨a, b, hΦ, ?_⟩
  rw [Prog.bind_pure, Prog.bind_pure, Nat.zero_add] at hs
  exact hs

-- Both have a run that returns, since programs without one do not get to the end.
theorem exists_run [Inhabited (Masks I)] (h : Meets F k p q Φ) (hp : p.Strict) (hq : q.Strict) :
    (∃ es a, Run False p es (.ok a)) ∧ ∃ es b, Run False q es (.ok b) := by
  obtain ⟨a, b, -, hs⟩ := h.steps_final default
  constructor
  · by_contra hn
    have he : p.Ensures fun _ => False := fun _ es a hr => hn ⟨es, a, hp.run_of_ok hr⟩
    exact (hs.ensures (Ψ := fun _ => True) he fun _ _ _ _ => trivial).left.of_pure
  · by_contra hn
    have he : q.Ensures fun _ => False := fun _ es b hr => hn ⟨es, b, hq.run_of_ok hr⟩
    exact (hs.ensures (Φ := fun _ => True) (fun _ _ _ _ => trivial) he).right.of_pure

-- However the two are run, they end in the state that they meet in.
theorem steps_to_final (h : Meets F k p q Φ) (m : Masks I) :
    ∃ a b, Φ a b ∧ ∀ s, Steps F m (.init p q) s → Steps F m s (.final a b k) :=
  have ⟨a, b, hΦ, hs⟩ := h.steps_final m
  ⟨a, b, hΦ, fun _ hs' => hs.of_done Net.final_done hs'⟩

end Meets

-- Started at the same point of both streams, both parties halt with nothing left in flight.
def Completes (F : Functionality I) (p : Prog I α) (q : Prog I β) : Prop :=
  ∀ m i, ∃ s, Steps F m ⟨p, q, [], [], i, True⟩ s ∧ s.Done ∧ s.aligned

namespace Completes

variable {F : Functionality I}

theorem of_halted {p : Prog I α} {q : Prog I β} (hp : p.Halted) (hq : q.Halted) :
    Completes F p q :=
  fun _ _ => ⟨_, .refl, ⟨hp, hq, rfl, rfl⟩, trivial⟩

theorem bind {p : Prog I α} {q : Prog I β} {f : α → Prog I γ} {g : β → Prog I δ}
    {Φ : α → β → Prop} (h : Meets F k p q Φ) (hf : ∀ a b, Φ a b → Completes F (f a) (g b)) :
    Completes F (p >>= f) (q >>= g) := by
  intro m i
  obtain ⟨a, b, hΦ, h₁⟩ := h m f g i True
  obtain ⟨s, h₂, hs⟩ := hf a b hΦ m (i + k)
  exact ⟨s, h₁.trans h₂, hs⟩

theorem send_recv {v : Arr n} {g : Arr n → Prog I β} (h : (g v).Halted) :
    Completes F (Prog.send l v.toList) (Prog.recv l n >>= g) := by
  rw [←Prog.bind_pure (Prog.send l v.toList)]
  refine bind (.send_recv (Φ := fun _ v' => v' = v) rfl) ?_
  rintro _ _ rfl
  exact of_halted .pure h

theorem of_meets {p : Prog I α} {q : Prog I β} {Φ : α → β → Prop} (h : Meets F k p q Φ) :
    Completes F p q := by
  rw [←Prog.bind_pure p, ←Prog.bind_pure q]
  exact bind h fun _ _ _ => of_halted .pure .pure

theorem inStep {p : Prog I α} {q : Prog I β} (h : Completes F p q) : InStep F p q :=
  .of_steps (h · 0)

end Completes

-- Started at the same point of both streams, the parties reach a state in which they wait for each
-- other.
def Deadlocks (F : Functionality I) (p : Prog I α) (q : Prog I β) : Prop :=
  ∀ m i, ∃ s, Steps F m ⟨p, q, [], [], i, True⟩ s ∧ ¬s.Done ∧ ∀ s', ¬Step F m s s'

namespace Deadlocks

variable {F : Functionality I}

theorem bind {p : Prog I α} {q : Prog I β} {f : α → Prog I γ} {g : β → Prog I δ}
    {Φ : α → β → Prop} (h : Meets F k p q Φ) (hf : ∀ a b, Φ a b → Deadlocks F (f a) (g b)) :
    Deadlocks F (p >>= f) (q >>= g) := by
  intro m i
  obtain ⟨a, b, hΦ, h₁⟩ := h m f g i True
  obtain ⟨s, h₂, hs⟩ := hf a b hΦ m (i + k)
  exact ⟨s, h₁.trans h₂, hs⟩

-- One party waits for bytes while the other one waits for it to join a session.
theorem session_read {k : I.Answer q → Prog I α} {k' : Option (Arr n) → Prog I β} (hn : 0 < n) :
    Deadlocks F (.session q k) (.read l n k') := by
  intro m i
  refine ⟨_, .refl, Net.not_done_of_session, fun _ => ?_⟩
  exact Step.not_of_session_read (by simpa using hn)

-- Both parties are about to join a session, but there are bytes in flight.
theorem session_write {k : I.Answer q → Prog I α} {k' : I.Answer q' → Prog I β} (hb : bs ≠ []) :
    Deadlocks F (.session q k) (.write l bs (.session q' k')) := by
  intro m i
  refine ⟨_, .single <| .right .write, Net.not_done_of_session, fun _ => ?_⟩
  exact Step.not_of_session_session (by simpa using hb)

theorem not_inStep [Inhabited (Masks I)] {p : Prog I α} {q : Prog I β} (h : Deadlocks F p q) :
    ¬InStep F p q :=
  have ⟨_, h, hd, hs⟩ := h default 0
  InStep.not_of_stuck h hd hs

end Deadlocks
