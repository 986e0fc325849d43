import NotaryModel.TwoParty.Trace

variable {I : Interface} {α α' β β' : Type} {e : I.Err} {g : α' → α} {h : β' → β}

-- `q` does what `p` does, but it keeps more and may give up with `e` at any point. The results of
-- `p` are what `g` makes of those of `q`.
inductive Guarded (e : I.Err) (g : α' → α) : Prog I α → Prog I α' → Prop
  | pure : Guarded e g (.pure (g a)) (.pure a)
  | fail : Guarded e g (.fail e') (.fail e')
  | stop : Guarded e g p (.fail e)
  | write : Guarded e g p q → Guarded e g (.write l bs p) (.write l bs q)
  | read {k : Option (Arr n) → Prog I α} {k' : Option (Arr n) → Prog I α'} :
    (∀ v, Guarded e g (k v) (k' v)) → Guarded e g (.read l n k) (.read l n k')
  | session {k : I.Answer q → Prog I α} {k' : I.Answer q → Prog I α'} :
    (∀ y, Guarded e g (k y) (k' y)) → Guarded e g (.session q k) (.session q k')

namespace Guarded

theorem refl (p : Prog I α) : Guarded e id p p := by
  induction p
  case pure       => exact .pure
  case fail       => exact .fail
  case write hi   => exact .write hi
  case read hi    => exact .read hi
  case session hi => exact .session hi

theorem bind {f : α → Prog I β} {f' : α' → Prog I β'} (hp : Guarded e g p q)
    (hf : ∀ a, Guarded e h (f (g a)) (f' a)) : Guarded e h (p >>= f) (q >>= f') := by
  induction hp
  case pure       => exact hf _
  case fail       => exact .fail
  case stop       => exact .stop
  case write hi   => exact .write hi
  case read hi    => exact .read hi
  case session hi => exact .session hi

-- A result that is kept with something else.
theorem of_map {f : α → α'} (hf : ∀ a, g (f a) = a) (p : Prog I α) :
    Guarded e g p (p >>= fun a => .pure (f a)) := by
  nth_rewrite 1 [←Prog.bind_pure p]
  refine bind (refl p) fun a => ?_
  have h : Guarded e g (.pure (g (f a)) : Prog I α) (.pure (f a)) := .pure
  rwa [hf] at h

-- A result that is checked.
theorem check (c : α → Prop) [DecidablePred c] (p : Prog I α) :
    Guarded e id p (p >>= fun a => if c a then .pure a else .fail e) := by
  nth_rewrite 1 [←Prog.bind_pure p]
  refine bind (refl p) fun a => ?_
  split
  case isTrue  => exact .pure
  case isFalse => exact .stop

-- A run of `p` is one of `q` as far as that goes.
theorem run {eof : Prop} (hq : Guarded e g p q) (hp : Run eof p es (.ok a)) :
    (∃ a', g a' = a ∧ Run eof q es (.ok a')) ∨ ∃ es₁, es₁ <+: es ∧ Run eof q es₁ (.error e) := by
  induction hq generalizing es
  case pure =>
    cases hp
    exact .inl ⟨_, rfl, .pure⟩
  case fail => cases hp
  case stop => exact .inr ⟨[], List.nil_prefix, .fail⟩
  case write hi =>
    cases hp
    case write hp =>
      refine (hi hp).imp (fun ⟨a', ha, hr⟩ => ⟨a', ha, .write hr⟩) fun ⟨es₁, hs, hr⟩ => ?_
      exact ⟨_, (List.prefix_cons_inj _).mpr hs, .write hr⟩
  case read hi =>
    cases hp
    case read v hp =>
      refine (hi _ hp).imp (fun ⟨a', ha, hr⟩ => ⟨a', ha, .read v hr⟩) fun ⟨es₁, hs, hr⟩ => ?_
      exact ⟨_, (List.prefix_cons_inj _).mpr hs, .read v hr⟩
    case closed he hp =>
      refine (hi _ hp).imp (fun ⟨a', ha, hr⟩ => ⟨a', ha, .closed he hr⟩) fun ⟨es₁, hs, hr⟩ => ?_
      exact ⟨_, (List.prefix_cons_inj _).mpr hs, .closed he hr⟩
  case session hi =>
    cases hp
    case session y hp =>
      refine (hi _ hp).imp (fun ⟨a', ha, hr⟩ => ⟨a', ha, .session y hr⟩) fun ⟨es₁, hs, hr⟩ => ?_
      exact ⟨_, (List.prefix_cons_inj _).mpr hs, .session y hr⟩

-- A run of `q` that returns is one of `p`.
theorem run_ok {eof : Prop} (hq : Guarded e g p q) (hr : Run eof q es (.ok a)) :
    Run eof p es (.ok (g a)) := by
  induction hq generalizing es
  case pure =>
    cases hr
    exact .pure
  case fail => cases hr
  case stop => cases hr
  case write hi =>
    cases hr
    case write hr => exact .write (hi hr)
  case read hi =>
    cases hr
    case read v hr    => exact .read v (hi _ hr)
    case closed he hr => exact .closed he (hi _ hr)
  case session hi =>
    cases hr
    case session y hr => exact .session y (hi _ hr)

end Guarded

-- The same for programs with a state, of which `q` keeps more as well.
def GuardedT {σ σ' : Type} (e : I.Err) (π : σ' → σ) (g : α' → α) (p : StateT σ (Prog I) α)
    (q : StateT σ' (Prog I) α') : Prop :=
  ∀ s, Guarded e (fun y => (g y.1, π y.2)) (p.run (π s)) (q.run s)

namespace GuardedT

variable {σ σ' : Type} {π : σ' → σ} {p : StateT σ (Prog I) α} {q : StateT σ' (Prog I) α'}

theorem pure (a : α') : GuardedT (I := I) e π g (Pure.pure (g a)) (Pure.pure a) :=
  fun s => .pure (a := (a, s))

theorem bind {f : α → StateT σ (Prog I) β} {f' : α' → StateT σ' (Prog I) β'}
    (hp : GuardedT e π g p q) (hf : ∀ a, GuardedT e π h (f (g a)) (f' a)) :
    GuardedT e π h (p >>= f) (q >>= f') :=
  fun s => (hp s).bind fun y => hf y.1 y.2

theorem lift {p : Prog I α} {q : Prog I α'} (hp : Guarded e g p q) :
    GuardedT e π g (monadLift p : StateT σ (Prog I) α) (monadLift q : StateT σ' (Prog I) α') :=
  fun s => hp.bind fun a => .pure (a := (a, s))

theorem get : GuardedT (I := I) e π π get get :=
  fun s => .pure (a := (s, s))

theorem set (s : σ') : GuardedT (I := I) e π id (set (π s)) (set s) :=
  fun _ => .pure (a := ((), s))

theorem modify {f : σ → σ} {f' : σ' → σ'} (hf : ∀ s, f (π s) = π (f' s)) :
    GuardedT (I := I) e π id (modify f) (modify f') := by
  intro s
  have h : Guarded (I := I) e (fun y : PUnit × σ' => (id y.1, π y.2)) (.pure ((), π (f' s)))
    (.pure ((), f' s)) := .pure (a := ((), f' s))
  rw [←hf] at h
  exact h

theorem mapM {p : ι → StateT σ (Prog I) α} {q : κ → StateT σ' (Prog I) α'} {f : κ → ι}
    (hp : ∀ i, GuardedT e π g (p (f i)) (q i)) (l : List κ) :
    GuardedT e π (List.map g) ((l.map f).mapM p) (l.mapM q) := by
  induction l
  case nil => exact pure []
  case cons i l hi =>
    rw [List.map_cons, List.mapM_cons, List.mapM_cons]
    exact bind (hp i) fun a => bind hi fun as => pure (a :: as)

theorem mapM_self {p : ι → StateT σ (Prog I) α} {q : ι → StateT σ' (Prog I) α'}
    (hp : ∀ i, GuardedT e π g (p i) (q i)) (l : List ι) :
    GuardedT e π (List.map g) (l.mapM p) (l.mapM q) := by
  have h := mapM (f := id) hp l
  rwa [List.map_id] at h

theorem forM {p : ι → StateT σ (Prog I) PUnit} {q : ι → StateT σ' (Prog I) PUnit}
    (hp : ∀ i, GuardedT e π id (p i) (q i)) (l : List ι) :
    GuardedT e π id (l.forM p) (l.forM q) := by
  induction l
  case nil          => exact pure ()
  case cons i l hi  => exact bind (hp i) fun _ => hi

end GuardedT
