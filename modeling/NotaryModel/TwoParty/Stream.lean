import NotaryModel.TwoParty.Trace

-- What becomes of a program that is fed the bytes of a stream.
structure Fed (I : Interface) (α : Type) where
  result  : Except I.Err α
  unread  : Bytes
  written : Bytes

namespace Prog

variable {I : Interface} {α β : Type} (answer : (q : I.Query) → I.Answer q)

-- The peer sends the bytes of the stream and then closes the channel. A read that there are too few
-- bytes for uses them up.
def feed : Prog I α → Bytes → Fed I α
  | pure a, s       => ⟨.ok a, s, []⟩
  | fail e, s       => ⟨.error e, s, []⟩
  | write _ bs p, s =>
    let f := p.feed s
    { f with written := bs ++ f.written }
  | read _ n k, s   =>
    if n ≤ s.length then
      (k (some (.ofBytes n (s.take n)))).feed (s.drop n)
    else
      (k none).feed []
  | session q k, s  => (k (answer q)).feed s

variable {answer} {p : Prog I α} {f : α → Prog I β}

@[simp]
theorem feed_pure (a : α) (s : Bytes) : (pure a : Prog I α).feed answer s = ⟨.ok a, s, []⟩ :=
  rfl

@[simp]
theorem feed_fail (e : I.Err) (s : Bytes) :
    (fail e : Prog I α).feed answer s = ⟨.error e, s, []⟩ :=
  rfl

@[simp]
theorem feed_send_bind (l : I.Label) (bs : Bytes) (f : Unit → Prog I β) (s : Bytes) :
    (send l bs >>= f).feed answer s =
    { (f ()).feed answer s with written := bs ++ ((f ()).feed answer s).written } :=
  rfl

theorem feed_read {k : Option (Arr n) → Prog I α} (v : Arr n) (s : Bytes) :
    (read l n k).feed answer (v.toList ++ s) = (k (some v)).feed answer s := by
  have hn : n ≤ (v.toList ++ s).length := by simp
  have ht : (v.toList ++ s).take n = v.toList := List.take_left' (by simp)
  have hd : (v.toList ++ s).drop n = s := List.drop_left' (by simp)
  rw [feed, if_pos hn, ht, hd, Arr.ofBytes_toList]

theorem feed_read_short {k : Option (Arr n) → Prog I α} {s : Bytes} (h : s.length < n) :
    (read l n k).feed answer s = (k none).feed answer [] := by
  rw [feed, if_neg (Nat.not_le.mpr h)]

@[simp]
theorem feed_recv_bind (v : Arr n) (l : I.Label) (f : Arr n → Prog I β) (s : Bytes) :
    (recv l n >>= f).feed answer (v.toList ++ s) = (f v).feed answer s :=
  feed_read v s

theorem feed_recv_bind_short {s : Bytes} (h : s.length < n) (l : I.Label) (f : Arr n → Prog I β) :
    (recv l n >>= f).feed answer s = ⟨.error I.closed, [], []⟩ :=
  feed_read_short h

theorem feed_map (g : α → β) (p : Prog I α) (s : Bytes) : (g <$> p).feed answer s =
    ⟨(p.feed answer s).result.map g, (p.feed answer s).unread, (p.feed answer s).written⟩ := by
  rw [map_eq_bind]
  induction p generalizing s
  case pure => rfl
  case fail => rfl
  case write hi =>
    rw [write_bind, feed, feed, hi]
  case read l n k hi =>
    rw [read_bind, feed, feed]
    split
    case isTrue  => exact hi _ _
    case isFalse => exact hi _ _
  case session hi =>
    rw [session_bind, feed, feed, hi]

theorem feed_recv_bind_cases {Φ : Fed I β → Prop} {l : I.Label} {f : Arr n → Prog I β} (s : Bytes)
    (hs : s.length < n → Φ ⟨.error I.closed, [], []⟩)
    (h : ∀ (v : Arr n) s', s = v.toList ++ s' → Φ ((f v).feed answer s')) :
    Φ ((recv l n >>= f).feed answer s) := by
  by_cases hn : s.length < n
  case pos =>
    rw [feed_recv_bind_short hn]
    exact hs hn
  case neg =>
    have ht : (Arr.ofBytes n (s.take n)).toList = s.take n :=
      Arr.toList_ofBytes (List.length_take_of_le (Nat.not_lt.mp hn))
    have he : s = (Arr.ofBytes n (s.take n)).toList ++ s.drop n := by
      rw [ht, List.take_append_drop]
    rw [he, feed_recv_bind]
    exact h _ _ he

-- Feeding a program is one of its runs.
theorem run_feed (p : Prog I α) (s : Bytes) : ∃ es lost,
    Run True p es (p.feed answer s).result ∧
    (Event.reads es).flatMap (·.2) ++ (lost ++ (p.feed answer s).unread) = s ∧
    (Event.writes es).flatMap (·.2) = (p.feed answer s).written := by
  induction p generalizing s
  case pure => exact ⟨[], [], .pure, rfl, rfl⟩
  case fail => exact ⟨[], [], .fail, rfl, rfl⟩
  case write l bs p hi =>
    obtain ⟨es, lost, hr, hs, hw⟩ := hi s
    refine ⟨_, lost, .write hr, hs, ?_⟩
    rw [Event.writes_write, List.flatMap_cons, hw]
    rfl
  case read l n k hi =>
    by_cases h : n ≤ s.length
    case pos =>
      obtain ⟨es, lost, hr, hs, hw⟩ := hi (some (.ofBytes n (s.take n))) (s.drop n)
      have ht : (Arr.ofBytes n (s.take n)).toList = s.take n :=
        Arr.toList_ofBytes (List.length_take_of_le h)
      rw [feed, if_pos h]
      refine ⟨_, lost, .read _ hr, ?_, hw⟩
      rw [Event.reads_read, List.flatMap_cons, List.append_assoc, hs, ht, List.take_append_drop]
    case neg =>
      obtain ⟨es, lost, hr, hs, hw⟩ := hi none []
      obtain ⟨he, hl⟩ := List.append_eq_nil_iff.mp hs
      obtain ⟨-, hu⟩ := List.append_eq_nil_iff.mp hl
      rw [feed, if_neg h]
      refine ⟨_, s, .closed trivial hr, ?_, hw⟩
      rw [Event.reads_closed, he, hu, List.append_nil, List.nil_append]
  case session q k hi =>
    obtain ⟨es, lost, hr, hs, hw⟩ := hi (answer q) s
    exact ⟨_, lost, .session _ hr, hs, hw⟩

-- A run that gets all its bytes is one on the stream of these bytes, whatever follows them.
theorem feed_of_run (h : Run False p es r) (ha : ∀ x ∈ Event.sessions es, x.2 = answer x.1)
    (s : Bytes) : p.feed answer ((Event.reads es).flatMap (·.2) ++ s) =
      ⟨r, s, (Event.writes es).flatMap (·.2)⟩ := by
  induction h
  case pure => rfl
  case fail => rfl
  case write hi =>
    rw [Event.reads_write, feed, hi ha]
    rfl
  case read v h hi =>
    rw [Event.reads_read, List.flatMap_cons, List.append_assoc, feed_read, hi ha]
    rfl
  case closed h _ _ => exact h.elim
  case session q k y h hi =>
    rw [Event.sessions_session, List.forall_mem_cons] at ha
    rw [Event.reads_session, feed, ←ha.left, hi ha.right]
    rfl

end Prog
