import Backfill.Trail

/-!
Trails that reach their end, and what they left on the way.
-/

namespace Backfill.Trail

variable {ε φ α β : Type}

theorem outcome_bind_eq_ok {x : Trail ε φ α} {f : α → Trail ε φ β} {b : β} :
    (x.bind f).outcome = .ok b ↔ ∃ a, x.outcome = .ok a ∧ (f a).outcome = .ok b := by
  obtain ⟨l, o⟩ := x
  cases o with
  | error e => simp [bind]
  | ok a => simp [bind]

theorem outcome_bind (x : Trail ε φ α) (f : α → Trail ε φ β) :
    (x.bind f).outcome = x.outcome >>= fun a => (f a).outcome := by
  obtain ⟨l, o⟩ := x
  cases o <;> rfl

theorem outcome_foldEach (f : β → α → Trail ε φ β) (b : β) (l : List α) :
    (foldEach f b l).outcome = l.foldlM (fun b a => (f b a).outcome) b := by
  induction l generalizing b with
  | nil => rfl
  | cons a l ih =>
    rw [foldEach, outcome_bind, List.foldlM_cons]
    exact congrArg _ (funext fun c => ih c)

theorem eq_of_outcome_ok {x : Trail ε φ α} {a : α} (h : x.outcome = .ok a) :
    x = ⟨x.entries, .ok a⟩ := by
  obtain ⟨l, o⟩ := x
  cases h
  rfl

theorem entries_bind {x : Trail ε φ α} {f : α → Trail ε φ β} {a : α} (h : x.outcome = .ok a) :
    (x.bind f).entries = x.entries ++ (f a).entries := by
  rw [bind, h]

theorem mem_entries_bind {x : Trail ε φ α} {f : α → Trail ε φ β} {e : ε}
    (h : e ∈ (x.bind f).entries) :
    e ∈ x.entries ∨ ∃ a, x.outcome = .ok a ∧ e ∈ (f a).entries := by
  obtain ⟨l, o⟩ := x
  cases o with
  | error _ => exact .inl h
  | ok a =>
    rcases List.mem_append.mp h with h | h
    · exact .inl h
    · exact .inr ⟨a, rfl, h⟩

/-- What a step left was left about one of the elements. -/
theorem mem_entries_foldEach {f : β → α → Trail ε φ β} {b : β} {l : List α} {e : ε}
    (h : e ∈ (foldEach f b l).entries) : ∃ c, ∃ a ∈ l, e ∈ (f c a).entries := by
  induction l generalizing b with
  | nil => cases h
  | cons a l ih =>
    rcases mem_entries_bind h with here | ⟨c, _, later⟩
    · exact ⟨b, a, List.mem_cons_self, here⟩
    · obtain ⟨c, a', ha, he⟩ := ih later
      exact ⟨c, a', List.mem_cons_of_mem _ ha, he⟩

/-- An entry that both parts leave so many times at the most. -/
theorem count_bind_le [BEq ε] {x : Trail ε φ α} {f : α → Trail ε φ β} {e : ε} {n m : Nat}
    (hx : x.entries.count e ≤ n) (hf : ∀ a, (f a).entries.count e ≤ m) :
    (x.bind f).entries.count e ≤ n + m := by
  obtain ⟨l, o⟩ := x
  cases o with
  | error _ => exact Nat.le_trans hx (Nat.le_add_right n m)
  | ok a =>
    change (l ++ (f a).entries).count e ≤ n + m
    rw [List.count_append]
    exact Nat.add_le_add hx (hf a)

theorem each_eq_foldEach (f : α → Trail ε φ Unit) (l : List α) :
    each f l = foldEach (fun _ a => f a) () l := by
  induction l with
  | nil => rfl
  | cons a l ih => rw [each, foldEach, ih]

theorem mem_entries_each {f : α → Trail ε φ Unit} {l : List α} {e : ε}
    (h : e ∈ (each f l).entries) : ∃ a ∈ l, e ∈ (f a).entries := by
  rw [each_eq_foldEach] at h
  obtain ⟨_, a, ha, h⟩ := mem_entries_foldEach h
  exact ⟨a, ha, h⟩

/-- Entries stand in a relation when those of each step do, and those of one to those of a later. -/
theorem pairwise_foldEach {R : ε → ε → Prop} {f : β → α → Trail ε φ β} {l : List α} {b : β}
    (within : ∀ c, ∀ a ∈ l, (f c a).entries.Pairwise R)
    (between : l.Pairwise fun a a' =>
      ∀ c c', ∀ x ∈ (f c a).entries, ∀ y ∈ (f c' a').entries, R x y) :
    (foldEach f b l).entries.Pairwise R := by
  induction l generalizing b with
  | nil => exact .nil
  | cons a l ih =>
    obtain ⟨first, between⟩ := List.pairwise_cons.mp between
    have here := within b a List.mem_cons_self
    rw [foldEach]
    cases h : (f b a).outcome with
    | error e =>
      rw [bind, h]
      exact here
    | ok c =>
      rw [entries_bind h, List.pairwise_append]
      refine ⟨here, ih (fun c a' ha => within c a' (List.mem_cons_of_mem _ ha)) between,
        fun x hx y hy => ?_⟩
      obtain ⟨c', a', ha, hy⟩ := mem_entries_foldEach hy
      exact first a' ha b c' x hx y hy

theorem count_foldEach [BEq ε] [LawfulBEq ε] {f : β → α → Trail ε φ β} {e : ε}
    (none : ∀ b a, (f b a).entries.count e = 0) (b : β) (l : List α) :
    (foldEach f b l).entries.count e = 0 := by
  rw [List.count_eq_zero]
  intro h
  obtain ⟨c, a, _, he⟩ := mem_entries_foldEach h
  exact List.count_eq_zero.mp (none c a) he

/-- Steps that all come to their end leave their entries one after the other. -/
theorem each_ok {f : α → Trail ε φ Unit} {g : α → List ε} {l : List α}
    (h : ∀ a ∈ l, f a = ⟨g a, .ok ()⟩) : each f l = ⟨l.flatMap g, .ok ()⟩ := by
  induction l with
  | nil => rfl
  | cons a l ih =>
    rw [each, h a List.mem_cons_self, ih fun b hb => h b (List.mem_cons_of_mem _ hb)]
    simp [bind]

theorem foldOver_count_ok {f : Nat × α → Trail ε φ Unit} {g : α → List ε} {l : List α}
    (h : ∀ n, ∀ a ∈ l, f (n, a) = ⟨g a, .ok ()⟩) (n : Nat) :
    foldOver (fun n a => (f (n, a)).bind fun _ => pure (n + 1)) n ⟨l, .ok ()⟩ =
      ⟨l.flatMap g, .ok (n + l.length)⟩ := by
  have fold : foldEach (fun n a => (f (n, a)).bind fun _ => pure (n + 1)) n l =
      ⟨l.flatMap g, .ok (n + l.length)⟩ := by
    induction l generalizing n with
    | nil => rfl
    | cons a l ih =>
      have step := h n a List.mem_cons_self
      rw [foldEach, step, bind_assoc, bind_pure,
        ih (fun n b hb => h n b (List.mem_cons_of_mem _ hb)) (n + 1)]
      simp [bind, Nat.add_assoc, Nat.add_comm 1]
  rw [foldOver, fold]
  simp [bind, Except.map]

/-- Counted steps, with `f` told how many there were before. -/
def counted (f : Nat × α → Trail ε φ Unit) (n : Nat) (a : α) : Trail ε φ Nat :=
  (f (n, a)).bind fun _ => pure (n + 1)

theorem entries_bind_silent (x : Trail ε φ α) {f : α → Trail ε φ β} (silent : ∀ a, (f a).entries = []) :
    (x.bind f).entries = x.entries := by
  obtain ⟨l, o⟩ := x
  cases o with
  | error e => rfl
  | ok a => simp [bind, silent]

theorem entries_counted (f : Nat × α → Trail ε φ Unit) (n : Nat) (a : α) :
    (counted f n a).entries = (f (n, a)).entries := entries_bind_silent _ fun _ => rfl

/-- Counted steps that all come to their end leave their entries one after the other. -/
theorem foldEach_counted_eq {f : Nat × α → Trail ε φ Unit} {l : List α} (n : Nat)
    (h : ∀ n, ∀ a ∈ l, (f (n, a)).outcome = .ok ()) :
    foldEach (counted f) n l =
      ⟨(l.zipIdx n).flatMap fun p => (f (p.2, p.1)).entries, .ok (n + l.length)⟩ := by
  induction l generalizing n with
  | nil => rfl
  | cons a l ih =>
    have step : counted f n a = ⟨(f (n, a)).entries, .ok (n + 1)⟩ := by
      simp [counted, bind, pure, h n a List.mem_cons_self]
    have rest := ih (n + 1) fun n b hb => h n b (List.mem_cons_of_mem _ hb)
    rw [foldEach, step]
    simp [bind, rest, List.zipIdx_cons, Nat.add_assoc, Nat.add_comm 1]

/-- Steps that leave one entry of a kind each: as many of that kind as there were steps, in order,
and all of them in a pass that comes to its end. -/
theorem filterMap_entries_counted {δ : Type} {g : ε → Option δ} {f : Nat × α → Trail ε φ Unit}
    {k : α → δ} (own : ∀ n a, (f (n, a)).entries.filterMap g = [k a]) (n : Nat) (l : List α) :
    (foldEach (counted f) n l).entries.filterMap g <+: l.map k ∧
      ∀ m, (foldEach (counted f) n l).outcome = .ok m →
        (foldEach (counted f) n l).entries.filterMap g = l.map k := by
  induction l generalizing n with
  | nil => exact ⟨List.prefix_refl _, fun _ _ => rfl⟩
  | cons a l ih =>
    have here : (counted f n a).entries.filterMap g = [k a] := by rw [entries_counted, own]
    rw [foldEach]
    cases h : (counted f n a).outcome with
    | error e =>
      rw [bind, h]
      refine ⟨?_, fun _ ends => by cases ends⟩
      rw [here]
      exact ⟨l.map k, rfl⟩
    | ok m =>
      obtain ⟨begun, all⟩ := ih m
      rw [entries_bind h, List.filterMap_append, here, List.map_cons]
      refine ⟨(List.prefix_append_right_inj _).mpr begun, fun m' ends => ?_⟩
      obtain ⟨_, first, rest⟩ := outcome_bind_eq_ok.mp ends
      cases h.symm.trans first
      rw [all m' rest]
      rfl

theorem mem_entries_counted {f : Nat × α → Trail ε φ Unit} {n : Nat} {a : α} {e : ε}
    (h : e ∈ (counted f n a).entries) : e ∈ (f (n, a)).entries := by
  rcases mem_entries_bind h with h | ⟨_, _, h⟩
  · exact h
  · cases h

theorem foldEach_counted {f : Nat × α → Trail ε φ Unit} {l : List α} {n m : Nat}
    (h : (foldEach (counted f) n l).outcome = .ok m) : m = n + l.length := by
  induction l generalizing n with
  | nil =>
    cases h
    rfl
  | cons a l ih =>
    obtain ⟨k, step, rest⟩ := outcome_bind_eq_ok.mp h
    obtain ⟨_, _, next⟩ := outcome_bind_eq_ok.mp step
    cases next
    rw [ih rest, List.length_cons]
    omega

/-- A counted pass that comes to its end, seen from one of its steps. -/
theorem foldEach_counted_ok {f : Nat × α → Trail ε φ Unit} {before after : List α} {a : α}
    {n m : Nat} (h : (foldEach (counted f) n (before ++ a :: after)).outcome = .ok m) :
    (f (n + before.length, a)).outcome = .ok () ∧ ∃ earlier later,
      (foldEach (counted f) n (before ++ a :: after)).entries =
        earlier ++ ((f (n + before.length, a)).entries ++ later) ∧
      ∀ e ∈ later, ∃ k, ∃ b ∈ after, e ∈ (f (k, b)).entries := by
  rw [foldEach_append] at h ⊢
  obtain ⟨k, first, h⟩ := outcome_bind_eq_ok.mp h
  cases foldEach_counted first
  obtain ⟨k, step, _⟩ := outcome_bind_eq_ok.mp h
  obtain ⟨_, here, _⟩ := outcome_bind_eq_ok.mp step
  have entries : (counted f (n + before.length) a).entries = _ := entries_bind here
  refine ⟨here, (foldEach (counted f) n before).entries, (foldEach (counted f) k after).entries,
    ?_, fun e he => ?_⟩
  · rw [entries_bind first, foldEach, entries_bind step, entries]
    simp [pure]
  · obtain ⟨k, b, hb, he⟩ := mem_entries_foldEach he
    exact ⟨k, b, hb, mem_entries_counted he⟩

end Backfill.Trail
