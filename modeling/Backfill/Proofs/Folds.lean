import Backfill.Error
import Backfill.Proofs.Trail

/-!
Folds whose steps can fail: what every step keeps, and what steps with keys of their own do.
-/

namespace Backfill

variable {ε σ α β κ ν : Type}

theorem bind_eq_ok {x : Except ε α} {f : α → Except ε β} {b : β} :
    x >>= f = .ok b ↔ ∃ a, x = .ok a ∧ f a = .ok b := by
  cases x with
  | error e => simp [bind, Except.bind]
  | ok a => simp [bind, Except.bind]

theorem bind_eq_error {x : Except ε α} {f : α → Except ε β} {e : ε} :
    x >>= f = .error e ↔ x = .error e ∨ ∃ a, x = .ok a ∧ f a = .error e := by
  cases x with
  | error e => simp [bind, Except.bind]
  | ok a => simp [bind, Except.bind]

theorem map_eq_ok {x : Except ε α} {f : α → β} {b : β} :
    x.map f = .ok b ↔ ∃ a, x = .ok a ∧ f a = b := by
  cases x with
  | error e => simp [Except.map]
  | ok a => simp [Except.map]

theorem toOption_eq_some {x : Except ε α} {a : α} : x.toOption = some a ↔ x = .ok a := by
  cases x with
  | error e => simp [Except.toOption]
  | ok a => simp [Except.toOption]

theorem foldlM_keeps {f : σ → α → Except ε σ} {P : σ → Prop} {l : List α}
    (step : ∀ a ∈ l, ∀ s s', P s → f s a = .ok s' → P s') {s s' : σ} (hs : P s)
    (h : l.foldlM f s = .ok s') : P s' := by
  induction l generalizing s with
  | nil =>
    cases h
    exact hs
  | cons a l ih =>
    rw [List.foldlM_cons] at h
    obtain ⟨m, hm, h⟩ := bind_eq_ok.mp h
    exact ih (fun b hb => step b (List.mem_cons_of_mem _ hb))
      (step a List.mem_cons_self s m hs hm) h

/-- `x` comes to its end, with something of which `P` holds. -/
def Yields (x : Except ε α) (P : α → Prop) : Prop := ∃ a, x = .ok a ∧ P a

theorem yields_ok {P : α → Prop} {a : α} (h : P a) : Yields (.ok a : Except ε α) P := ⟨a, rfl, h⟩

theorem Yields.bind {x : Except ε α} {f : α → Except ε β} {P : α → Prop} {Q : β → Prop}
    (hx : Yields x P) (hf : ∀ a, P a → Yields (f a) Q) : Yields (x >>= f) Q := by
  obtain ⟨a, rfl, ha⟩ := hx
  exact hf a ha

theorem yields_foldlM {f : σ → α → Except ε σ} {P : σ → Prop} {l : List α}
    (step : ∀ a ∈ l, ∀ s, P s → Yields (f s a) P) {s : σ} (hs : P s) :
    Yields (l.foldlM f s) P := by
  induction l generalizing s with
  | nil => exact yields_ok hs
  | cons a l ih =>
    rw [List.foldlM_cons]
    exact (step a List.mem_cons_self s hs).bind fun m hm =>
      ih (fun b hb => step b (List.mem_cons_of_mem _ hb)) hm

theorem foldlM_total {f : σ → α → Except ε σ} {P : σ → Prop} {l : List α}
    (step : ∀ a ∈ l, ∀ s, P s → ∃ s', f s a = .ok s' ∧ P s') {s : σ} (hs : P s) :
    ∃ s', l.foldlM f s = .ok s' := by
  obtain ⟨s', done, _⟩ := yields_foldlM step hs
  exact ⟨s', done⟩

/-- What one of the steps brings about and every step keeps holds in the end. -/
theorem foldlM_reaches {f : σ → α → Except ε σ} {P Q : σ → Prop} {l : List α} {a : α} (ha : a ∈ l)
    (keep : ∀ b ∈ l, ∀ s s', P s → f s b = .ok s' → P s')
    (sets : ∀ s s', P s → f s a = .ok s' → Q s')
    (stays : ∀ b ∈ l, ∀ s s', P s → Q s → f s b = .ok s' → Q s') {s s' : σ} (hs : P s)
    (h : l.foldlM f s = .ok s') : Q s' := by
  obtain ⟨before, after, rfl⟩ := List.append_of_mem ha
  rw [List.foldlM_append] at h
  obtain ⟨m, hm, h⟩ := bind_eq_ok.mp h
  rw [List.foldlM_cons] at h
  obtain ⟨n, hn, h⟩ := bind_eq_ok.mp h
  have first : P m := foldlM_keeps (fun b hb => keep b (List.mem_append_left _ hb)) hs hm
  refine (foldlM_keeps (P := fun s => P s ∧ Q s) (fun b hb t t' ht step => ?_)
    ⟨keep a ha m n first hn, sets m n first hn⟩ h).2
  have hb : b ∈ before ++ a :: after := List.mem_append_right _ (List.mem_cons_of_mem _ hb)
  exact ⟨keep b hb t t' ht.1 step, stays b hb t t' ht.1 ht.2 step⟩

/-- Each step changes what is seen under its key, and nothing else. -/
theorem foldlM_keyed {f : σ → α → Except ε σ} (P : σ → Prop) (key : α → κ) (view : σ → κ → ν)
    (change : α → ν → ν → Prop) {l : List α}
    (step : ∀ a ∈ l, ∀ s s', P s → f s a = .ok s' → P s' ∧
      change a (view s (key a)) (view s' (key a)) ∧ ∀ k, key a ≠ k → view s' k = view s k)
    (distinct : l.Pairwise (key · ≠ key ·)) {s s' : σ} (hs : P s) (h : l.foldlM f s = .ok s') :
    P s' ∧ (∀ a ∈ l, change a (view s (key a)) (view s' (key a))) ∧
      ∀ k, (∀ a ∈ l, key a ≠ k) → view s' k = view s k := by
  induction l generalizing s with
  | nil =>
    cases h
    exact ⟨hs, fun a ha => (List.not_mem_nil ha).elim, fun _ _ => rfl⟩
  | cons a l ih =>
    obtain ⟨apart, distinct⟩ := List.pairwise_cons.mp distinct
    rw [List.foldlM_cons] at h
    obtain ⟨m, hm, h⟩ := bind_eq_ok.mp h
    obtain ⟨keep, here, others⟩ := step a List.mem_cons_self s m hs hm
    obtain ⟨keep', later, rest⟩ :=
      ih (fun b hb => step b (List.mem_cons_of_mem _ hb)) distinct keep h
    refine ⟨keep', fun b hb => ?_, fun k hk => ?_⟩
    · rcases List.mem_cons.mp hb with rfl | hb
      · rw [rest (key b) fun c hc => (apart c hc).symm]
        exact here
      · rw [← others (key b) (apart b hb)]
        exact later b hb
    · rw [rest k fun c hc => hk c (List.mem_cons_of_mem _ hc), others k (hk a List.mem_cons_self)]

/-- Steps with keys of their own all come to their end when each does from what was first seen under
its key. -/
theorem foldlM_keyed_total {f : σ → α → Except ε σ} (key : α → κ) (view : σ → κ → ν) {l : List α}
    {s : σ} (step : ∀ a ∈ l, ∀ m, view m (key a) = view s (key a) →
      ∃ m', f m a = .ok m' ∧ ∀ k, key a ≠ k → view m' k = view m k)
    (distinct : l.Pairwise (key · ≠ key ·)) : ∃ s', l.foldlM f s = .ok s' := by
  suffices ends : ∀ m, (∀ a ∈ l, view m (key a) = view s (key a)) → ∃ s', l.foldlM f m = .ok s' from
    ends s fun _ _ => rfl
  induction l with
  | nil => exact fun m _ => ⟨m, rfl⟩
  | cons a l ih =>
    intro m same
    obtain ⟨apart, distinct⟩ := List.pairwise_cons.mp distinct
    obtain ⟨n, hn, others⟩ := step a List.mem_cons_self m (same a List.mem_cons_self)
    obtain ⟨s', rest⟩ := ih (fun b hb => step b (List.mem_cons_of_mem _ hb)) distinct n fun b hb => by
      rw [others (key b) (apart b hb)]
      exact same b (List.mem_cons_of_mem _ hb)
    refine ⟨s', ?_⟩
    rw [List.foldlM_cons, hn]
    exact rest

theorem foldl_keyed {f : σ → α → σ} (key : α → κ) (view : σ → κ → ν) (change : α → ν → ν)
    (step : ∀ a s, view (f s a) (key a) = change a (view s (key a)) ∧
      ∀ k, key a ≠ k → view (f s a) k = view s k)
    {l : List α} (distinct : l.Pairwise (key · ≠ key ·)) (s : σ) :
    (∀ a ∈ l, view (l.foldl f s) (key a) = change a (view s (key a))) ∧
      ∀ k, (∀ a ∈ l, key a ≠ k) → view (l.foldl f s) k = view s k := by
  have fold : l.foldlM (fun s a => (.ok (f s a) : Except Unit σ)) s = .ok (l.foldl f s) :=
    List.foldlM_pure
  refine (foldlM_keyed (fun _ => True) key view (fun a old new => new = change a old)
    (fun a _ m m' _ h => ?_) distinct trivial fold).2
  cases h
  exact ⟨trivial, step a m⟩

/-- Each step adds to what is seen, and the whole fold adds what its steps add. -/
theorem foldlM_adds {χ : Type} {f : σ → α → Except ε σ} (P : σ → Prop) (sees : σ → χ → Prop)
    (adds : α → χ → Prop) {l : List α}
    (step : ∀ a ∈ l, ∀ s s', P s → f s a = .ok s' →
      P s' ∧ ∀ x, sees s' x ↔ sees s x ∨ adds a x)
    {s s' : σ} (hs : P s) (h : l.foldlM f s = .ok s') :
    P s' ∧ ∀ x, sees s' x ↔ sees s x ∨ ∃ a ∈ l, adds a x := by
  induction l generalizing s with
  | nil =>
    cases h
    exact ⟨hs, fun x => by simp⟩
  | cons a l ih =>
    rw [List.foldlM_cons] at h
    obtain ⟨m, hm, h⟩ := bind_eq_ok.mp h
    obtain ⟨keep, here⟩ := step a List.mem_cons_self s m hs hm
    obtain ⟨keep', later⟩ := ih (fun b hb => step b (List.mem_cons_of_mem _ hb)) keep h
    refine ⟨keep', fun x => ?_⟩
    rw [later, here, or_assoc]
    simp only [List.mem_cons, exists_eq_or_imp]

theorem foldl_adds {χ : Type} {f : σ → α → σ} (P : σ → Prop) (sees : σ → χ → Prop)
    (adds : α → χ → Prop) {l : List α}
    (step : ∀ a ∈ l, ∀ s, P s → P (f s a) ∧ ∀ x, sees (f s a) x ↔ sees s x ∨ adds a x)
    {s : σ} (hs : P s) :
    P (l.foldl f s) ∧ ∀ x, sees (l.foldl f s) x ↔ sees s x ∨ ∃ a ∈ l, adds a x := by
  have fold : l.foldlM (fun s a => (.ok (f s a) : Except Unit σ)) s = .ok (l.foldl f s) :=
    List.foldlM_pure
  refine foldlM_adds P sees adds (fun a ha m m' hm h => ?_) hs fold
  cases h
  exact step a ha m hm

/-- If anything, `bad` goes wrong. -/
def FailsOnly (bad : ε) (x : Except ε α) : Prop := ∀ e, x = .error e → e = bad

variable {bad : ε}

theorem failsOnly_ok (a : α) : FailsOnly bad (.ok a) := fun _ h => by cases h

theorem FailsOnly.bind {x : Except ε α} {f : α → Except ε β} (hx : FailsOnly bad x)
    (hf : ∀ a, x = .ok a → FailsOnly bad (f a)) : FailsOnly bad (x >>= f) := by
  cases x with
  | error e => exact fun e' h => by cases h; exact hx e rfl
  | ok a => exact hf a rfl

theorem FailsOnly.map {x : Except ε α} (hx : FailsOnly bad x) (f : α → β) :
    FailsOnly bad (x.map f) := by
  cases x with
  | error e => exact fun e' h => by cases h; exact hx e rfl
  | ok a => exact failsOnly_ok (f a)

theorem FailsOnly.mapError {ε' : Type} {x : Except ε α} (hx : FailsOnly bad x) (f : ε → ε') :
    FailsOnly (f bad) (x.mapError f) := by
  cases x with
  | error e => exact fun e' h => by cases h; exact congrArg f (hx e rfl)
  | ok a => exact failsOnly_ok a

theorem failsOnly_foldlM {f : σ → α → Except ε σ} {l : List α}
    (step : ∀ s, ∀ a ∈ l, FailsOnly bad (f s a)) (s : σ) : FailsOnly bad (l.foldlM f s) := by
  induction l generalizing s with
  | nil => exact failsOnly_ok s
  | cons a l ih =>
    rw [List.foldlM_cons]
    exact (step s a List.mem_cons_self).bind fun m _ =>
      ih (fun s b hb => step s b (List.mem_cons_of_mem _ hb)) m

end Backfill
