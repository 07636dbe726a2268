/-!
Evaluations that leave entries on the way. A failure ends the evaluation but takes none of the
entries back, and what would have come after it leaves none.
-/

namespace Backfill

structure Trail (ε φ α : Type) where
  entries : List ε
  outcome : Except φ α

namespace Trail

variable {ε ε' φ α β γ : Type}

def pure (a : α) : Trail ε φ α := ⟨[], .ok a⟩

def fail (e : φ) : Trail ε φ α := ⟨[], .error e⟩

def note (e : ε) : Trail ε φ Unit := ⟨[e], .ok ()⟩

def notes (l : List ε) : Trail ε φ Unit := ⟨l, .ok ()⟩

def bind (x : Trail ε φ α) (f : α → Trail ε φ β) : Trail ε φ β :=
  match x.outcome with
  | .error e => ⟨x.entries, .error e⟩
  | .ok a => ⟨x.entries ++ (f a).entries, (f a).outcome⟩

instance : Monad (Trail ε φ) where
  pure := pure
  bind := bind

/-- An evaluation that leaves no entries. -/
def lift (x : Except φ α) : Trail ε φ α := ⟨[], x⟩

/-- Each element in turn, until one fails. -/
def each (f : α → Trail ε φ Unit) : List α → Trail ε φ Unit
  | [] => pure ()
  | a :: r => (f a).bind fun _ => each f r

/-- Each element in turn with a state, until one fails. -/
def foldEach (f : β → α → Trail ε φ β) (b : β) : List α → Trail ε φ β
  | [] => pure b
  | a :: r => (f b a).bind fun c => foldEach f c r

/-- The entries of `x` in turn with a state, and then what became of `x`. -/
def foldOver (f : β → α → Trail ε φ β) (b : β) (x : Trail α φ γ) : Trail ε φ β :=
  (foldEach f b x.entries).bind fun c => ⟨[], x.outcome.map fun _ => c⟩

@[simp] theorem bind_pure (a : α) (f : α → Trail ε φ β) : (pure a : Trail ε φ α).bind f = f a := rfl

theorem bind_assoc (x : Trail ε φ α) (f : α → Trail ε φ β) (g : β → Trail ε φ γ) :
    (x.bind f).bind g = x.bind fun a => (f a).bind g := by
  obtain ⟨l, o⟩ := x
  cases o with
  | error e => rfl
  | ok a =>
    simp only [bind]
    cases (f a).outcome <;> simp

theorem bind_pure_right (x : Trail ε φ α) : x.bind pure = x := by
  obtain ⟨l, o⟩ := x
  cases o with
  | error e => rfl
  | ok a => simp [bind, pure]

instance : LawfulMonad (Trail ε φ) :=
  LawfulMonad.mk' (Trail ε φ) bind_pure_right (fun _ _ => rfl) bind_assoc

theorem foldEach_append (f : β → α → Trail ε φ β) (b : β) (xs ys : List α) :
    foldEach f b (xs ++ ys) = (foldEach f b xs).bind fun c => foldEach f c ys := by
  induction xs generalizing b with
  | nil => rfl
  | cons x xs ih => simp only [List.cons_append, foldEach, ih, bind_assoc]

@[simp] theorem bind_lift_ok (a : α) (f : α → Trail ε φ β) : (lift (.ok a)).bind f = f a := rfl

theorem foldOver_bind {δ : Type} (f : β → α → Trail ε φ β) (b : β) (x : Trail α φ γ)
    (y : Trail α φ δ) :
    foldOver f b (x.bind fun _ => y) = (foldOver f b x).bind fun c => foldOver f c y := by
  obtain ⟨l, o⟩ := x
  cases o with
  | error e =>
    change (foldEach f b l).bind _ = ((foldEach f b l).bind fun c => fail e).bind _
    rw [bind_assoc]
    rfl
  | ok a =>
    change (foldEach f b (l ++ y.entries)).bind _ = ((foldEach f b l).bind pure).bind _
    rw [foldEach_append, bind_pure_right, bind_assoc]
    rfl

theorem foldOver_note_bind (f : β → α → Trail ε φ β) (b : β) (a : α) (x : Trail α φ γ) :
    foldOver f b ((note a).bind fun _ => x) = (f b a).bind fun c => foldOver f c x := by
  exact bind_assoc (f b a) (fun c => foldEach f c x.entries) fun c => ⟨[], x.outcome.map fun _ => c⟩

end Trail

end Backfill
