import Backfill.Proofs.MergeLaws
import Backfill.Proofs.ReplayIndex
import Mathlib

/-!
What the counters of a read of the commit log say. A counter weighs every event, and what a read
weighs is the sum of what its steps do: so it is enough to weigh one step of each kind.
-/

namespace Backfill

section Weights

variable {ε α : Type} {w v : ε → Nat}

/-- What the elements of a list weigh together. -/
def weigh (w : ε → Nat) (l : List ε) : Nat := (l.map w).sum

@[simp] theorem weigh_nil : weigh w [] = 0 := rfl

@[simp] theorem weigh_cons (a : ε) (l : List ε) : weigh w (a :: l) = w a + weigh w l :=
  List.sum_cons

@[simp] theorem weigh_append (a b : List ε) : weigh w (a ++ b) = weigh w a + weigh w b := by
  rw [weigh, List.map_append, List.sum_append]
  rfl

theorem weigh_map (f : α → ε) (l : List α) : weigh w (l.map f) = weigh (fun a => w (f a)) l := by
  rw [weigh, List.map_map]
  rfl

theorem weigh_flatMap (f : α → List ε) (l : List α) :
    weigh w (l.flatMap f) = weigh (fun a => weigh w (f a)) l := by
  induction l with
  | nil => rfl
  | cons a l ih => rw [List.flatMap_cons, weigh_append, ih, weigh_cons]

theorem weigh_filterMap (f : α → Option ε) (l : List α) :
    weigh w (l.filterMap f) = weigh (fun a => (f a).elim 0 w) l := by
  induction l with
  | nil => rfl
  | cons a l ih => cases h : f a <;> simp [h, ih]

theorem weigh_filter (p : ε → Bool) (l : List ε) :
    weigh w (l.filter p) = weigh (fun a => if p a then w a else 0) l := by
  induction l with
  | nil => rfl
  | cons a l ih => cases h : p a <;> simp [h, ih]

theorem weigh_congr {l : List ε} (h : ∀ a ∈ l, w a = v a) : weigh w l = weigh v l :=
  congrArg List.sum (List.map_congr_left h)

theorem weigh_eq_zero {l : List ε} (h : ∀ a ∈ l, w a = 0) : weigh w l = 0 := by
  refine List.sum_eq_zero fun n hn => ?_
  obtain ⟨a, ha, rfl⟩ := List.mem_map.mp hn
  exact h a ha

theorem weigh_const (k : Nat) (l : List ε) : weigh (fun _ => k) l = l.length * k := by
  rw [weigh, List.map_const', List.sum_replicate_nat]

theorem weigh_ite (p : ε → Bool) (l : List ε) :
    weigh (fun a => if p a then 1 else 0) l = l.countP p := by
  induction l with
  | nil => rfl
  | cons a l ih => rw [weigh_cons, ih, List.countP_cons, Nat.add_comm]

theorem weigh_add (l : List ε) : weigh (fun a => w a + v a) l = weigh w l + weigh v l :=
  List.sum_map_add

theorem weigh_perm {l l' : List ε} (same : l.Perm l') : weigh w l = weigh w l' :=
  (same.map w).sum_eq

end Weights

namespace Event

theorem total_eq_weigh (m : Metric) (l : List Event) : total m l = weigh (amount m) l := by
  induction l with
  | nil => rfl
  | cons e l ih => rw [total, weigh_cons, ih]

/-- No counter grows. -/
def Uncounted (e : Event) : Prop := ∀ m, e.amount m = 0

@[simp] theorem amount_counted (m : Metric) (n : Nat) : (counted m n).amount m = n := if_pos rfl

theorem amount_counted_of_ne {m m' : Metric} (h : m' ≠ m) (n : Nat) : (counted m' n).amount m = 0 :=
  if_neg h

end Event

namespace Trail

variable {ε φ α β : Type} {w : ε → Nat}

theorem weigh_bind {x : Trail ε φ α} {f : α → Trail ε φ β} {a : α} (h : x.outcome = .ok a) :
    weigh w (x.bind f).entries = weigh w x.entries + weigh w (f a).entries := by
  rw [entries_bind h, weigh_append]

theorem mem_bind_left {x : Trail ε φ α} {f : α → Trail ε φ β} {e : ε} (h : e ∈ x.entries) :
    e ∈ (x.bind f).entries := by
  obtain ⟨l, o⟩ := x
  cases o with
  | error _ => exact h
  | ok a => exact List.mem_append_left _ h

theorem mem_bind_right {x : Trail ε φ α} {f : α → Trail ε φ β} {a : α} (h : x.outcome = .ok a)
    {e : ε} (he : e ∈ (f a).entries) : e ∈ (x.bind f).entries := by
  rw [entries_bind h]
  exact List.mem_append_right _ he

/-- Steps that each weigh what its element says, where they come to their end. -/
theorem weigh_foldEach {f : β → α → Trail ε φ β} {g : α → Nat} {l : List α}
    (step : ∀ a ∈ l, ∀ b c, (f b a).outcome = .ok c → weigh w (f b a).entries = g a) {b c : β}
    (h : (foldEach f b l).outcome = .ok c) : weigh w (foldEach f b l).entries = weigh g l := by
  induction l generalizing b with
  | nil => rfl
  | cons a l ih =>
    obtain ⟨m, here, rest⟩ := outcome_bind_eq_ok.mp h
    rw [foldEach, weigh_bind here, step a List.mem_cons_self b m here,
      ih (fun d hd => step d (List.mem_cons_of_mem _ hd)) rest, weigh_cons]

/-- Steps with keys of their own, each of which weighs what is then seen under its key. -/
theorem weigh_keyed {κ ν : Type} {f : β → α → Trail ε φ β} (key : α → κ) (view : β → κ → ν)
    {g : α → ν → Nat} {l : List α} {b c : β}
    (step : ∀ a ∈ l, ∀ m m', view m (key a) = view b (key a) → (f m a).outcome = .ok m' →
      weigh w (f m a).entries = g a (view m' (key a)) ∧ ∀ k, key a ≠ k → view m' k = view m k)
    (distinct : l.Pairwise (key · ≠ key ·)) (h : (foldEach f b l).outcome = .ok c) :
    weigh w (foldEach f b l).entries = weigh (fun a => g a (view c (key a))) l ∧
      ∀ k, (∀ a ∈ l, key a ≠ k) → view c k = view b k := by
  suffices from_any : ∀ m, (∀ a ∈ l, view m (key a) = view b (key a)) →
      (foldEach f m l).outcome = .ok c →
      weigh w (foldEach f m l).entries = weigh (fun a => g a (view c (key a))) l ∧
        ∀ k, (∀ a ∈ l, key a ≠ k) → view c k = view m k from from_any b (fun _ _ => rfl) h
  clear h
  induction l with
  | nil =>
    intro m _ h
    cases h
    exact ⟨rfl, fun _ _ => rfl⟩
  | cons a l ih =>
    intro m same h
    obtain ⟨apart, distinct⟩ := List.pairwise_cons.mp distinct
    obtain ⟨m', here, rest⟩ := outcome_bind_eq_ok.mp h
    obtain ⟨weighs, others⟩ := step a List.mem_cons_self m m' (same a List.mem_cons_self) here
    obtain ⟨later, untouched⟩ := ih (fun b hb => step b (List.mem_cons_of_mem _ hb)) distinct m'
      (fun b hb => (others (key b) (apart b hb)).trans (same b (List.mem_cons_of_mem _ hb))) rest
    refine ⟨?_, fun k hk => ?_⟩
    · rw [foldEach, weigh_bind here, weighs, later, weigh_cons,
        untouched (key a) fun b hb => (apart b hb).symm]
    · rw [untouched k fun b hb => hk b (List.mem_cons_of_mem _ hb),
        others k (hk a List.mem_cons_self)]

/-- Steps that come to their end, one after the other. -/
theorem each_ends {f : α → Trail ε φ Unit} {l : List α} (h : (each f l).outcome = .ok ()) :
    (each f l).entries = l.flatMap fun a => (f a).entries := by
  induction l with
  | nil => rfl
  | cons a l ih =>
    obtain ⟨_, here, rest⟩ := outcome_bind_eq_ok.mp h
    rw [each, entries_bind here, ih rest, List.flatMap_cons]

/-- Counted steps that come to their end do so one after the other. -/
theorem foldEach_counted_ends {f : Nat × α → Trail ε φ Unit} {l : List α} {n m : Nat}
    (h : (foldEach (counted f) n l).outcome = .ok m) :
    (∀ p ∈ l.zipIdx n, (f (p.2, p.1)).outcome = .ok ()) ∧
      (foldEach (counted f) n l).entries =
        (l.zipIdx n).flatMap fun p => (f (p.2, p.1)).entries := by
  induction l generalizing n with
  | nil => exact ⟨fun _ hp => (List.not_mem_nil hp).elim, rfl⟩
  | cons a l ih =>
    obtain ⟨_, step, rest⟩ := outcome_bind_eq_ok.mp h
    obtain ⟨_, here, next⟩ := outcome_bind_eq_ok.mp step
    cases next
    obtain ⟨ends, entries⟩ := ih rest
    rw [List.zipIdx_cons]
    refine ⟨fun p hp => ?_, ?_⟩
    · rcases List.mem_cons.mp hp with rfl | hp
      · exact here
      · exact ends p hp
    · rw [foldEach, entries_bind step, entries_counted, entries, List.flatMap_cons]

end Trail

/-- How many intervals are returned as missing of the namespaces that are asked for something in the
phase. -/
def Recoveries.missingOf (found : Recoveries) (phase : Phase) (requests : List Request) : Nat :=
  weigh (fun r => (found.get? r.id).elim 0 fun f => (f.missing phase).size)
    (requests.filter fun r => !(r.ask phase).isEmpty)

theorem weigh_phaseDone (provider : Provider) (phase : Phase) (missing : Coverage) :
    weigh (Event.amount (.missing provider phase)) (phaseDone provider phase missing) =
      missing.size := by
  have reads : (Event.counted (.reads provider phase) 1).amount (.missing provider phase) = 0 := rfl
  rw [phaseDone, weigh_cons, reads, Nat.zero_add]
  split
  · rename_i none
    rw [weigh_nil, none]
  · rw [weigh_cons, Event.amount_counted, weigh_nil, Nat.add_zero]

/-- Other counters do not notice. -/
theorem weigh_phaseDone_of_ne {provider : Provider} {phase : Phase} {m : Metric}
    (reads : m ≠ .reads provider phase) (missing : m ≠ .missing provider phase) (c : Coverage) :
    weigh (Event.amount m) (phaseDone provider phase c) = 0 := by
  rw [phaseDone, weigh_cons, Event.amount_counted_of_ne reads.symm, Nat.zero_add]
  split
  · rfl
  · rw [weigh_cons, Event.amount_counted_of_ne missing.symm]
    rfl

theorem weigh_phaseDone_apart {phase phase' : Phase} (other : phase ≠ phase') (provider : Provider)
    (c : Coverage) :
    weigh (Event.amount (.missing provider phase')) (phaseDone provider phase c) = 0 :=
  weigh_phaseDone_of_ne (m := .missing provider phase') nofun
    (fun same => other (by cases same; rfl)) c

namespace CommitLog

variable {o : Options} {requests : List Request} {found : Recoveries} {w : Event → Nat}

theorem uncounted_restoreVolume {files : Files} {size : Duration} {shard : Shard} {replay : Replay}
    {v : Instant × SnapshotInfo} {e : Event}
    (h : e ∈ (restoreVolume files size shard replay v).entries) : e.Uncounted := by
  rcases Trail.mem_entries_bind h with h | ⟨_, _, h⟩
  · cases List.mem_singleton.mp h
    exact fun _ => rfl
  · split at h <;> cases h

theorem uncounted_restoreShard {files : Files} {r : Request} {replay : Replay}
    {a : Shard × TimeSet} {e : Event} (h : e ∈ (restoreShard files r replay a).entries) :
    e.Uncounted := by
  rcases Trail.mem_entries_bind h with h | ⟨_, _, h⟩
  · cases List.mem_singleton.mp h
    exact fun _ => rfl
  · split at h
    · cases h
    · rcases Trail.mem_entries_bind h with h | ⟨_, _, h⟩
      · cases h
      · obtain ⟨_, _, _, h⟩ := Trail.mem_entries_foldEach h
        exact uncounted_restoreVolume h

theorem uncounted_restoreRequest {files : Files} {replays : Replays} {r : Request} {e : Event}
    (h : e ∈ (restoreRequest files replays r).entries) : e.Uncounted := by
  unfold restoreRequest at h
  split at h
  · rcases Trail.mem_entries_bind h with h | ⟨_, _, h⟩
    · obtain ⟨_, _, _, h⟩ := Trail.mem_entries_foldEach h
      exact uncounted_restoreShard h
    · cases h
  · cases h

/-- Every entry that is taken in is counted once, for what became of it. -/
theorem weigh_applyEntry {k : Nat} (entry : ∀ fate, w (.counted (.logEntries fate) 1) = k)
    {replays replays' : Replays} {e : LogEntry}
    (h : (applyEntry replays e).outcome = .ok replays') :
    weigh w (applyEntry replays e).entries = k := by
  unfold applyEntry at h ⊢
  split at h
  · exact entry .outOfRange
  · obtain ⟨⟨after, fate⟩, applied, h⟩ := Trail.outcome_bind_eq_ok.mp h
    apply (Trail.weigh_bind applied).trans
    rw [Nat.add_comm]
    exact entry fate

/-- What is read of the log. -/
def taken (o : Options) (requests : List Request) : List LogEntry :=
  if requests.all isIdle then []
  else match o.files.entries with
    | .ok items => beforeError items
    | .error _ => []

/-- A counter that knows of entries alone, or of phases alone, is told by those. -/
theorem weigh_read (blind : ∀ e : Event, e.Uncounted → w e = 0) {k : Nat}
    (entry : ∀ fate, w (.counted (.logEntries fate) 1) = k)
    (h : (read o requests).outcome = .ok found) :
    weigh w (read o requests).entries = (taken o requests).length * k +
      weigh (fun r => weigh w (phasesDone found r)) (requests.filter (!isIdle ·)) := by
  unfold read at h ⊢
  dsimp only at h ⊢
  by_cases none : (requests.filter (!isIdle ·)).isEmpty = true
  · have idle : requests.all isIdle = true := by
      simpa [List.filter_eq_nil_iff] using none
    rw [if_pos none, taken, if_pos idle, List.isEmpty_iff.mp none, List.length_nil, Nat.zero_mul]
    rfl
  · have busy : ¬ requests.all isIdle = true := by
      simpa [List.filter_eq_nil_iff] using none
    rw [if_neg none] at h ⊢
    obtain ⟨found', all, last⟩ := Trail.outcome_bind_eq_ok.mp h
    obtain ⟨_, _, last⟩ := Trail.outcome_bind_eq_ok.mp last
    cases last
    apply (Trail.weigh_bind all).trans
    have phases : weigh w ((Trail.notes ((requests.filter (!isIdle ·)).flatMap (phasesDone found)) :
        Run Unit) >>= fun _ => (pure found : Run Recoveries)).entries =
        weigh (fun r => weigh w (phasesDone found r)) (requests.filter (!isIdle ·)) := by
      rw [← weigh_flatMap]
      exact congrArg (weigh w) (List.append_nil _)
    rw [phases]
    refine congrArg (· + _) ?_
    unfold readAll at all ⊢
    obtain ⟨restored, hrestored, all⟩ := Trail.outcome_bind_eq_ok.mp all
    apply (Trail.weigh_bind hrestored).trans
    have restoring : weigh w (Trail.foldEach (restoreRequest o.files) (begin requests)
        requests).entries = 0 := weigh_eq_zero fun e he => by
      obtain ⟨_, _, _, he⟩ := Trail.mem_entries_foldEach he
      exact blind e (uncounted_restoreRequest he)
    rw [restoring, Nat.zero_add]
    obtain ⟨_, opened, all⟩ := Trail.outcome_bind_eq_ok.mp all
    apply (Trail.weigh_bind opened).trans
    have opening : weigh w (Trail.note .logOpened : Run Unit).entries = 0 :=
      blind _ fun _ => rfl
    rw [opening, Nat.zero_add, taken, if_neg busy]
    cases opens : o.files.entries with
    | error e =>
      rw [List.length_nil, Nat.zero_mul]
      rfl
    | ok items =>
      rw [opens] at all
      dsimp only at all ⊢
      obtain ⟨replayed, applied, all⟩ := Trail.outcome_bind_eq_ok.mp all
      apply (Trail.weigh_bind applied).trans
      rw [Trail.weigh_foldEach (fun _ _ _ _ => weigh_applyEntry entry) applied, weigh_const,
        readable_fst]
      exact congrArg (_ + weigh w ·) (Trail.entries_bind_silent _ fun _ => rfl)

theorem logOpened_mem_iff (h : (read o requests).outcome = .ok found) :
    .logOpened ∈ (read o requests).entries ↔ requests.all isIdle = false := by
  unfold read at h ⊢
  dsimp only at h ⊢
  by_cases none : (requests.filter (!isIdle ·)).isEmpty = true
  · have idle : requests.all isIdle = true := by
      simpa [List.filter_eq_nil_iff] using none
    rw [if_pos none, idle]
    exact ⟨fun h => (nomatch h), fun h => (nomatch h)⟩
  · have busy : requests.all isIdle = false := by
      simpa [List.filter_eq_nil_iff] using none
    rw [if_neg none] at h ⊢
    refine ⟨fun _ => busy, fun _ => ?_⟩
    obtain ⟨found', all, _⟩ := Trail.outcome_bind_eq_ok.mp h
    obtain ⟨restored, hrestored, _⟩ := Trail.outcome_bind_eq_ok.mp all
    refine Trail.mem_bind_left (Trail.mem_bind_right hrestored (Trail.mem_bind_left ?_))
    exact List.mem_cons_self

/-- Nothing is missing of an index that is not kept. -/
theorem index_missing_of_unindexed (distinct : (requests.map (·.id)).Nodup)
    (h : (read o requests).outcome = .ok found) {r : Request} (hr : r ∈ requests)
    (unindexed : r.policy.indexed = false) {f : Recovery} (hf : found.get? r.id = some f) :
    f.index.missing = .empty := by
  have ranges : r.indexRanges = .empty := by simp [Request.indexRanges, unindexed]
  cases opens : o.files.entries with
  | error e =>
    rw [read_unopened distinct opens h hr] at hf
    cases hf
    split
    · rfl
    · exact ranges
  | ok items =>
    obtain ⟨g, hg, idle, busy⟩ := read_replayed distinct opens h hr
    rw [hf] at hg
    cases hg
    cases hi : isIdle r with
    | true =>
      rw [idle hi]
      rfl
    | false =>
      obtain ⟨done, terms, unmarked, finished⟩ := (busy hi).finishIndex
      have none : done.indexRanges = .empty := by rw [Replay.indexRanges, terms, ranges]
      have bare : done.missingIndex = .empty := unmarked.canonical.ext .empty fun p =>
        ⟨fun hp => none ▸ unmarked.asked p hp, fun hp => absurd hp (Coverage.not_mem_empty p)⟩
      rw [(Replay.finishIndex_ok unmarked finished).1, bare, none]
      split <;> rfl

/-- What is read of a namespace in a phase. -/
def reads (r : Request) : Phase → Coverage
  | .data => r.data.ranges
  | .index => r.indexRanges

theorem weigh_phasesDone (phase : Phase) (r : Request) :
    weigh (Event.amount (.missing .commitLog phase)) (phasesDone found r) =
      (found.get? r.id).elim 0 fun f =>
        if (reads r phase).isEmpty then 0 else (f.missing phase).size := by
  unfold phasesDone
  cases found.get? r.id with
  | none => rfl
  | some f =>
    have done (phase' : Phase) (asked : Coverage) :
        weigh (Event.amount (.missing .commitLog phase))
          (if asked.isEmpty then [] else phaseDone .commitLog phase' (f.missing phase')) =
        if asked.isEmpty then 0
        else if phase' = phase then (f.missing phase).size else 0 := by
      split
      · rfl
      · split
        · rename_i same
          rw [same]
          exact weigh_phaseDone ..
        · rename_i other
          exact weigh_phaseDone_apart other .commitLog _
    apply (weigh_append ..).trans
    apply (congr (congrArg _ (done .data r.data.ranges)) (done .index r.indexRanges)).trans
    cases phase with
    | data => cases none : r.data.ranges.isEmpty <;> simp [reads, none]
    | index => cases none : r.indexRanges.isEmpty <;> simp [reads, none]

/-- The phases that are counted are all those of which something can be missing. -/
theorem weigh_phases (distinct : (requests.map (·.id)).Nodup)
    (h : (read o requests).outcome = .ok found) (phase : Phase) :
    weigh (fun r => weigh (Event.amount (.missing .commitLog phase)) (phasesDone found r))
      (requests.filter (!isIdle ·)) = found.missingOf phase requests := by
  rw [Recoveries.missingOf, weigh_filter, weigh_filter]
  refine weigh_congr fun r hr => ?_
  rw [weigh_phasesDone]
  cases none : (reads r phase).isEmpty with
  | true =>
    have left : (found.get? r.id).elim 0
        (fun f => if true = true then 0 else (f.missing phase).size) = 0 := by
      cases found.get? r.id <;> rfl
    rw [left, ite_self]
    split
    · rename_i asked
      cases phase with
      | data =>
        rw [Request.ask, show r.data.ranges.isEmpty = true from none] at asked
        cases asked
      | index =>
        have unindexed : r.policy.indexed = false := by
          by_contra kept
          rw [reads, Request.indexRanges, if_pos (by simpa using kept)] at none
          rw [Request.ask, none] at asked
          cases asked
        cases hf : found.get? r.id with
        | none => rfl
        | some f =>
          rw [Option.elim, Recovery.missing,
            index_missing_of_unindexed distinct h hr unindexed hf]
          rfl
    · rfl
  | false =>
    have busy : isIdle r = false := by
      cases phase with
      | data => rw [isIdle, show r.data.ranges.isEmpty = false from none, Bool.false_and]
      | index => rw [isIdle, show r.indexRanges.isEmpty = false from none, Bool.and_false]
    have asked : (r.ask phase).isEmpty = false := by
      cases phase with
      | data => exact none
      | index =>
        rw [reads, Request.indexRanges] at none
        split at none
        · exact none
        · cases none
    simp [busy, asked]

/-- The counters of a read of the commit log, and what it did. -/
structure Reconciled (o : Options) (requests : List Request) (found : Recoveries)
    (events : List Event) : Prop where
  /-- Of a log that can be opened, each entry before the first error is counted for what became of
  it. -/
  entries : ∀ items, .logOpened ∈ events → o.files.entries = .ok items →
    Event.total (.logEntries .read) events + Event.total (.logEntries .outOfRange) events +
      Event.total (.logEntries .snapshotted) events = (beforeError items).length
  unopened : .logOpened ∉ events ∨ (∃ e, o.files.entries = .error e) →
    ∀ fate, Event.total (.logEntries fate) events = 0
  missing : ∀ phase, Event.total (.missing .commitLog phase) events = found.missingOf phase requests
  /-- The peers have no part in it. -/
  fetches : ∀ kind ok, Event.total (.fetches kind ok) events = 0
  flushes : ∀ ok, Event.total (.flushes ok) events = 0
  elsewhere : ∀ phase, Event.total (.missing .peers phase) events = 0

theorem read_reconciled (distinct : (requests.map (·.id)).Nodup)
    (h : (read o requests).outcome = .ok found) :
    Reconciled o requests found (read o requests).entries := by
  have silent {m : Metric} (entry : ∀ fate, m ≠ .logEntries fate)
      (phases : ∀ r, weigh (Event.amount m) (phasesDone found r) = 0) :
      Event.total m (read o requests).entries = 0 := by
    rw [Event.total_eq_weigh, weigh_read (fun e none => none m) (k := 0)
      (fun fate => Event.amount_counted_of_ne (entry fate).symm 1) h,
      weigh_eq_zero fun r _ => phases r]
    rfl
  have apart {m : Metric} (reads : ∀ phase, m ≠ .reads .commitLog phase)
      (missing : ∀ phase, m ≠ .missing .commitLog phase) (r : Request) :
      weigh (Event.amount m) (phasesDone found r) = 0 := by
    unfold phasesDone
    split
    · rfl
    · rw [weigh_append]
      have done (phase : Phase) (c : Coverage) := weigh_phaseDone_of_ne (reads phase) (missing phase) c
      split <;> split <;> simp [done]
  have three : Event.total (.logEntries .read) (read o requests).entries +
      Event.total (.logEntries .outOfRange) (read o requests).entries +
        Event.total (.logEntries .snapshotted) (read o requests).entries =
      (taken o requests).length := by
    simp only [Event.total_eq_weigh, ← weigh_add]
    rw [weigh_read (fun e none => congrArg₂ _ (congrArg₂ _ (none _) (none _)) (none _)) (k := 1)
      (fun fate => by cases fate <;> rfl) h, weigh_eq_zero fun r _ => ?_, Nat.mul_one, Nat.add_zero]
    have none (fate : EntryFate) := apart (m := .logEntries fate) nofun nofun r
    rw [weigh_add, weigh_add, none, none, none]
  refine ⟨fun items opened opens => ?_, fun closed fate => ?_, fun phase => ?_, fun kind ok => ?_,
    fun ok => ?_, fun phase => ?_⟩
  · rw [three, taken, if_neg (by simp [(logOpened_mem_iff h).mp opened]), opens]
  · have nothing : taken o requests = [] := by
      rw [taken]
      split
      · rfl
      · rename_i busy
        rcases closed with closed | ⟨e, closed⟩
        · exact absurd ((logOpened_mem_iff h).mpr (Bool.eq_false_iff.mpr busy)) closed
        · rw [closed]
    rw [nothing, List.length_nil] at three
    cases fate <;> lia
  · rw [Event.total_eq_weigh, weigh_read (fun e none => none _) (k := 0)
      (fun fate => rfl) h, Nat.mul_zero, Nat.zero_add]
    exact weigh_phases distinct h phase
  · exact silent nofun (apart nofun nofun)
  · exact silent nofun (apart nofun nofun)
  · exact silent nofun (apart nofun nofun)

end CommitLog

end Backfill
