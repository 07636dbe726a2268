import Backfill.Proofs.PeerDocuments
import Backfill.Proofs.SetAlgebra

/-!
An index read in which the worker of one shard breaks off. All that was asked of the shard is
missing, and the other shards are as if it had not been asked for, save for documents that it put
in. What it had marked before it broke off stays marked, though, and is missing at the same time.
-/

namespace Backfill

theorem Coverage.entries_set_empty (c : Coverage) (shard : Shard) :
    (c.set shard .empty).entries = c.entries.filter (·.1 ≠ shard) := by
  refine SortedMap.entries_ext (c.set shard .empty).sets.ascending
    (c.sets.ascending.filter _) fun (k, s) => ?_
  rw [List.mem_filter, decide_eq_true_eq]
  apply (SortedMap.get?_eq_some_iff (m := (c.set shard .empty).sets)).symm.trans
  rw [entries, ← SortedMap.get?_eq_some_iff, show (c.set shard .empty).sets.get? k =
    (c.held.set shard .empty).get? k from ShardSets.get?_retained .., ShardSets.get?,
    ShardSets.set, SortedMap.get?_insert, held]
  split
  · rename_i here
    simp [here, Option.filter, TimeSet.isEmpty, TimeSet.empty]
  · rename_i other
    rw [Option.filter_eq_some_iff]
    constructor
    · exact fun h => ⟨h.1, other⟩
    · intro h
      have some := c.inhabited _ (SortedMap.get?_eq_some_iff.mp h.1)
      exact ⟨h.1, by simp [some]⟩

/-- Nothing is asked of the index of the shard. -/
def Request.withoutIndex (r : Request) (shard : Shard) : Request :=
  { r with index := { r.index with ranges := r.index.ranges.set shard .empty } }

namespace Peers

variable {t : Tuning} {c : Cluster} {nth : Nat} {r : Request} {session : Session}
  {w : ShardWork IndexAction} {l : List (Shard × IndexAction)}

theorem indexWork_withoutIndex (shard : Shard) :
    indexWork t session (r.withoutIndex shard) =
      (indexWork t session r).filter (·.shard ≠ shard) := by
  rw [indexWork, indexWork, Request.withoutIndex, Coverage.entries_set_empty, List.filter_map]
  rfl

theorem asked_indexWork (hw : w ∈ indexWork t session r) :
    w.asked = r.index.ranges.get w.shard := by
  obtain ⟨e, he, rfl⟩ := List.mem_map.mp hw
  exact (Coverage.get_of_mem_entries he).symm

/-- What a read of the index comes to when the workers' actions come in the given order. -/
def indexOutcome (t : Tuning) (session : Session) (r : Request) (l : List (Shard × IndexAction)) :
    RecoveredIndex :=
  (IndexState.run l).index.addAllMissing (ShardWork.lost (indexWork t session r))

/-- The worker `w` broke off in a read that came to `f`. Without its shard the read would have come
to `f'`. -/
structure Abandoned (r : Request) (w : ShardWork IndexAction) (f f' : RecoveredIndex) : Prop where
  missing : ∀ x ∈ r.index.ranges.get w.shard, (w.shard, x) ∈ f.missing
  marked : ∀ start x, (w.shard, x) ∈ f.index.marks start ↔
    ∃ done, .absorb done ∈ w.work.entries ∧ done.start = start ∧ x ∈ done.indexed
  otherMissing : ∀ shard, shard ≠ w.shard → f.missing.get shard = f'.missing.get shard
  otherMarks : ∀ start shard, shard ≠ w.shard →
    (f.index.marks start).get shard = (f'.index.marks start).get shard
  documents : ∀ start id,
    (∀ a ∈ w.work.entries, ∀ tags, (start, id, tags) ∉ a.documents) →
      f.index.document? start id = f'.index.document? start id
  kept : ∀ start id, (f'.index.document? start id).isSome = true →
    (f.index.document? start id).isSome = true

/-- The shard is left without marks if and only if the worker had none to make before it broke
off. -/
theorem Abandoned.unmarked_iff {f f' : RecoveredIndex} (h : Abandoned r w f f') :
    (∀ start x, (w.shard, x) ∉ f.index.marks start) ↔
      ∀ done, .absorb done ∈ w.work.entries → ∀ x, x ∉ done.indexed := by
  simp only [h.marked]
  constructor
  · exact fun none done absorbed x hx => none done.start x ⟨done, absorbed, rfl, hx⟩
  · rintro none start x ⟨done, absorbed, _, hx⟩
    exact none done absorbed x hx

/-- What an action does to another shard is still done without those of a shard. -/
theorem exists_elsewhere_iff {shard : Shard} {does : Shard × IndexAction → Shard × Instant → Prop}
    (own : ∀ a q, does a q → q.1 = a.1) {q : Shard × Instant} (other : q.1 ≠ shard) :
    (∃ a ∈ l, does a q) ↔ ∃ a ∈ l.filter (·.1 ≠ shard), does a q := by
  constructor
  · rintro ⟨a, ha, hd⟩
    exact ⟨a, List.mem_filter.mpr ⟨ha, decide_eq_true (own a q hd ▸ other)⟩, hd⟩
  · rintro ⟨a, ha, hd⟩
    exact ⟨a, (List.mem_filter.mp ha).1, hd⟩

theorem lost_withoutIndex {shard left : Shard} {x : Instant} (other : shard ≠ left) :
    (shard, x) ∈ ShardWork.lost (indexWork t session r) ↔
      (shard, x) ∈ ShardWork.lost (indexWork t session (r.withoutIndex left)) := by
  rw [mem_lost, mem_lost, indexWork_withoutIndex]
  constructor
  · rintro ⟨v, hv, broke, here, hx⟩
    exact ⟨v, List.mem_filter.mpr ⟨hv, decide_eq_true (here ▸ other)⟩, broke, here, hx⟩
  · rintro ⟨v, hv, rest⟩
    exact ⟨v, (List.mem_filter.mp hv).1, rest⟩

/-- The worker of a shard stands between those of the others, which are left without it. -/
theorem exists_others (hw : w ∈ indexWork t session r) :
    ∃ before after, indexWork t session r = before ++ w :: after ∧
      (∀ v ∈ before ++ after, v.shard ≠ w.shard) ∧
      indexWork t session (r.withoutIndex w.shard) = before ++ after := by
  obtain ⟨before, after, split⟩ := List.append_of_mem hw
  have others : ∀ v ∈ before ++ after, v.shard ≠ w.shard := by
    intro v hv
    have apart := indexWork_apart t session r
    rw [split] at apart
    obtain ⟨_, later, between⟩ := List.pairwise_append.mp apart
    rcases List.mem_append.mp hv with hv | hv
    · exact between v hv w List.mem_cons_self
    · exact ((List.pairwise_cons.mp later).1 v hv).symm
  refine ⟨before, after, split, others, ?_⟩
  rw [indexWork_withoutIndex, split, List.filter_append, List.filter_cons_of_neg (by simp),
    ← List.filter_append, List.filter_eq_self.mpr fun v hv => by simpa using others v hv]

/-- Without the actions of a shard its worker has none, and the others have theirs. -/
theorem filter_workers (hw : w ∈ indexWork t session r) : ∃ before after,
    ((indexWork t session r).map ShardWork.actions).map (List.filter (·.1 ≠ w.shard)) =
      before ++ [] :: after ∧
    (indexWork t session (r.withoutIndex w.shard)).map ShardWork.actions = before ++ after := by
  obtain ⟨before, after, split, others, rest⟩ := exists_others hw
  have own : w.actions.filter (·.1 ≠ w.shard) = [] := by
    refine List.filter_eq_nil_iff.mpr fun a ha => ?_
    obtain ⟨_, _, rfl⟩ := List.mem_map.mp ha
    simp
  have whole {part : List (ShardWork IndexAction)} (sub : ∀ v ∈ part, v ∈ before ++ after) :
      (part.map ShardWork.actions).map (List.filter (·.1 ≠ w.shard)) =
        part.map ShardWork.actions := by
    rw [List.map_map]
    refine List.map_congr_left fun v hv => List.filter_eq_self.mpr fun a ha => ?_
    obtain ⟨_, _, rfl⟩ := List.mem_map.mp ha
    exact decide_eq_true (others v (sub v hv))
  refine ⟨before.map ShardWork.actions, after.map ShardWork.actions, ?_, ?_⟩
  · rw [split, List.map_append, List.map_cons, List.map_append, List.map_cons, own,
      whole fun v hv => List.mem_append_left _ hv, whole fun v hv => List.mem_append_right _ hv]
  · rw [rest, List.map_append]

/-- In the order of a read, the others do what they would without the shard. -/
theorem filter_actions_withoutIndex (hw : w ∈ indexWork t session r) :
    ((indexWork t session r).flatMap ShardWork.actions).filter (·.1 ≠ w.shard) =
      (indexWork t session (r.withoutIndex w.shard)).flatMap ShardWork.actions := by
  obtain ⟨before, after, kept, rest⟩ := filter_workers hw
  rw [List.flatMap_def, List.filter_flatten, kept, List.flatMap_def, rest]
  simp

section Turns

variable (hw : w ∈ indexWork t session r)
  (turns : Interleaves ((indexWork t session r).map ShardWork.actions) l)

include hw turns

/-- The actions of a shard are those of its worker. -/
theorem mem_turns_worker {a : IndexAction} : (w.shard, a) ∈ l ↔ a ∈ w.work.entries := by
  rw [mem_turns turns, List.mem_flatMap]
  constructor
  · rintro ⟨v, hv, ha⟩
    obtain ⟨b, hb, same⟩ := List.mem_map.mp ha
    obtain ⟨there, rfl⟩ := Prod.mk.inj same
    have keys : ((indexWork t session r).map (·.shard)).Nodup :=
      List.pairwise_map.mpr (indexWork_apart t session r)
    exact List.inj_on_of_nodup_map keys hv hw there ▸ hb
  · exact fun ha => ⟨w, hw, List.mem_map.mpr ⟨a, ha, rfl⟩⟩

/-- Without the actions of a shard, the others take the same turns. -/
theorem turns_withoutIndex :
    Interleaves ((indexWork t session (r.withoutIndex w.shard)).map ShardWork.actions)
      (l.filter (·.1 ≠ w.shard)) := by
  obtain ⟨before, after, kept, rest⟩ := filter_workers hw
  have others := turns.filter (·.1 ≠ w.shard)
  rw [kept] at others
  rw [rest]
  exact (others.workers_perm List.perm_middle).of_cons_nil

theorem abandoned_of_turns (broke : w.abandoned = true) :
    Abandoned r w (indexOutcome t session r l)
      (indexOutcome t session (r.withoutIndex w.shard) (l.filter (·.1 ≠ w.shard))) := by
  obtain ⟨sound, missing, marks⟩ := IndexState.run_steps l
  obtain ⟨sound', missing', marks'⟩ := IndexState.run_steps (l.filter (·.1 ≠ w.shard))
  refine ⟨fun x hx => ?_, fun start x => ?_, fun shard other => ?_, fun start shard other => ?_,
    fun start id silent => ?_, fun start id held => ?_⟩
  · refine (Coverage.mem_union sound.missing).mpr (.inr (mem_lost.mpr ⟨w, hw, broke, rfl, ?_⟩))
    rw [asked_indexWork hw]
    exact hx
  · apply (marks start (w.shard, x)).trans
    constructor
    · rintro ⟨⟨shard, a⟩, ha, here, does⟩
      obtain rfl : w.shard = shard := here
      cases a with
      | absorb done => exact ⟨done, (mem_turns_worker hw turns).mp ha, does⟩
      | event e => exact does.elim
      | miss part => exact does.elim
    · rintro ⟨done, absorbed, does⟩
      exact ⟨(w.shard, .absorb done), (mem_turns_worker hw turns).mpr absorbed, rfl, does⟩
  · refine (sound.missing.union _ shard).ext (sound'.missing.union _ shard) fun x => ?_
    have acted := (missing (shard, x)).trans (exists_elsewhere_iff (fun _ _ h => h.1) other)
    have lost : (shard, x) ∈ ShardWork.lost (indexWork t session r) ↔ _ := lost_withoutIndex other
    have both := or_congr acted lost
    rw [← missing' (shard, x), ← Coverage.mem_union sound.missing,
      ← Coverage.mem_union sound'.missing] at both
    exact both
  · refine (sound.index start shard).ext (sound'.index start shard) fun x => ?_
    exact (marks start (shard, x)).trans
      ((exists_elsewhere_iff (fun _ _ h => h.1) other).trans (marks' start (shard, x)).symm)
  · change (IndexState.run l).index.index.document? start id =
      (IndexState.run _).index.index.document? start id
    rw [IndexState.run_document?, IndexState.run_document?]
    refine IndexAction.first?_filter fun (shard, a) ha tags hd => decide_eq_true fun here => ?_
    obtain rfl : shard = w.shard := here
    exact silent a ((mem_turns_worker hw turns).mp ha) tags hd
  · change ((IndexState.run _).index.index.document? start id).isSome = true at held
    change ((IndexState.run l).index.index.document? start id).isSome = true
    rw [IndexState.run_document?, Index.first?_isSome] at held ⊢
    obtain ⟨tags, hd⟩ := held
    obtain ⟨a, ha, hd⟩ := List.mem_flatMap.mp hd
    exact ⟨tags, List.mem_flatMap.mpr ⟨a, (List.mem_filter.mp ha).1, hd⟩⟩

end Turns

/-- All that was asked of a shard whose worker breaks off is missing, in whatever order the workers
get their turns, and the others are as if it had not been asked for. What the worker had marked is
not undone, though: the shard is left without marks only if it had none to make. -/
theorem readIndex_abandoned (opened : c.openSession nth = .ok session)
    (hw : w ∈ indexWork t session r) (broke : w.abandoned = true) :
    (∃ f f', (readIndex t c nth r).outcome = .ok f ∧
      (readIndex t c nth (r.withoutIndex w.shard)).outcome = .ok f' ∧ Abandoned r w f f' ∧
        ((∀ start x, (w.shard, x) ∉ f.index.marks start) ↔
          ∀ done, .absorb done ∈ w.work.entries → ∀ x, x ∉ done.indexed)) ∧
    ∀ l, Interleaves ((indexWork t session r).map ShardWork.actions) l →
      ∃ l', Interleaves
          ((indexWork t session (r.withoutIndex w.shard)).map ShardWork.actions) l' ∧
        Abandoned r w (indexOutcome t session r l)
          (indexOutcome t session (r.withoutIndex w.shard) l') := by
  have inOrder := abandoned_of_turns hw (.flatten _) broke
  rw [← List.flatMap_def, filter_actions_withoutIndex hw] at inOrder
  exact ⟨⟨_, _, readIndex_eq opened, readIndex_eq opened, inOrder, inOrder.unmarked_iff⟩,
    fun l turns => ⟨_, turns_withoutIndex hw turns, abandoned_of_turns hw turns broke⟩⟩

/-- Tells of one series in every window, but never comes back from the second one of shard 0. -/
def halting : Session where
  blocks _ _ := .ok .empty
  metadata _ f :=
    if f.shard = 0 ∧ f.window.start = 10 then .crash else .ok [⟨[1], .empty, f.window.start⟩]

/-- The worker of shard 0 breaks off in its second window, and that of shard 1 does not. -/
theorem readIndex_abandoned_halting :
    let policy : Policy :=
      ⟨{ blockSize := 10, indexed := true, indexBlockSize := 10 }, by decide, by decide⟩
    let options : RunOptions := ⟨{}, .ofOrigin [] 0⟩
    let ranges := Coverage.ofShards [0, 1] ⟨0, 20⟩
    let request : Request := ⟨[7], policy, [0, 1], none, ⟨.empty, options⟩, ⟨ranges, options⟩⟩
    let tuning : Tuning := ⟨1, 1, 1, 1, .majority, .lru⟩
    let cluster : Cluster := ⟨fun _ => .ok halting, none, none⟩
    ∃ w ∈ indexWork tuning halting request, w.shard = 0 ∧ w.abandoned = true ∧
      ∃ f f', (readIndex tuning cluster 0 request).outcome = .ok f ∧
        (readIndex tuning cluster 0 (request.withoutIndex 0)).outcome = .ok f' ∧
          Abandoned request w f f' ∧ (0, 5) ∈ f.missing ∧ (0, 15) ∈ f.missing := by
  intro policy options ranges request tuning cluster
  refine ⟨⟨0, _, _⟩, List.mem_cons_self, rfl, by decide +kernel, ?_⟩
  obtain ⟨⟨f, f', found, found', abandoned, _⟩, _⟩ :=
    readIndex_abandoned (show cluster.openSession 0 = .ok halting from rfl)
      (show _ ∈ indexWork tuning halting request from List.mem_cons_self) (by decide +kernel)
  exact ⟨f, f', found, found', abandoned, abandoned.missing 5 (by decide +kernel),
    abandoned.missing 15 (by decide +kernel)⟩

/-- The first window of shard 0 is marked, and missing. -/
theorem readIndex_marks_abandoned :
    let policy : Policy :=
      ⟨{ blockSize := 10, indexed := true, indexBlockSize := 10 }, by decide, by decide⟩
    let options : RunOptions := ⟨{}, .ofOrigin [] 0⟩
    let ranges := Coverage.ofShards [0, 1] ⟨0, 20⟩
    let request : Request := ⟨[7], policy, [0, 1], none, ⟨.empty, options⟩, ⟨ranges, options⟩⟩
    let tuning : Tuning := ⟨1, 1, 1, 1, .majority, .lru⟩
    let cluster : Cluster := ⟨fun _ => .ok halting, none, none⟩
    (∃ w ∈ indexWork tuning halting request, w.shard = 0 ∧ w.abandoned = true) ∧
      ∃ f, (readIndex tuning cluster 0 request).outcome = .ok f ∧
        (0, 5) ∈ f.index.marks 0 ∧ (0, 5) ∈ f.missing := by
  intro policy options ranges request tuning cluster
  refine ⟨⟨⟨0, _, _⟩, List.mem_cons_self, rfl, by decide +kernel⟩, ?_⟩
  have both : (readIndex tuning cluster 0 request).outcome.toOption.map (fun f =>
      (f.index.marks 0, f.missing)) =
        some (Coverage.ofShards [0, 1] ⟨0, 10⟩, .ofShards [0] ⟨0, 20⟩) := by decide +kernel
  cases found : (readIndex tuning cluster 0 request).outcome with
  | error e =>
    rw [found] at both
    cases both
  | ok f =>
    rw [found] at both
    obtain ⟨marks, missing⟩ := Prod.mk.inj (Option.some.inj both)
    exact ⟨f, rfl, marks ▸ by decide, missing ▸ by decide⟩

end Peers

end Backfill
