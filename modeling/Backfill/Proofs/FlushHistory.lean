import Backfill.Proofs.QueueSchedules
import Backfill.Proofs.Trail

/-!
What the disk was asked over a read that persists, on any disk: a flush that comes to its end leaves
one whole session, one that does not leaves its part missing, and only flushes of the same window
open the same files again.
-/

namespace Backfill

/-- Calls to the disk with their answers, in order. -/
abbrev DiskHistory := List (DiskCall × Reply Unit)

/-- What was asked since the files were last opened. -/
def Fileset.lastSession (f : Fileset) : DiskHistory → Option DiskHistory
  | [] => none
  | e :: rest => (f.lastSession rest).or (if e = (.prepare f, .ok ()) then some rest else none)

/-- Nobody asks for the files to be opened, whatever the answer. -/
def Fileset.Unopened (f : Fileset) (h : DiskHistory) : Prop := ∀ reply, (.prepare f, reply) ∉ h

/-- Every block of `d` was taken. -/
def Fileset.Persisted (f : Fileset) (d : ShardData) (h : DiskHistory) : Prop :=
  ∀ id s start b, d.series.get? id = some s → s.blocks.get? start = some b →
    (.persist f id s.tags b, .ok ()) ∈ h

/-- Every block of `d` was taken, and the files were closed. -/
structure Fileset.Written (f : Fileset) (d : ShardData) (h : DiskHistory) : Prop where
  persisted : f.Persisted d h
  closed : (.close f, .ok ()) ∈ h

/-- Some whole session put `d` into the files. -/
def Fileset.Saved (f : Fileset) (d : ShardData) (h : DiskHistory) : Prop :=
  ∃ earlier whole later, h = earlier ++ (.prepare f, .ok ()) :: (whole ++ later) ∧
    f.Unopened whole ∧ f.Written d whole

/-- The last session put `d` into the files. -/
def Fileset.Holds (f : Fileset) (d : ShardData) (h : DiskHistory) : Prop :=
  ∃ last, f.lastSession h = some last ∧ f.Written d last

/-- All blocks start at `start`. -/
def ShardData.StartAt (d : ShardData) (start : Instant) : Prop :=
  ∀ id s time b, d.series.get? id = some s → s.blocks.get? time = some b → time = start

namespace Fileset

variable {f : Fileset} {d : ShardData} {a b h : DiskHistory}

theorem lastSession_of_unopened (none : f.Unopened h) : f.lastSession h = .none := by
  induction h with
  | nil => rfl
  | cons e h ih =>
    have rest : f.Unopened h := fun reply hm => none reply (List.mem_cons_of_mem _ hm)
    rw [lastSession, ih rest, Option.none_or, if_neg]
    rintro rfl
    exact none _ List.mem_cons_self

theorem lastSession_append (last : f.Unopened b) :
    f.lastSession (a ++ (.prepare f, .ok ()) :: b) = some b := by
  induction a with
  | nil =>
    rw [List.nil_append, lastSession, lastSession_of_unopened last, Option.none_or, if_pos rfl]
  | cons e a ih => rw [List.cons_append, lastSession, ih, Option.some_or]

theorem Unopened.append (ha : f.Unopened a) (hb : f.Unopened b) : f.Unopened (a ++ b) := by
  intro reply hm
  rcases List.mem_append.mp hm with hm | hm
  · exact ha reply hm
  · exact hb reply hm

theorem Written.append (written : f.Written d a) (b : DiskHistory) : f.Written d (a ++ b) where
  persisted id s start block held here :=
    List.mem_append_left b (written.persisted id s start block held here)
  closed := List.mem_append_left b written.closed

end Fileset

namespace Flush

variable {disk : Disk} {f : Fileset} {nth : Nat}

theorem ask_ok {call : DiskCall} (h : (ask disk nth call).outcome = .ok ()) :
    (ask disk nth call).entries = [(call, .ok ())] := by
  simp only [ask] at h ⊢
  cases reply : disk.answer nth call with
  | ok u => rfl
  | error e =>
    rw [reply] at h
    cases h
  | crash =>
    rw [reply] at h
    cases h

theorem persistBlocks_calls {l : List (SeriesId × Tags × Block)} {e : DiskCall × Reply Unit}
    (h : e ∈ (persistBlocks disk f nth l).entries) : ∀ g, e.1 ≠ .prepare g := by
  induction l generalizing nth with
  | nil => cases h
  | cons b l ih =>
    rcases Trail.mem_entries_bind h with h | ⟨_, _, h⟩
    · intro g
      rcases Trail.mem_entries_bind h with h | ⟨_, _, h⟩
      · cases List.mem_singleton.mp h
        exact DiskCall.noConfusion
      · cases List.mem_singleton.mp h
        exact DiskCall.noConfusion
    · exact ih h

theorem persistBlocks_ok {l : List (SeriesId × Tags × Block)}
    (h : (persistBlocks disk f nth l).outcome = .ok ()) :
    ∀ b ∈ l, (.persist f b.1 b.2.1 b.2.2, .ok ()) ∈ (persistBlocks disk f nth l).entries := by
  induction l generalizing nth with
  | nil => exact fun b hb => (List.not_mem_nil hb).elim
  | cons c l ih =>
    obtain ⟨_, first, rest⟩ := Trail.outcome_bind_eq_ok.mp h
    obtain ⟨_, asked, _⟩ := Trail.outcome_bind_eq_ok.mp first
    have entries : (persistBlocks disk f nth (c :: l)).entries = _ :=
      Trail.entries_bind first
    have here : (persistBlock disk f nth c).entries = _ := Trail.entries_bind asked
    rw [ask_ok asked] at here
    intro b hb
    rw [entries]
    rcases List.mem_cons.mp hb with rfl | hb
    · refine List.mem_append_left _ ?_
      rw [here]
      exact List.mem_cons_self
    · exact List.mem_append_right _ (ih rest b hb)

/-- The files are closed after everything else. -/
theorem closeAfter_ok {body : DiskTrail} (h : (closeAfter disk f nth body).outcome = .ok ()) :
    body.outcome = .ok () ∧
      (closeAfter disk f nth body).entries = body.entries ++ [(.close f, .ok ())] := by
  unfold closeAfter at h ⊢
  cases ho : body.outcome with
  | ok u =>
    rw [ho] at h
    dsimp only at h ⊢
    obtain ⟨_, _, closed⟩ := Trail.outcome_bind_eq_ok.mp h
    rw [Trail.entries_bind ho, ask_ok closed]
    exact ⟨rfl, rfl⟩
  | error e =>
    rw [ho] at h
    cases e with
    | fault x =>
      dsimp only at h
      rw [ho] at h
      cases h
    | error e =>
      dsimp only at h
      split at h <;> cases h

theorem closeAfter_calls {body : DiskTrail} {e : DiskCall × Reply Unit}
    (h : e ∈ (closeAfter disk f nth body).entries) : e ∈ body.entries ∨ e.1 = .close f := by
  unfold closeAfter at h
  split at h
  · exact .inl h
  · rcases Trail.mem_entries_bind h with h | ⟨_, _, h⟩
    · exact .inl h
    · cases List.mem_singleton.mp h
      exact .inr rfl
  · rcases List.mem_append.mp h with h | h
    · exact .inl h
    · cases List.mem_singleton.mp h
      exact .inr rfl

/-- No files are opened but those that are written. -/
theorem writeFileset_opens {d : ShardData} {g : Fileset} {reply : Reply Unit}
    (h : (.prepare g, reply) ∈ (writeFileset disk f nth d).entries) : g = f := by
  rcases Trail.mem_entries_bind h with h | ⟨_, _, h⟩
  · cases List.mem_singleton.mp h
    rfl
  · rcases closeAfter_calls h with h | h
    · exact absurd rfl (persistBlocks_calls h g)
    · cases h

/-- Writing that comes to its end is one whole session. -/
theorem writeFileset_ok {d : ShardData} (h : (writeFileset disk f nth d).outcome = .ok ())
    (starts : d.StartAt f.start) :
    ∃ session, (writeFileset disk f nth d).entries = (.prepare f, .ok ()) :: session ∧
      f.Unopened session ∧ f.Written d session := by
  obtain ⟨_, prepared, rest⟩ := Trail.outcome_bind_eq_ok.mp h
  have entries : (writeFileset disk f nth d).entries = _ := Trail.entries_bind prepared
  rw [ask_ok prepared] at entries
  obtain ⟨persisted, closed⟩ := closeAfter_ok rest
  refine ⟨(closeAfter disk f (nth + 1) _).entries, entries, fun reply hm => ?_,
    fun id s start b held here => ?_, ?_⟩
  · rcases closeAfter_calls hm with hm | hm
    · exact persistBlocks_calls hm f rfl
    · cases hm
  · rw [closed]
    -- Only blocks that start where the files do are persisted, so `starts` is needed here.
    have found : (s.blocks.get? f.start).map (id, s.tags, ·) = some (id, s.tags, b) := by
      rw [← starts id s start b held here, here]
      rfl
    refine List.mem_append_left _ (persistBlocks_ok persisted (id, s.tags, b) ?_)
    exact List.mem_filterMap.mpr ⟨(id, s), SortedMap.get?_eq_some_iff.mp held, found⟩
  · rw [closed]
    exact List.mem_append_right _ (List.mem_singleton_self _)

/-- A flush that lies in one window writes one set of files. -/
theorem write_eq (t : FlushTarget) (nth : Nat) {flush : Flush} {w : Interval}
    (hw : flush.part.windows t.blockSize = ⟨[w], .ok ()⟩) :
    write disk t nth flush = writeFileset disk (fileset t flush.shard w.start) nth flush.data := by
  simp only [write, hw, writeWindows]
  exact (Trail.bind_pure_right _).trans (Trail.bind_pure_right _)

theorem writeWindows_opens {t : FlushTarget} {flush : Flush} {l : List Interval} {g : Fileset}
    {reply : Reply Unit} (h : (.prepare g, reply) ∈ (writeWindows disk t flush nth l).entries) :
    ∃ w ∈ l, g = fileset t flush.shard w.start := by
  induction l generalizing nth with
  | nil => cases h
  | cons w l ih =>
    rcases Trail.mem_entries_bind h with h | ⟨_, _, h⟩
    · exact ⟨w, List.mem_cons_self, writeFileset_opens h⟩
    · obtain ⟨w', hw', eq⟩ := ih h
      exact ⟨w', List.mem_cons_of_mem _ hw', eq⟩

/-- A flush opens no files but those of its windows. -/
theorem write_opens {t : FlushTarget} {flush : Flush} {g : Fileset} {reply : Reply Unit}
    (h : (.prepare g, reply) ∈ (write disk t nth flush).entries) :
    ∃ w ∈ (flush.part.windows t.blockSize).entries, g = fileset t flush.shard w.start := by
  rcases Trail.mem_entries_bind h with h | ⟨_, _, h⟩
  · exact writeWindows_opens h
  · cases h

end Flush

namespace FlushQueue

variable {q q' : FlushQueue} {f : Flush} {outcome : Except Failure Unit}

/-- The consumer waits for the next flush, or is gone for good. -/
def Resting (q : FlushQueue) : Prop :=
  q.Ready ∨ q.consumer = .dead ∧ ∀ e ∈ q.ledger, e.ticket < q.next

theorem Resting.tickets (h : q.Resting) : ∀ e ∈ q.ledger, e.ticket < q.next := by
  rcases h with ready | ⟨_, tickets⟩
  · rw [ready.ledger]
    exact fun e he => (List.not_mem_nil he).elim
  · exact tickets

theorem pass_die (h : q.Ready) (f : Flush) (he : ending outcome = .die) :
    q.pass f outcome = some { q with
      next := q.next + 1, ledger := [⟨q.next, f.shard, f.part⟩], consumer := .dead } := by
  obtain ⟨capacity, next, ledger, waiting, consumer, missing, settled⟩ := q
  obtain ⟨idle, hw, hl, room⟩ := h
  dsimp only at idle hw hl room
  subst idle hw hl
  simp [pass, he, moves?, move?, offer, enter?, receive?, die?, room]

theorem turnAway_eq (tickets : ∀ e ∈ q.ledger, e.ticket < q.next) (f : Flush) :
    q.turnAway f = { q with next := q.next + 1 } := by
  have kept : q.ledger.filter (·.ticket ≠ q.next) = q.ledger := by
    rw [List.filter_eq_self]
    intro e he
    have := tickets e he
    simp
    omega
  simp only [turnAway, offer, strike, List.filter_append, kept]
  simp

/-- A flush that is passed on is written, or its part is missing once the queue closes. -/
theorem pass_resting (h : q.Resting) (canonical : q.missing.Canonical)
    (passed : q.pass f outcome = some q') :
    q'.Resting ∧ q'.missing.Canonical ∧ ∀ p, p ∈ q'.close.missing ↔
      p ∈ q.close.missing ∨ outcome ≠ .ok () ∧ p.1 = f.shard ∧ p.2 ∈ f.part := by
  rcases h with ready | ⟨dead, _⟩
  · cases outcome with
    | ok u =>
      cases (pass_settle ready f rfl).symm.trans passed
      refine ⟨.inl ⟨ready.idle, ready.waiting, ready.ledger, ready.room⟩, canonical, fun p => ?_⟩
      simp [close, ready.ledger]
    | error e =>
      cases e with
      | error e =>
        cases (pass_settle ready f rfl).symm.trans passed
        refine ⟨.inl ⟨ready.idle, ready.waiting, ready.ledger, ready.room⟩, canonical.add _ _,
          fun p => ?_⟩
        simp [close, ready.ledger, Coverage.mem_add canonical]
      | fault x =>
        cases (pass_die ready f rfl).symm.trans passed
        refine ⟨.inr ⟨rfl, by simp⟩, canonical, fun p => ?_⟩
        simp [close, ready.ledger, Coverage.mem_add canonical]
  · rw [Peers.QueueRun.pass_eq_none q dead] at passed
    cases passed

/-- A flush that goes back leaves no trace but its ticket. -/
theorem turnAway_resting (h : q.Resting) (f : Flush) :
    (q.turnAway f).Resting ∧ (q.turnAway f).missing = q.missing ∧
      (q.turnAway f).close.missing = q.close.missing := by
  rw [turnAway_eq h.tickets]
  refine ⟨?_, rfl, rfl⟩
  rcases h with ready | ⟨dead, tickets⟩
  · exact .inl ⟨ready.idle, ready.waiting, ready.ledger, ready.room⟩
  · exact .inr ⟨dead, fun e he => Nat.lt_succ_of_lt (tickets e he)⟩

end FlushQueue

/-- The calls to the disk among the events. -/
def diskHistory (l : List Event) : DiskHistory :=
  l.filterMap fun
    | .disk call reply => some (call, reply)
    | _ => none

theorem diskHistory_append (a b : List Event) :
    diskHistory (a ++ b) = diskHistory a ++ diskHistory b := List.filterMap_append

theorem diskHistory_disk (h : DiskHistory) : diskHistory (h.map fun e => .disk e.1 e.2) = h := by
  rw [diskHistory, List.filterMap_map]
  exact List.filterMap_some

namespace Peers

/-- Workers do not speak to the disk themselves. -/
def DataAction.Quiet (a : DataAction) : Prop := ∀ call reply, a ≠ .event (.disk call reply)

/-- The action is a flush into the window of `f`. -/
def Opens (t : FlushTarget) (a : Shard × DataAction) (f : Fileset) : Prop :=
  ∃ part d, a.2 = .flush part d ∧
    ∃ w ∈ (part.windows t.blockSize).entries, f = Flush.fileset t a.1 w.start

namespace DataState

def history (s : DataState) : DiskHistory := diskHistory s.events

/-- `p` is missing once the queue closes. -/
def Owes (s : DataState) (p : Shard × Instant) : Prop :=
  p ∈ s.data.missing ∨ p ∈ s.queue.close.missing

structure Orderly (s : DataState) : Prop where
  queue : s.queue.Resting
  queued : s.queue.missing.Canonical
  data : s.data.missing.Canonical

theorem orderly_ofCapacity {capacity : Nat} (h : 0 < capacity) : (ofCapacity capacity).Orderly :=
  ⟨.inl (FlushQueue.ready_ofCapacity h), .empty, .empty⟩

variable (disk : Disk) (t : FlushTarget) {s s' s'' : DataState}

theorem history_logged (s : DataState) (events : List Event) :
    diskHistory (logged events s.log).reverse = s.history ++ diskHistory events := by
  rw [logged, List.reverse_append, List.reverse_reverse, diskHistory_append]
  rfl

/-- All calls of a flush that is passed on are in the history, whatever their answers. -/
theorem flush_history {f : Flush} {q : FlushQueue}
    (passed : s.queue.pass f (f.write disk t s.calls).outcome = some q) :
    (s.flush (disk, t) f).history = s.history ++ (f.write disk t s.calls).entries := by
  have counted : diskHistory (flushed (f.write disk t s.calls).outcome) = [] := by
    cases (f.write disk t s.calls).outcome with
    | ok u => rfl
    | error e => cases e <;> rfl
  simp only [flush, passed, history, events]
  rw [history_logged, diskHistory_append, diskHistory_disk, counted, List.append_nil]
  rfl

theorem event_history (target : Option (Disk × FlushTarget)) {shard : Shard} {e : Event}
    (quiet : (DataAction.event e).Quiet) :
    (act target s (shard, .event e)).history = s.history := by
  have none : diskHistory [e] = [] := by
    cases e with
    | disk call reply => exact absurd rfl (quiet call reply)
    | _ => rfl
  change diskHistory (e :: s.log).reverse = _
  rw [List.reverse_cons, diskHistory_append, none, List.append_nil]
  rfl

/-- A flush is written whole, or its part is missing once the queue closes. -/
theorem flush_orderly (h : s.Orderly) (f : Flush) :
    (s.flush (disk, t) f).Orderly ∧ (∀ p, s.Owes p → (s.flush (disk, t) f).Owes p) ∧
      ∃ calls, (s.flush (disk, t) f).history = s.history ++ calls ∧
        (∀ e ∈ calls, e ∈ (f.write disk t s.calls).entries) ∧
        ((f.write disk t s.calls).outcome = .ok () ∧ calls = (f.write disk t s.calls).entries ∨
          ∀ x ∈ f.part, (s.flush (disk, t) f).Owes (f.shard, x)) := by
  cases passed : s.queue.pass f (f.write disk t s.calls).outcome with
  | some q =>
    have history := flush_history disk t passed
    simp only [flush, passed] at history ⊢
    obtain ⟨resting, canonical, missing⟩ := FlushQueue.pass_resting h.queue h.queued passed
    refine ⟨⟨resting, canonical, h.data⟩, fun p owes => ?_, (f.write disk t s.calls).entries,
      history, fun _ he => he, ?_⟩
    · exact owes.imp_right fun hm => (missing p).mpr (.inl hm)
    · by_cases ok : (f.write disk t s.calls).outcome = .ok ()
      · exact .inl ⟨ok, rfl⟩
      · exact .inr fun x hx => .inr ((missing _).mpr (.inr ⟨ok, rfl, hx⟩))
  | none =>
    simp only [flush, passed]
    obtain ⟨resting, same, closed⟩ := FlushQueue.turnAway_resting h.queue f
    refine ⟨⟨resting, by rw [same]; exact h.queued, h.data.add _ _⟩, fun p owes => ?_, [], ?_,
      fun _ he => (List.not_mem_nil he).elim, .inr fun x hx => ?_⟩
    · rcases owes with hm | hm
      · exact .inl ((Coverage.mem_add h.data).mpr (.inl hm))
      · exact .inr (by rw [closed]; exact hm)
    · exact (List.append_nil _).symm
    · exact .inl ((Coverage.mem_add h.data).mpr (.inr ⟨rfl, hx⟩))

/-- What the actions `l` lead to: nothing that is missing comes back, and no files are opened but
those that one of the actions opens. -/
structure Extends (t : FlushTarget) (l : List (Shard × DataAction)) (s s' : DataState) :
    Prop where
  orderly : s'.Orderly
  owes : ∀ p, s.Owes p → s'.Owes p
  history : ∃ calls, s'.history = s.history ++ calls ∧
    ∀ f, (∀ a ∈ l, ¬ Opens t a f) → f.Unopened calls

theorem Extends.trans {t : FlushTarget} {l l' : List (Shard × DataAction)} (h : Extends t l s s')
    (h' : Extends t l' s' s'') : Extends t (l ++ l') s s'' := by
  obtain ⟨calls, first, unopened⟩ := h.history
  obtain ⟨calls', second, unopened'⟩ := h'.history
  refine ⟨h'.orderly, fun p owes => h'.owes p (h.owes p owes), calls ++ calls', ?_,
    fun f none => ?_⟩
  · rw [second, first, List.append_assoc]
  · exact (unopened f fun a ha => none a (List.mem_append_left _ ha)).append
      (unopened' f fun a ha => none a (List.mem_append_right _ ha))

theorem act_extends (h : s.Orderly) {a : Shard × DataAction} (quiet : a.2.Quiet) :
    Extends t [a] s (act (some (disk, t)) s a) := by
  obtain ⟨shard, action⟩ := a
  have silent (f : Fileset) : f.Unopened [] := fun _ hm => (List.not_mem_nil hm).elim
  cases action with
  | event e =>
    refine ⟨⟨h.queue, h.queued, h.data⟩, fun p owes => owes, [], ?_, fun f _ => silent f⟩
    rw [event_history _ quiet, List.append_nil]
  | miss part =>
    refine ⟨⟨h.queue, h.queued, h.data.add shard part⟩, fun p owes => owes.imp_left fun hm => ?_,
      [], (List.append_nil _).symm, fun f _ => silent f⟩
    exact (Coverage.mem_add h.data).mpr (.inl hm)
  | keep d =>
    have same := s.data.addShard_missing shard d
    refine ⟨⟨h.queue, h.queued, ?_⟩, fun p owes => owes.imp_left fun hm => ?_, [],
      (List.append_nil _).symm, fun f _ => silent f⟩
    · change Coverage.Canonical (s.data.addShard shard d).missing
      rw [same]
      exact h.data
    · change p ∈ (s.data.addShard shard d).missing
      rw [same]
      exact hm
  | flush part d =>
    obtain ⟨orderly, owes, calls, history, of_write, _⟩ :=
      flush_orderly disk t h ⟨shard, d, part⟩
    refine ⟨orderly, owes, calls, history, fun f none reply hm => ?_⟩
    exact none _ (List.mem_singleton_self _) ⟨part, d, rfl, Flush.write_opens (of_write _ hm)⟩

theorem run_extends {l : List (Shard × DataAction)} (h : s.Orderly) (quiet : ∀ a ∈ l, a.2.Quiet) :
    Extends t l s (run (some (disk, t)) s l) := by
  induction l generalizing s with
  | nil =>
    exact ⟨h, fun _ owes => owes, [], (List.append_nil _).symm,
      fun f _ _ hm => (List.not_mem_nil hm).elim⟩
  | cons a l ih =>
    have first := act_extends disk t h (quiet a List.mem_cons_self)
    exact first.trans (ih first.orderly fun b hb => quiet b (List.mem_cons_of_mem _ hb))

/-- A miss stays one. -/
theorem run_misses {before after : List (Shard × DataAction)} {shard : Shard} {part : Interval}
    (h : s.Orderly) (quiet : ∀ a ∈ before ++ (shard, .miss part) :: after, a.2.Quiet) {x : Instant}
    (hx : x ∈ part) :
    (run (some (disk, t)) s (before ++ (shard, .miss part) :: after)).Owes (shard, x) := by
  have first := run_extends disk t h
    fun a ha => quiet a (List.mem_append_left _ ha)
  have second := act_extends disk t first.orderly (a := (shard, .miss part))
    (quiet _ (List.mem_append_right _ List.mem_cons_self))
  have third := run_extends disk t second.orderly
    fun a ha => quiet a (List.mem_append_right _ (List.mem_cons_of_mem _ ha))
  rw [run, List.foldl_append, List.foldl_cons]
  exact third.owes _ (.inl ((Coverage.mem_add first.orderly.data).mpr (.inr ⟨rfl, hx⟩)))

/-- The part of a flush is missing, or the flush was one whole session for the files of its window,
and only later flushes into the same window open them again. -/
theorem run_flushes {before after : List (Shard × DataAction)} {shard : Shard} {part w : Interval}
    {d : ShardData} (h : s.Orderly)
    (quiet : ∀ a ∈ before ++ (shard, .flush part d) :: after, a.2.Quiet)
    (hw : part.windows t.blockSize = ⟨[w], .ok ()⟩) (starts : d.StartAt w.start) :
    let done := run (some (disk, t)) s (before ++ (shard, .flush part d) :: after)
    let f := Flush.fileset t shard w.start
    (∀ x ∈ part, done.Owes (shard, x)) ∨ ∃ earlier session later,
      done.history = earlier ++ (.prepare f, .ok ()) :: (session ++ later) ∧
        f.Unopened session ∧ f.Written d session ∧
          ((∀ a ∈ after, ¬ Opens t a f) → f.Unopened later) := by
  intro done f
  have first := run_extends disk t h
    fun a ha => quiet a (List.mem_append_left _ ha)
  obtain ⟨orderly, _, calls, history, _, written⟩ :=
    flush_orderly disk t first.orderly ⟨shard, d, part⟩
  have last := run_extends disk t orderly
    fun a ha => quiet a (List.mem_append_right _ (List.mem_cons_of_mem _ ha))
  have steps : done = run (some (disk, t))
      ((run (some (disk, t)) s before).flush (disk, t) ⟨shard, d, part⟩) after :=
    List.foldl_append
  rcases written with ⟨ok, rfl⟩ | owes
  · obtain ⟨later, more, unopened⟩ := last.history
    rw [Flush.write_eq t _ hw] at ok history
    obtain ⟨session, entries, closed, whole⟩ := Flush.writeFileset_ok ok starts
    refine .inr ⟨(run (some (disk, t)) s before).history, session, later, ?_, closed, whole,
      unopened f⟩
    rw [steps, more, history, entries, List.append_assoc, List.cons_append]
  · refine .inl fun x hx => ?_
    rw [steps]
    exact last.owes _ (owes x hx)

/-- Closing the queue speaks to no files. -/
theorem finish_history (s : DataState) (disk : Disk) (asked : Coverage) :
    (s.finish disk asked).history = s.history := by
  have counted : diskHistory (s.queue.ledger.map (fun _ => .counted (.flushes false) 1) ++
      [.flushDone]) = [] := by
    simp [diskHistory]
  rw [history, events, finish]
  dsimp only
  rw [history_logged, counted, List.append_nil]

/-- When the queue is closed, all that is owed is missing. -/
theorem finish_orderly (h : s.Orderly) (disk : Disk) (asked : Coverage) :
    (s.finish disk asked).data.missing.Canonical ∧
      ∀ p, s.Owes p → p ∈ (s.finish disk asked).data.missing :=
  ⟨finish_canonical h.data disk asked,
    fun p owes => (mem_finish h.data disk asked p).mpr (.inl owes)⟩

end DataState

end Peers

end Backfill
