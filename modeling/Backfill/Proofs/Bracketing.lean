import Mathlib.Data.List.Induction
import Backfill.Proofs.FlushHistory
import Backfill.Proofs.Slices

/-!
The order of the calls to a disk that never breaks off, whatever it answers to each. A flush makes
sessions one after the other, each opened, filled and closed, and stops after the first that goes
wrong; and no flush makes a call before the one that came first is through.
-/

namespace Backfill

/-- No call breaks off. What is answered may differ from call to call. -/
def Disk.Calm (disk : Disk) : Prop := ∀ nth call, disk.answer nth call ≠ .crash

/-- What is asked between opening the files and closing them, and the error that it comes to: one
block after the other, each registered as soon as it is taken, and nothing after one that is
refused. -/
inductive Fileset.Filling (f : Fileset) : DiskHistory → Option Error → Prop
  | done : f.Filling [] none
  | taken (id : SeriesId) (tags : Tags) (b : Block) (reply : Reply Unit) {rest : DiskHistory}
      {e : Option Error} (next : f.Filling rest e) :
      f.Filling ((.persist f id tags b, .ok ()) ::
        (.register f.shard id f.start b.checksum, reply) :: rest) e
  | refused (id : SeriesId) (tags : Tags) (b : Block) (e : Error) :
      f.Filling [(.persist f id tags b, .error e)] (some e)

/-- One session, and the error that it comes to. Files that were opened are closed, once, and the
error of a block goes before that of closing. -/
inductive Fileset.Bracket (f : Fileset) : DiskHistory → Option Error → Prop
  | unopened (e : Error) : f.Bracket [(.prepare f, .error e)] (some e)
  | closed {filling : DiskHistory} {e : Option Error} (filled : f.Filling filling e) :
      f.Bracket ((.prepare f, .ok ()) :: (filling ++ [(.close f, .ok ())])) e
  | unclosed {filling : DiskHistory} {e : Option Error} (filled : f.Filling filling e) (e' : Error) :
      f.Bracket ((.prepare f, .ok ()) :: (filling ++ [(.close f, .error e')])) (some (e.getD e'))

/-- Sessions one after the other, for the files in turn, up to the first that comes to an error. -/
inductive Brackets : List Fileset → DiskHistory → Option Error → Prop
  | done : Brackets [] [] none
  | next {f : Fileset} {session rest : DiskHistory} {files : List Fileset} {e : Option Error}
      (first : f.Bracket session none) (more : Brackets files rest e) :
      Brackets (f :: files) (session ++ rest) e
  | last {f : Fileset} {session : DiskHistory} {files : List Fileset} {e : Error}
      (fails : f.Bracket session (some e)) : Brackets (f :: files) session (some e)

/-- The call did what was asked. There is nothing to go wrong about registering a block. -/
def Succeeds (c : DiskCall × Reply Unit) : Prop :=
  match c.1 with
  | .register .. => True
  | _ => c.2 = .ok ()

/-- Some block was refused with the error `x`. -/
def Refuses (h : DiskHistory) (x : Error) : Prop :=
  ∃ f id tags b, (.persist f id tags b, .error x) ∈ h

/-- Opening or closing some files was refused with the error `x`. -/
def Bars (h : DiskHistory) (x : Error) : Prop :=
  ∃ f, (.prepare f, .error x) ∈ h ∨ (.close f, .error x) ∈ h

/-- The answers told as one: the error of a block if there is one, else that of opening or closing
the files. -/
structure Verdict (h : DiskHistory) (e : Option Error) : Prop where
  ok : e = none ↔ ∀ c ∈ h, Succeeds c
  error : ∀ x, e = some x ↔ Refuses h x ∨ (∀ y, ¬ Refuses h y) ∧ Bars h x

section Verdicts

variable {f : Fileset} {h a b : DiskHistory} {e : Option Error} {x : Error}

theorem refuses_append : Refuses (a ++ b) x ↔ Refuses a x ∨ Refuses b x := by
  simp only [Refuses, List.mem_append, exists_or]

theorem bars_append : Bars (a ++ b) x ↔ Bars a x ∨ Bars b x := by
  simp only [Bars, List.mem_append, ← exists_or]
  exact exists_congr fun f => or_or_or_comm

theorem not_refuses_of_succeeds (all : ∀ c ∈ h, Succeeds c) : ¬ Refuses h x := by
  rintro ⟨f, id, tags, b, hm⟩
  cases all _ hm

theorem not_bars_of_succeeds (all : ∀ c ∈ h, Succeeds c) : ¬ Bars h x := by
  rintro ⟨f, hm | hm⟩
  · cases all _ hm
  · cases all _ hm

theorem Fileset.Filling.ok (filled : f.Filling h e) : e = none ↔ ∀ c ∈ h, Succeeds c := by
  induction filled with
  | done => simp
  | taken id tags b reply next ih => simp [ih, Succeeds]
  | refused id tags b e => simp [Succeeds]

theorem Fileset.Filling.error (filled : f.Filling h e) : e = some x ↔ Refuses h x := by
  induction filled with
  | done => simp [Refuses]
  | taken id tags b reply next ih => simp [ih, Refuses]
  | refused id tags b e => simp [Refuses, eq_comm]

theorem Fileset.Filling.not_bars (filled : f.Filling h e) : ¬ Bars h x := by
  induction filled with
  | done => simp [Bars]
  | taken id tags b reply next ih => simpa [Bars] using ih
  | refused id tags b e => simp [Bars]

theorem refuses_session {opening closing : Reply Unit} :
    Refuses ((.prepare f, opening) :: (h ++ [(.close f, closing)])) x ↔ Refuses h x := by
  simp [Refuses]

theorem Fileset.Filling.bars_session (filled : f.Filling h e) {closing : Reply Unit} :
    Bars ((.prepare f, .ok ()) :: (h ++ [(.close f, closing)])) x ↔ closing = .error x := by
  have none : ¬ Bars h x := filled.not_bars
  simp only [Bars, not_exists, not_or] at none
  simp only [Bars, List.mem_cons, List.mem_append, Prod.mk.injEq, reduceCtorEq, and_false,
    false_or, false_and, or_false, (none _).1, (none _).2, DiskCall.close.injEq,
    List.not_mem_nil]
  constructor
  · rintro ⟨_, _, rfl⟩
    rfl
  · rintro rfl
    exact ⟨f, rfl, rfl⟩

theorem Fileset.Bracket.verdict (bracket : f.Bracket h e) : Verdict h e := by
  cases bracket with
  | unopened e => exact ⟨by simp [Succeeds], fun x => by simp [Refuses, Bars, eq_comm]⟩
  | closed filled =>
    refine ⟨?_, fun x => ?_⟩
    · simp [filled.ok, Succeeds, or_imp, forall_and]
    · simp [refuses_session, filled.bars_session, filled.error]
  | @unclosed filling e filled e' =>
    refine ⟨?_, fun x => ?_⟩
    · refine iff_of_false (by simp) fun all => ?_
      cases all (.close f, .error e') (by simp)
    · simp only [refuses_session, filled.bars_session, ← filled.error]
      cases e <;> simp

/-- Sessions that all went well have no say in what comes after. -/
theorem Verdict.after (first : Verdict a none) (rest : Verdict b e) : Verdict (a ++ b) e := by
  have all := first.ok.mp rfl
  refine ⟨?_, fun x => ?_⟩
  · rw [rest.ok]
    constructor
    · intro h c hc
      rcases List.mem_append.mp hc with hc | hc
      · exact all c hc
      · exact h c hc
    · intro h c hc
      exact h c (List.mem_append_right _ hc)
  · rw [rest.error]
    simp only [refuses_append, bars_append, not_refuses_of_succeeds all, not_bars_of_succeeds all,
      false_or]

theorem Brackets.verdict {files : List Fileset} (brackets : Brackets files h e) : Verdict h e := by
  induction brackets with
  | done => exact ⟨by simp, fun x => by simp [Refuses, Bars]⟩
  | next first _ ih => exact first.verdict.after ih
  | last fails => exact fails.verdict

end Verdicts

namespace Flush

/-- What a flush comes to when its calls come to `e`. -/
def outcomeOf (e : Option Error) : Except Failure Unit :=
  match e with
  | none => .ok ()
  | some e => .error (.error e)

variable {disk : Disk} {f : Fileset}

theorem ask_calm (calm : disk.Calm) (nth : Nat) (call : DiskCall) :
    ask disk nth call = ⟨[(call, .ok ())], .ok ()⟩ ∨
      ∃ e, ask disk nth call = ⟨[(call, .error e)], .error (.error e)⟩ := by
  have answered := calm nth call
  simp only [ask]
  cases h : disk.answer nth call with
  | ok u => exact .inl rfl
  | error e => exact .inr ⟨e, rfl⟩
  | crash => exact absurd h answered

theorem register_calm (calm : disk.Calm) (nth : Nat) (call : DiskCall) :
    register disk nth call = ⟨[(call, disk.answer nth call)], .ok ()⟩ := by
  have answered := calm nth call
  simp only [register]

theorem persistBlocks_filling (calm : disk.Calm) (f : Fileset) (nth : Nat)
    (l : List (SeriesId × Tags × Block)) :
    ∃ e, f.Filling (persistBlocks disk f nth l).entries e ∧
      (persistBlocks disk f nth l).outcome = outcomeOf e := by
  induction l generalizing nth with
  | nil => exact ⟨none, .done, rfl⟩
  | cons b l ih =>
    obtain ⟨id, tags, b⟩ := b
    simp only [persistBlocks, persistBlock]
    rcases ask_calm calm nth (.persist f id tags b) with taken | ⟨e, refused⟩
    · rw [taken, register_calm calm]
      obtain ⟨e, filling, outcome⟩ := ih (nth + 2)
      exact ⟨e, .taken id tags b _ filling, outcome⟩
    · rw [refused]
      exact ⟨some e, .refused id tags b e, rfl⟩

/-- Closing comes after the blocks, whatever became of them. -/
theorem closeAfter_bracket (calm : disk.Calm) (nth : Nat) {body : DiskTrail} {e : Option Error}
    (filling : f.Filling body.entries e) (outcome : body.outcome = outcomeOf e) :
    ∃ e, f.Bracket ((.prepare f, .ok ()) :: (closeAfter disk f nth body).entries) e ∧
      (closeAfter disk f nth body).outcome = outcomeOf e := by
  cases e with
  | none =>
    simp only [closeAfter, outcome, outcomeOf, Trail.bind]
    rcases ask_calm calm (nth + body.entries.length) (.close f) with closed | ⟨e', refused⟩
    · rw [closed]
      exact ⟨none, .closed filling, rfl⟩
    · rw [refused]
      exact ⟨some e', .unclosed filling e', rfl⟩
  | some e =>
    refine ⟨some e, ?_⟩
    simp only [closeAfter, outcome, outcomeOf]
    rcases ask_calm calm (nth + body.entries.length) (.close f) with closed | ⟨e', refused⟩
    · rw [closed]
      exact ⟨.closed filling, rfl⟩
    · rw [refused]
      exact ⟨.unclosed filling e', rfl⟩

theorem writeFileset_bracket (calm : disk.Calm) (f : Fileset) (nth : Nat) (d : ShardData) :
    ∃ e, f.Bracket (writeFileset disk f nth d).entries e ∧
      (writeFileset disk f nth d).outcome = outcomeOf e := by
  simp only [writeFileset]
  rcases ask_calm calm nth (.prepare f) with opened | ⟨e, refused⟩
  · rw [opened]
    obtain ⟨e, filling, outcome⟩ := persistBlocks_filling calm f (nth + 1)
      (d.series.entries.filterMap fun e => (e.2.blocks.get? f.start).map (e.1, e.2.tags, ·))
    exact closeAfter_bracket calm (nth + 1) filling outcome
  · rw [refused]
    exact ⟨some e, .unopened e, rfl⟩

theorem writeWindows_brackets (calm : disk.Calm) (t : FlushTarget) (flush : Flush) (nth : Nat)
    (l : List Interval) :
    ∃ e, Brackets (l.map fun w => fileset t flush.shard w.start)
        (writeWindows disk t flush nth l).entries e ∧
      (writeWindows disk t flush nth l).outcome = outcomeOf e := by
  induction l generalizing nth with
  | nil => exact ⟨none, .done, rfl⟩
  | cons w l ih =>
    simp only [writeWindows]
    obtain ⟨e, bracket, outcome⟩ :=
      writeFileset_bracket calm (fileset t flush.shard w.start) nth flush.data
    cases e with
    | none =>
      obtain ⟨e, rest, last⟩ := ih (nth +
        (writeFileset disk (fileset t flush.shard w.start) nth flush.data).entries.length)
      refine ⟨e, ?_, ?_⟩
      · rw [Trail.entries_bind outcome]
        exact .next bracket rest
      · rw [Trail.outcome_bind, outcome]
        exact last
    | some e =>
      refine ⟨some e, ?_, ?_⟩
      · simp only [Trail.bind, outcome]
        exact .last bracket
      · simp only [Trail.bind, outcome]
        rfl

/-- The files that a flush writes, in order. -/
def files (t : FlushTarget) (flush : Flush) : List Fileset :=
  (flush.part.windows t.blockSize).entries.map fun w => fileset t flush.shard w.start

/-- How a flush went. Its calls are sessions for its files, in order. It comes to an error just when
a call does, and to no end at all only where the calls were good and the clock ran out on the
windows, as it never does on times that fit into words. -/
structure Bracketed (t : FlushTarget) (flush : Flush) (written : DiskTrail) : Prop where
  sessions : ∃ e, Brackets (files t flush) written.entries e
  ok : written.outcome = .ok () ↔
    (∀ c ∈ written.entries, Succeeds c) ∧ (flush.part.windows t.blockSize).outcome = .ok ()
  error : ∀ x, written.outcome = .error (.error x) ↔
    Refuses written.entries x ∨ (∀ y, ¬ Refuses written.entries y) ∧ Bars written.entries x
  fault : ∀ x, written.outcome = .error (.fault x) ↔
    (∀ c ∈ written.entries, Succeeds c) ∧ (flush.part.windows t.blockSize).outcome = .error x
  words : 0 < t.blockSize → FitsWord t.blockSize → flush.part.FitsWords →
    (written.outcome = .ok () ↔ ∀ c ∈ written.entries, Succeeds c)

/-- The calls come first, and then the clock. -/
theorem ends_iff (e : Option Error) (clock : Except Fault Unit) :
    let outcome := outcomeOf e >>= fun _ => clock.mapError Failure.fault
    (outcome = .ok () ↔ e = none ∧ clock = .ok ()) ∧
      (∀ x, outcome = .error (.error x) ↔ e = some x) ∧
      ∀ x, outcome = .error (.fault x) ↔ e = none ∧ clock = .error x := by
  cases e with
  | none => cases clock <;> simp [outcomeOf, bind, Except.bind, Except.mapError]
  | some e => simp [outcomeOf, bind, Except.bind]

theorem write_bracketed (calm : disk.Calm) (t : FlushTarget) (nth : Nat) (flush : Flush) :
    Bracketed t flush (write disk t nth flush) := by
  obtain ⟨e, brackets, outcome⟩ :=
    writeWindows_brackets calm t flush nth (flush.part.windows t.blockSize).entries
  have verdict := brackets.verdict
  -- Working out the windows makes no calls, and is heard of only where every session went well.
  have entries : (write disk t nth flush).entries =
      (writeWindows disk t flush nth (flush.part.windows t.blockSize).entries).entries := by
    rw [write, Trail.entries_bind_silent _ fun _ => rfl]
  have ends : (write disk t nth flush).outcome =
      outcomeOf e >>= fun _ => (flush.part.windows t.blockSize).outcome.mapError .fault := by
    rw [write, Trail.outcome_bind, outcome]
    rfl
  rw [← entries] at brackets verdict
  obtain ⟨ok, error, fault⟩ := ends_iff e (flush.part.windows t.blockSize).outcome
  rw [← ends] at ok error fault
  refine ⟨⟨e, brackets⟩, ok.trans (and_congr_left fun _ => verdict.ok),
    fun x => (error x).trans (verdict.error x),
    fun x => (fault x).trans (and_congr_left fun _ => verdict.ok), fun hs hw fits => ?_⟩
  rw [ok, and_iff_left (TimeSet.windows_ok hs hw fits), verdict.ok]

end Flush

namespace Peers.QueueRun

/-- The calls to the disk, each with the ticket of the flush that it was made for. -/
def callsOf (log : List (Nat × Event)) : List (Nat × DiskCall × Reply Unit) :=
  log.filterMap fun
    | (ticket, .disk call reply) => some (ticket, call, reply)
    | _ => none

theorem callsOf_append (a b : List (Nat × Event)) : callsOf (a ++ b) = callsOf a ++ callsOf b :=
  List.filterMap_append

theorem callsOf_write (ticket : Nat) (h : DiskHistory) (outcome : Except Failure Unit) :
    callsOf ((h.map (fun e => Event.disk e.1 e.2) ++ DataState.flushed outcome).map (ticket, ·)) =
      h.map (ticket, ·) := by
  have counted : callsOf ((DataState.flushed outcome).map (ticket, ·)) = [] := by
    cases outcome with
    | ok u => rfl
    | error e => cases e <;> rfl
  rw [List.map_append, callsOf_append, counted, List.append_nil, callsOf, List.map_map,
    List.filterMap_map]
  exact congrFun List.filterMap_eq_map' h

variable {disk : Disk} {target : FlushTarget} {capacity : Nat} {s : QueueRun}

/-- A flush with its ticket, and how it went. -/
abbrev Turn := (Nat × Flush) × Flush.DiskTrail

def Turn.calls (turn : Turn) : List (Nat × DiskCall × Reply Unit) :=
  turn.2.entries.map (turn.1.1, ·)

theorem transcript_turns (calm : disk.Calm) (target : FlushTarget) (l : List (Nat × Flush)) :
    ∃ turns : List Turn, turns.map (·.1) = l ∧
      (∀ turn ∈ turns, Flush.Bracketed target turn.1.2 turn.2) ∧
      callsOf (transcript disk target l).2 = turns.flatMap Turn.calls := by
  induction l using List.reverseRecOn with
  | nil => exact ⟨[], rfl, by simp, rfl⟩
  | append_singleton l p ih =>
    obtain ⟨turns, rfl, bracketed, calls⟩ := ih
    let written := p.2.write disk target (transcript disk target (turns.map (·.1))).1
    refine ⟨turns ++ [(p, written)], by simp, fun turn hm => ?_, ?_⟩
    · rcases List.mem_append.mp hm with hm | hm
      · exact bracketed turn hm
      · cases List.mem_singleton.mp hm
        exact Flush.write_bracketed calm target _ p.2
    · rw [transcript_concat, writeNext]
      dsimp only
      rw [callsOf_append, callsOf_write, calls]
      simp [Turn.calls, written]

/-- On a disk that never breaks off, whatever it answers: every flush is a sequence of whole
sessions, and comes to what these come to. However flushes are offered, and wherever the consumer is
with them or has died, it has made the calls of one flush after the other, in the order in which
they got in line. -/
theorem flushes_bracketed (calm : disk.Calm) (target : FlushTarget) :
    (∀ nth flush, Flush.Bracketed target flush (flush.write disk target nth)) ∧
    ∀ capacity s, Reaches disk target capacity s → ∃ turns : List Turn,
      turns.map (·.1) = s.entered ∧
      (∀ turn ∈ turns, Flush.Bracketed target turn.1.2 turn.2) ∧
      callsOf s.log <+: turns.flatMap Turn.calls := by
  refine ⟨fun nth flush => Flush.write_bracketed calm target nth flush, fun capacity s h => ?_⟩
  obtain ⟨turns, entered, bracketed, calls⟩ := transcript_turns calm target s.entered
  refine ⟨turns, entered, bracketed, ?_⟩
  rw [← calls]
  exact (sound_of_reaches h).ordered.filterMap _

/-- Refuses the second block of shard 0, and to close its files. -/
def spiteful : Disk where
  answer nth call :=
    match call with
    | .persist f .. => if nth = 3 ∧ f.shard = 0 then .error (.persist "full") else .ok ()
    | .close f => if f.shard = 0 then .error (.persist "busy") else .ok ()
    | _ => .ok ()
  done := .ok ()

theorem spiteful_calm : spiteful.Calm := by
  intro nth call
  cases call with
  | prepare f => simp [spiteful]
  | register shard id start checksum => simp [spiteful]
  | persist f id tags b =>
    simp only [spiteful]
    split <;> simp
  | close f =>
    simp only [spiteful]
    split <;> simp

/-- Of a flush of two windows the second block is refused and the files cannot be closed: the flush
comes to the error of the block, and its second window is not touched. The consumer has gone on to
the next flush, which will come to a good end. -/
theorem flushes_bracketed_spiteful :
    let target : FlushTarget := ⟨[7], 10, .flush⟩
    let data := (ShardData.empty.addBlock [1] .empty 0 ⟨[], 0⟩).addBlock [2] .empty 0 ⟨[], 1⟩
    let flush : Flush := ⟨0, data, ⟨0, 20⟩⟩
    let other : Flush := ⟨1, .empty, ⟨0, 10⟩⟩
    let first : Fileset := ⟨[7], 0, 0, 0, .flush, true⟩
    let session : DiskHistory := [(.prepare first, .ok ()),
      (.persist first [1] .empty ⟨[], 0⟩, .ok ()), (.register 0 [1] 0 0, .ok ()),
      (.persist first [2] .empty ⟨[], 1⟩, .error (.persist "full")),
      (.close first, .error (.persist "busy"))]
    spiteful.Calm ∧ (flush.write spiteful target 0).entries = session ∧
      (flush.write spiteful target 0).outcome = .error (.error (.persist "full")) ∧
      (other.write spiteful target 5).outcome = .ok () ∧
      ∃ s, Reaches spiteful target 2 s ∧ s.entered = [(0, flush), (1, other)] ∧
        callsOf s.log = session.map (0, ·) ++ [(1, .prepare ⟨[7], 1, 0, 0, .flush, true⟩, .ok ())] ∧
        ∃ turns : List Turn, turns.map (·.1) = s.entered ∧
          callsOf s.log <+: turns.flatMap Turn.calls := by
  intro target data flush other first session
  obtain ⟨one, all⟩ := flushes_bracketed spiteful_calm target
  have closed : (other.write spiteful target 5).entries = [
      (.prepare ⟨[7], 1, 0, 0, .flush, true⟩, .ok ()),
      (.close ⟨[7], 1, 0, 0, .flush, true⟩, .ok ())] := by decide
  have good : ∀ c ∈ (other.write spiteful target 5).entries, Succeeds c := by
    simp [closed, Succeeds]
  have entries : (flush.write spiteful target 0).entries = session := by decide
  have refused : Refuses (flush.write spiteful target 0).entries (.persist "full") :=
    ⟨first, [2], .empty, ⟨[], 1⟩, by rw [entries]; decide⟩
  refine ⟨spiteful_calm, entries, ((one 0 flush).error _).mpr (.inl refused),
    ((one 5 other).words (by decide) (by decide) (by decide)).mpr good, ?_⟩
  have r : Reaches spiteful target 2 _ := .start
  have r := r.step (.offer flush)
  have r := r.step (.offer other)
  have r := r.step (.enter (0, flush) (.head _) _ rfl)
  have r := r.step (.receive _ rfl _ _ rfl)
  have r := r.step (.enter (1, other) (.head _) _ rfl)
  have r := r.step (.call _ _ rfl _ _ rfl)
  have r := r.step (.call _ _ rfl _ _ rfl)
  have r := r.step (.call _ _ rfl _ _ rfl)
  have r := r.step (.call _ _ rfl _ _ rfl)
  have r := r.step (.call _ _ rfl _ _ rfl)
  have r := r.step (.finish _ _ rfl rfl _ rfl _ rfl)
  have r := r.step (.receive _ rfl _ _ rfl)
  have r := r.step (.call _ _ rfl _ _ rfl)
  obtain ⟨turns, entered, _, calls⟩ := all 2 _ r
  exact ⟨_, r, rfl, by decide, turns, entered, calls⟩

end Peers.QueueRun

end Backfill
