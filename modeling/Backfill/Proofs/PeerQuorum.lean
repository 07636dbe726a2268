import Backfill.Proofs.Coverage
import Backfill.Topology

/-!
What of a request the peers of its shards can stream. The rule is stated with the counts of a
shard's peers alone, and holds of any walk over the shards that stops at the first peer in a state
that is not known, in whatever order the hosts of a shard come.
-/

namespace Backfill

/-- The shards that are held are those with instants. -/
theorem Coverage.isEmpty_get_eq_false_iff {c : Coverage} {shard : Shard} :
    (c.get shard).isEmpty = false ↔ ∃ e ∈ c.entries, e.1 = shard := by
  constructor
  · intro some
    cases held : c.sets.get? shard with
    | none =>
      rw [get, held] at some
      cases some
    | some s => exact ⟨(shard, s), SortedMap.get?_eq_some_iff.mp held, rfl⟩
  · rintro ⟨e, he, rfl⟩
    rw [get_of_mem_entries he]
    exact c.inhabited e he

theorem Coverage.mem_shards {c : Coverage} {shard : Shard} :
    shard ∈ c.shards ↔ (c.get shard).isEmpty = false := by
  rw [isEmpty_get_eq_false_iff, shards, SortedMap.keys, List.mem_map]
  rfl

namespace Topology

/-- What a host says of its replica of a shard. -/
def stateOf? (t : Topology) (shard : Shard) (host : HostId) : Option ReplicaState :=
  (t.shards.get? shard).bind (·.get? host)

/-- Some peer is in a state that is not known. -/
def Doubtful (t : Topology) (shard : Shard) : Prop :=
  ∃ host, host ≠ t.origin ∧ t.stateOf? shard host = some .unknown

/-- How many peers have a replica in such a state, among the given hosts. -/
def countPeers (t : Topology) (p : ReplicaState → Bool) (hosts : List (HostId × ReplicaState)) :
    Nat :=
  hosts.countP fun h => decide (h.1 ≠ t.origin) && p h.2

/-- The shard is placed, and enough of its peers can be read in full, one at least. -/
def Qualifies (t : Topology) (level : Consistency) (shard : Shard) : Prop :=
  ∃ hosts, t.shards.get? shard = some hosts ∧
    (∃ host state, host ≠ t.origin ∧ hosts.get? host = some state ∧
      (state = .available ∨ state = .leaving)) ∧
    level.achieved t.majority (t.countPeers (fun _ => true) hosts.entries)
      (t.countPeers (·.serves) hosts.entries) = true

/-- What has to come of asking for `requested`. -/
structure Gate (t : Topology) (level : Consistency) (requested : Coverage)
    (outcome : Except Error Coverage) : Prop where
  fails_iff : (∃ e, outcome = .error e) ↔
    ∃ shard, (requested.get shard).isEmpty = false ∧ t.Doubtful shard
  names : ∀ e, outcome = .error e → ∃ shard host,
    e = .topology shard s!"unknown shard state for host {Bytes.display host}" ∧
      host ≠ t.origin ∧ t.stateOf? shard host = some .unknown ∧
      (requested.get shard).isEmpty = false ∧
      ∀ other, (requested.get other).isEmpty = false → t.Doubtful other → shard ≤ other
  whole : ∀ answer, outcome = .ok answer → ∀ shard, t.Qualifies level shard →
    answer.get shard = requested.get shard
  nothing : ∀ answer, outcome = .ok answer → ∀ shard, ¬ t.Qualifies level shard →
    answer.get shard = .empty

variable {t : Topology} {level : Consistency} {requested : Coverage} {shard : Shard}

theorem Gate.stopped {host : HostId} (other : host ≠ t.origin)
    (unknown : t.stateOf? shard host = some .unknown)
    (asked : (requested.get shard).isEmpty = false)
    (least : ∀ other, (requested.get other).isEmpty = false → t.Doubtful other → shard ≤ other) :
    t.Gate level requested
      (.error (.topology shard s!"unknown shard state for host {Bytes.display host}")) where
  fails_iff := ⟨fun _ => ⟨shard, asked, host, other, unknown⟩, fun _ => ⟨_, rfl⟩⟩
  names := by
    intro e h
    cases h
    exact ⟨shard, host, rfl, other, unknown, asked, least⟩
  whole := nofun
  nothing := nofun

theorem Gate.answered {answer : Coverage}
    (clear : ∀ shard, (requested.get shard).isEmpty = false → ¬ t.Doubtful shard)
    (whole : ∀ shard, t.Qualifies level shard → answer.get shard = requested.get shard)
    (nothing : ∀ shard, ¬ t.Qualifies level shard → answer.get shard = .empty) :
    t.Gate level requested (.ok answer) where
  fails_iff := ⟨nofun, fun ⟨shard, asked, doubtful⟩ => absurd doubtful (clear shard asked)⟩
  names := nofun
  whole := by
    intro _ h
    cases h
    exact whole
  nothing := by
    intro _ h
    cases h
    exact nothing

/-- The rule leaves no choice but of the peer that is named. -/
theorem Gate.answer_unique {x y : Except Error Coverage} (hx : t.Gate level requested x)
    (hy : t.Gate level requested y) {answer : Coverage} (h : x = .ok answer) : y = .ok answer := by
  cases y with
  | error e =>
    obtain ⟨_, fails⟩ := hx.fails_iff.mpr (hy.fails_iff.mp ⟨e, rfl⟩)
    rw [h] at fails
    cases fails
  | ok answer' =>
    refine congrArg _ (Coverage.ext_get fun shard => ?_)
    by_cases qualifies : t.Qualifies level shard
    · rw [hx.whole answer h shard qualifies, hy.whole answer' rfl shard qualifies]
    · rw [hx.nothing answer h shard qualifies, hy.nothing answer' rfl shard qualifies]

/-- The peers, and those of them that can be read in full, counted host by host. -/
def tally (t : Topology) (peers serving : Nat) :
    List (HostId × ReplicaState) → Except HostId (Nat × Nat)
  | [] => .ok (peers, serving)
  | (host, state) :: rest =>
    if host = t.origin then t.tally peers serving rest
    else match state with
      | .initializing => t.tally (peers + 1) serving rest
      | .available | .leaving => t.tally (peers + 1) (serving + 1) rest
      | .unknown => .error host

/-- The host is a peer in a state that is not known. -/
def doubts (t : Topology) (h : HostId × ReplicaState) : Bool :=
  decide (h.1 ≠ t.origin) && decide (h.2 = .unknown)

theorem tally_eq (t : Topology) (peers serving : Nat) (l : List (HostId × ReplicaState)) :
    t.tally peers serving l = match l.find? t.doubts with
      | some h => .error h.1
      | none =>
        .ok (peers + t.countPeers (fun _ => true) l, serving + t.countPeers (·.serves) l) := by
  induction l generalizing peers serving with
  | nil => rfl
  | cons h l ih =>
    obtain ⟨host, state⟩ := h
    by_cases own : host = t.origin
    · simp [tally, own, ih, doubts, countPeers]
    · cases state
      case unknown => simp [tally, own, doubts]
      all_goals
        simp only [tally, if_neg own, ih, List.find?_cons]
        cases l.find? t.doubts <;>
          simp [doubts, countPeers, own, ReplicaState.serves, Nat.add_assoc, Nat.add_comm 1]

theorem countPeers_serves_pos {hosts : SortedMap HostId ReplicaState} :
    0 < t.countPeers (·.serves) hosts.entries ↔ ∃ host state, host ≠ t.origin ∧
      hosts.get? host = some state ∧ (state = .available ∨ state = .leaving) := by
  rw [countPeers, List.countP_pos_iff]
  constructor
  · intro h
    obtain ⟨⟨host, state⟩, hm, serves⟩ := h
    simp only [Bool.and_eq_true, decide_eq_true_eq] at serves
    refine ⟨host, state, serves.1, SortedMap.get?_eq_some_iff.mpr hm, ?_⟩
    cases state <;> simp [ReplicaState.serves] at serves ⊢
  · intro h
    obtain ⟨host, state, other, held, serves⟩ := h
    refine ⟨(host, state), SortedMap.get?_eq_some_iff.mp held, ?_⟩
    rcases serves with rfl | rfl <;> simp [other, ReplicaState.serves]

theorem qualifies_iff : t.Qualifies level shard ↔ ∃ hosts, t.shards.get? shard = some hosts ∧
    0 < t.countPeers (·.serves) hosts.entries ∧
    level.achieved t.majority (t.countPeers (fun _ => true) hosts.entries)
      (t.countPeers (·.serves) hosts.entries) = true := by
  simp only [Qualifies, countPeers_serves_pos]

section Hosts

variable {hosts : SortedMap HostId ReplicaState} {l : List (HostId × ReplicaState)}
  (placed : t.shards.get? shard = some hosts) (same : l.Perm hosts.entries)

include placed same

theorem doubts_iff : (∃ h ∈ l, t.doubts h = true) ↔ t.Doubtful shard := by
  simp only [Doubtful, stateOf?, placed, Option.bind_some, SortedMap.get?_eq_some_iff, same.mem_iff,
    doubts, Bool.and_eq_true, decide_eq_true_eq]
  constructor
  · intro h
    obtain ⟨⟨host, state⟩, hm, other, unknown⟩ := h
    cases unknown
    exact ⟨host, other, hm⟩
  · intro h
    obtain ⟨host, other, hm⟩ := h
    exact ⟨(host, .unknown), hm, other, rfl⟩

theorem tally_doubtful (doubtful : t.Doubtful shard) : ∃ host, t.tally 0 0 l = .error host ∧
    host ≠ t.origin ∧ t.stateOf? shard host = some .unknown := by
  obtain ⟨h, hm, doubt⟩ := (doubts_iff placed same).mpr doubtful
  rw [tally_eq]
  cases first : l.find? t.doubts with
  | none => exact absurd doubt (List.find?_eq_none.mp first h hm)
  | some h =>
    have hm := same.mem_iff.mp (List.mem_of_find?_eq_some first)
    have doubt := List.find?_some first
    simp only [doubts, Bool.and_eq_true, decide_eq_true_eq] at doubt
    obtain ⟨other, unknown⟩ := doubt
    refine ⟨h.1, rfl, other, ?_⟩
    rw [stateOf?, placed, Option.bind_some, SortedMap.get?_eq_some_iff, ← unknown]
    exact hm

variable (level) in
theorem tally_clear (clear : ¬ t.Doubtful shard) : ∃ peers serving,
    t.tally 0 0 l = .ok (peers, serving) ∧
      ((0 < serving && level.achieved t.majority peers serving) = true ↔
        t.Qualifies level shard) := by
  have none : l.find? t.doubts = none := List.find?_eq_none.mpr fun h hm doubt =>
    clear ((doubts_iff placed same).mp ⟨h, hm, doubt⟩)
  rw [tally_eq, none]
  refine ⟨_, _, rfl, ?_⟩
  -- only the counts matter, which are the same in any order
  rw [Nat.zero_add, Nat.zero_add, countPeers, countPeers, same.countP_eq, same.countP_eq,
    Bool.and_eq_true, decide_eq_true_eq, qualifies_iff]
  constructor
  · intro h
    exact ⟨hosts, placed, h⟩
  · intro h
    obtain ⟨hosts', placed', h⟩ := h
    rw [placed] at placed'
    cases placed'
    exact h

end Hosts

/-- In which order the hosts of a shard come. -/
abbrev Visit := Shard → SortedMap HostId ReplicaState → List (HostId × ReplicaState)

/-- What can be streamed, shard by shard, with the hosts of each in the order in which they are
visited. -/
def walk (t : Topology) (level : Consistency) (visit : Visit) (answer : Coverage) :
    List (Shard × TimeSet) → Except Error Coverage
  | [] => .ok answer
  | e :: rest =>
    match t.shards.get? e.1 with
    | none => t.walk level visit answer rest
    | some hosts =>
      match t.tally 0 0 (visit e.1 hosts) with
      | .error host =>
        .error (.topology e.1 s!"unknown shard state for host {Bytes.display host}")
      | .ok (peers, serving) =>
        let admitted := 0 < serving && level.achieved t.majority peers serving
        t.walk level visit (if admitted then answer.set e.1 e.2 else answer) rest

variable {visit : Visit} {answer : Coverage} {e : Shard × TimeSet} {l : List (Shard × TimeSet)}

theorem placed_of_doubtful (h : t.Doubtful shard) : ∃ hosts, t.shards.get? shard = some hosts := by
  obtain ⟨host, _, unknown⟩ := h
  obtain ⟨hosts, placed, _⟩ := Option.bind_eq_some_iff.mp unknown
  exact ⟨hosts, placed⟩

section Walk

variable (level answer) (all : ∀ shard hosts, (visit shard hosts).Perm hosts.entries)

include all

theorem walk_doubtful (doubtful : t.Doubtful e.1) : ∃ host, t.walk level visit answer (e :: l) =
      .error (.topology e.1 s!"unknown shard state for host {Bytes.display host}") ∧
    host ≠ t.origin ∧ t.stateOf? e.1 host = some .unknown := by
  obtain ⟨hosts, placed⟩ := placed_of_doubtful doubtful
  obtain ⟨host, stops, other, unknown⟩ := tally_doubtful placed (all e.1 hosts) doubtful
  refine ⟨host, ?_, other, unknown⟩
  simp only [walk, placed, stops]

open Classical in
theorem walk_clear (clear : ¬ t.Doubtful e.1) : t.walk level visit answer (e :: l) =
    t.walk level visit (if t.Qualifies level e.1 then answer.set e.1 e.2 else answer) l := by
  cases placed : t.shards.get? e.1 with
  | none =>
    have out : ¬ t.Qualifies level e.1 := by
      rintro ⟨hosts, placed', _⟩
      rw [placed] at placed'
      cases placed'
    rw [if_neg out]
    simp only [walk, placed]
  | some hosts =>
    obtain ⟨peers, serving, counted, admitted⟩ :=
      tally_clear level placed (all e.1 hosts) clear
    simp only [walk, placed, counted]
    by_cases qualifies : t.Qualifies level e.1
    · rw [if_pos (admitted.mpr qualifies), if_pos qualifies]
    · rw [if_neg fun h => qualifies (admitted.mp h), if_neg qualifies]

/-- The first shard in doubt ends the walk. -/
theorem walk_fails (ascends : l.Pairwise (·.1 < ·.1)) (h : ∃ e ∈ l, t.Doubtful e.1) :
    ∃ e ∈ l, ∃ host, t.walk level visit answer l =
        .error (.topology e.1 s!"unknown shard state for host {Bytes.display host}") ∧
      (host ≠ t.origin ∧ t.stateOf? e.1 host = some .unknown) ∧
      ∀ d ∈ l, t.Doubtful d.1 → e.1 ≤ d.1 := by
  induction l generalizing answer with
  | nil =>
    obtain ⟨_, he, _⟩ := h
    cases he
  | cons e l ih =>
    obtain ⟨first, ascends⟩ := List.pairwise_cons.mp ascends
    by_cases doubtful : t.Doubtful e.1
    · obtain ⟨host, stops, unknown⟩ := walk_doubtful level answer all doubtful (l := l)
      refine ⟨e, List.mem_cons_self, host, stops, unknown, fun d hd _ => ?_⟩
      rcases List.mem_cons.mp hd with rfl | hd
      · exact Nat.le_refl _
      · exact Nat.le_of_lt (first d hd)
    · have later : ∃ e ∈ l, t.Doubtful e.1 := by
        obtain ⟨d, hd, there⟩ := h
        rcases List.mem_cons.mp hd with rfl | hd
        · exact absurd there doubtful
        · exact ⟨d, hd, there⟩
      rw [walk_clear level answer all doubtful]
      obtain ⟨d, hd, host, stops, unknown, least⟩ := ih _ ascends later
      refine ⟨d, List.mem_cons_of_mem _ hd, host, stops, unknown, fun b hb there => ?_⟩
      rcases List.mem_cons.mp hb with rfl | hb
      · exact absurd there doubtful
      · exact least b hb there

/-- Without a doubt every shard is answered for, on its own. -/
theorem walk_answers (ascends : l.Pairwise (·.1 < ·.1)) (clear : ∀ e ∈ l, ¬ t.Doubtful e.1) :
    ∃ last, t.walk level visit answer l = .ok last ∧
      (∀ e ∈ l, t.Qualifies level e.1 → last.get e.1 = e.2) ∧
      ∀ shard, (∀ e ∈ l, e.1 = shard → ¬ t.Qualifies level shard) →
        last.get shard = answer.get shard := by
  classical
  induction l generalizing answer with
  | nil => exact ⟨answer, rfl, fun e he => (List.not_mem_nil he).elim, fun _ _ => rfl⟩
  | cons e l ih =>
    obtain ⟨first, ascends⟩ := List.pairwise_cons.mp ascends
    rw [walk_clear level answer all (clear e List.mem_cons_self)]
    obtain ⟨last, ends, whole, kept⟩ :=
      ih (if t.Qualifies level e.1 then answer.set e.1 e.2 else answer)
      ascends fun d hd => clear d (List.mem_cons_of_mem _ hd)
    refine ⟨last, ends, fun d hd qualifies => ?_, fun shard out => ?_⟩
    · rcases List.mem_cons.mp hd with rfl | hd
      · rw [kept d.1 fun b hb same => ?_, if_pos qualifies, Coverage.get_set, if_pos rfl]
        exact absurd same (Nat.ne_of_gt (first b hb))
      · exact whole d hd qualifies
    · rw [kept shard fun b hb same => out b (List.mem_cons_of_mem _ hb) same]
      split
      · rename_i qualifies
        rw [Coverage.get_set, if_neg]
        rintro rfl
        exact out e List.mem_cons_self rfl qualifies
      · rfl

theorem walk_gate (t : Topology) (level : Consistency) (requested : Coverage) :
    t.Gate level requested (t.walk level visit .empty requested.entries) := by
  have ascends : requested.entries.Pairwise (·.1 < ·.1) := requested.sets.ascending
  by_cases doubt : ∃ e ∈ requested.entries, t.Doubtful e.1
  · obtain ⟨e, he, host, stops, ⟨other, unknown⟩, least⟩ :=
      walk_fails level .empty all ascends doubt
    rw [stops]
    refine .stopped other unknown (Coverage.isEmpty_get_eq_false_iff.mpr ⟨e, he, rfl⟩) ?_
    intro _ some there
    obtain ⟨d, hd, rfl⟩ := Coverage.isEmpty_get_eq_false_iff.mp some
    exact least d hd there
  · obtain ⟨last, ends, whole, kept⟩ := walk_answers level .empty all ascends
      fun e he there => doubt ⟨e, he, there⟩
    rw [ends]
    refine .answered (fun _ some there => ?_) (fun shard qualifies => ?_) fun shard out => ?_
    · obtain ⟨e, he, rfl⟩ := Coverage.isEmpty_get_eq_false_iff.mp some
      exact doubt ⟨e, he, there⟩
    · by_cases here : ∃ e ∈ requested.entries, e.1 = shard
      · obtain ⟨e, he, rfl⟩ := here
        rw [whole e he qualifies, Coverage.get_of_mem_entries he]
      · have apart : ∀ e ∈ requested.entries, e.1 ≠ shard := fun e he same => here ⟨e, he, same⟩
        rw [kept shard fun e he same => absurd same (apart e he), Coverage.get_empty,
          Coverage.get_of_not_mem_entries apart]
    · rw [kept shard fun _ _ _ => out, Coverage.get_empty]

end Walk

theorem quorum_eq (t : Topology) (level : Consistency) (l : List (HostId × ReplicaState)) :
    t.quorum level (l.filter (·.1 ≠ t.origin)) =
      (0 < t.countPeers (·.serves) l && level.achieved t.majority (t.countPeers (fun _ => true) l)
        (t.countPeers (·.serves) l)) := by
  simp only [quorum, countPeers, List.filter_filter, ← List.countP_eq_length_filter, Bool.and_true,
    Bool.and_comm (ReplicaState.serves _)]
  rfl

theorem admits_eq (t : Topology) (level : Consistency) (shard : Shard) :
    t.admits level shard = match t.shards.get? shard with
      | none => .ok false
      | some hosts => match t.tally 0 0 hosts.entries with
        | .error host =>
          .error (.topology shard s!"unknown shard state for host {Bytes.display host}")
        | .ok (peers, serving) =>
          .ok (0 < serving && level.achieved t.majority peers serving) := by
  rw [admits, peers]
  cases t.shards.get? shard with
  | none => rfl
  | some hosts =>
    have doubts : (fun h : HostId × ReplicaState =>
        decide (decide (h.1 ≠ t.origin) = true ∧ decide (h.2 = .unknown) = true)) = t.doubts := by
      funext h
      simp [Topology.doubts]
    simp only [Option.map_some, tally_eq, List.find?_filter, doubts, quorum_eq, Nat.zero_add]
    cases hosts.entries.find? t.doubts <;> rfl

/-- Going through the hosts by name gives the answer. -/
theorem available_eq_walk (t : Topology) (level : Consistency) (requested : Coverage) :
    t.available level requested =
      t.walk level (fun _ hosts => hosts.entries) .empty requested.entries := by
  have walked (l : List (Shard × TimeSet)) (answer : Coverage) :
      (t.admitted level l).map (fun k => k.foldl (fun c e => c.set e.1 e.2) answer) =
        t.walk level (fun _ hosts => hosts.entries) answer l := by
    induction l generalizing answer with
    | nil => rfl
    | cons e l ih =>
      rw [admitted, admits_eq, walk]
      cases t.shards.get? e.1 with
      | none =>
        dsimp only
        rw [← ih]
        cases t.admitted level l <;> rfl
      | some hosts =>
        dsimp only
        cases t.tally 0 0 hosts.entries with
        | error host => rfl
        | ok counts =>
          dsimp only
          rw [← ih]
          cases t.admitted level l with
          | error e => rfl
          | ok k => cases (0 < counts.2 && level.achieved t.majority counts.1 counts.2) <;> rfl
  exact walked requested.entries .empty

/-- Asking fails just where a peer of a shard asked for is in a state that is not known, and names
the first such shard. Otherwise each shard is answered for as a whole or not at all, as the counts
of its peers say. It is the same in whatever order the hosts come. -/
theorem available_gate (t : Topology) (level : Consistency) (requested : Coverage) :
    t.Gate level requested (t.available level requested) ∧
      ∀ visit : Visit, (∀ shard hosts, (visit shard hosts).Perm hosts.entries) →
        t.Gate level requested (t.walk level visit .empty requested.entries) ∧
          ∀ answer, t.walk level visit .empty requested.entries = .ok answer ↔
            t.available level requested = .ok answer := by
  have gate : t.Gate level requested (t.available level requested) := by
    rw [available_eq_walk]
    exact walk_gate (fun _ _ => .refl _) t level requested
  refine ⟨gate, fun visit all => ?_⟩
  have walked := walk_gate all t level requested
  exact ⟨walked, fun answer => ⟨walked.answer_unique gate, gate.answer_unique walked⟩⟩

/-- The host that is being filled does not count, whatever it says of itself; shard 2 is not placed,
and shard 3 is in doubt. The hosts are visited from the last to the first. -/
theorem available_gate_reversed :
    let t := ((((((((ofOrigin [2] 2).place 0 [1] .available).place 0 [2] .unknown).place 0 [3]
      .leaving).place 0 [4] .initializing).place 1 [1] .available).place 1 [3] .initializing).place
      3 [1] .available).place 3 [4] .unknown
    let reversed : Visit := fun _ hosts => hosts.entries.reverse
    let asked := Coverage.ofShards [0, 1, 2] ⟨0, 10⟩
    let wider := Coverage.ofShards [0, 1, 2, 3] ⟨0, 10⟩
    (∀ shard hosts, (reversed shard hosts).Perm hosts.entries) ∧
      t.walk .majority reversed .empty asked.entries = .ok (Coverage.ofShards [0] ⟨0, 10⟩) ∧
      t.Gate .majority asked (t.walk .majority reversed .empty asked.entries) ∧
      ∃ why, t.walk .majority reversed .empty wider.entries = .error (.topology 3 why) := by
  intro t reversed asked wider
  have perm (shard : Shard) (hosts : SortedMap HostId ReplicaState) :
      (reversed shard hosts).Perm hosts.entries := List.reverse_perm _
  obtain ⟨gate, same⟩ := (available_gate t .majority asked).2 reversed perm
  have answer : t.available .majority asked = .ok (Coverage.ofShards [0] ⟨0, 10⟩) := rfl
  exact ⟨perm, (same _).mpr answer, gate, _, rfl⟩

end Topology

end Backfill
