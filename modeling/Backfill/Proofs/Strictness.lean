import Backfill.Proofs.PeerQuorum

/-!
The answers at different levels of consistency, side by side. Stricter levels admit no more, save
that every peer can be fewer than the majority; and a peer that comes to serve takes no shard away.
-/

namespace Backfill

namespace Consistency

theorem achieved_all {m peers serving : Nat} : all.achieved m peers serving = true ↔
    serving = peers := by
  simp [achieved]

theorem achieved_majority {m peers serving : Nat} : majority.achieved m peers serving = true ↔
    m ≤ serving := by
  simp [achieved]

/-- Replicas that can be read besides those that sufficed. -/
theorem achieved_mono {level : Consistency} {m peers serving more : Nat}
    (h : level.achieved m peers serving = true) (grown : serving ≤ more) (bound : more ≤ peers) :
    level.achieved m peers more = true := by
  cases level <;> simp [achieved] at h ⊢ <;> omega

/-- The levels that settle for a single answer. -/
def lenient : Consistency → Bool
  | none | one | unstrictMajority | unstrictAll => true
  | majority | all => false

theorem achieved_lenient {level : Consistency} (h : level.lenient = true) {m peers serving : Nat}
    (some : 0 < serving) : level.achieved m peers serving = true := by
  cases level <;> simp [lenient, achieved] at h ⊢ <;> exact some

end Consistency

namespace Topology

variable {t u : Topology} {level : Consistency} {requested answer : Coverage} {shard : Shard}

/-- How many hosts besides the one that is being filled have the shard. -/
def knownPeers (t : Topology) (shard : Shard) : Nat := ((t.peers shard).getD []).length

theorem knownPeers_eq {hosts : SortedMap HostId ReplicaState}
    (placed : t.shards.get? shard = some hosts) :
    t.knownPeers shard = t.countPeers (fun _ => true) hosts.entries := by
  simp [knownPeers, peers, placed, countPeers, List.countP_eq_length_filter]

theorem countPeers_serves_le (t : Topology) (l : List (HostId × ReplicaState)) :
    t.countPeers (·.serves) l ≤ t.countPeers (fun _ => true) l := by
  apply List.countP_mono_left
  intro h _
  simp
  intro other _
  exact other

/-- Every level that settles for a single answer asks for nothing but one. -/
theorem qualifies_lenient (h : level.lenient = true) :
    t.Qualifies level shard ↔ ∃ strict, t.Qualifies strict shard := by
  constructor
  · intro qualifies
    exact ⟨level, qualifies⟩
  · intro qualifies
    obtain ⟨strict, qualifies⟩ := qualifies
    obtain ⟨hosts, placed, some, _⟩ := qualifies_iff.mp qualifies
    exact qualifies_iff.mpr ⟨hosts, placed, some, Consistency.achieved_lenient h some⟩

/-- When every peer serves, they make up a majority unless they are too few altogether. -/
theorem qualifies_majority_of_all (h : t.Qualifies .all shard) :
    t.Qualifies .majority shard ↔ t.majority ≤ t.knownPeers shard := by
  obtain ⟨hosts, placed, some, every⟩ := qualifies_iff.mp h
  rw [Consistency.achieved_all] at every
  rw [knownPeers_eq placed, ← every]
  constructor
  · intro qualifies
    obtain ⟨hosts', placed', _, enough⟩ := qualifies_iff.mp qualifies
    rw [placed, Option.some.injEq] at placed'
    subst placed'
    exact Consistency.achieved_majority.mp enough
  · intro enough
    exact qualifies_iff.mpr ⟨hosts, placed, some, Consistency.achieved_majority.mpr enough⟩

/-- A peer that was being filled comes to serve a shard. -/
inductive Turn (t : Topology) : Topology → Prop
  | serve {shard : Shard} {host : HostId} {state : ReplicaState} (other : host ≠ t.origin)
      (filling : t.stateOf? shard host = some .initializing)
      (serves : state = .available ∨ state = .leaving) : Turn t (t.place shard host state)

/-- Any number of peers, one after the other. -/
inductive Turns (t : Topology) : Topology → Prop
  | refl : Turns t t
  | turn {u v : Topology} (h : Turns t u) (next : u.Turn v) : Turns t v

theorem stateOf?_place (t : Topology) (shard other : Shard) (host peer : HostId)
    (state : ReplicaState) : (t.place shard host state).stateOf? other peer =
      if other = shard ∧ peer = host then some state else t.stateOf? other peer := by
  rw [stateOf?, place, stateOf?, SortedMap.get?_update]
  by_cases same : other = shard
  · subst same
    simp only [↓reduceIte, Option.bind_some, SortedMap.get?_insert, true_and]
    split
    · rfl
    · cases t.shards.get? other <;> simp
  · simp [same]

theorem Turn.doubtful_iff (h : t.Turn u) : u.Doubtful shard ↔ t.Doubtful shard := by
  obtain ⟨other, filling, serves⟩ := h
  rename_i turned host state
  refine exists_congr fun peer => and_congr_right fun _ => ?_
  rw [stateOf?_place]
  split
  · rename_i here
    obtain ⟨rfl, rfl⟩ := here
    rw [filling]
    rcases serves with rfl | rfl <;> simp
  · rfl

theorem Turn.majority_eq (h : t.Turn u) : u.majority = t.majority := by
  cases h
  rfl

/-- The hosts stay the ones they were when one of them changes. -/
theorem countPeers_insert (t : Topology) {hosts : SortedMap HostId ReplicaState} {host : HostId}
    {before : ReplicaState} (held : hosts.get? host = some before) (state : ReplicaState)
    (p : ReplicaState → Bool) : t.countPeers p (hosts.insert host state).entries =
      hosts.entries.countP fun h =>
        decide (h.1 ≠ t.origin) && p (if h.1 = host then state else h.2) := by
  rw [SortedMap.insert_eq_filterMap held state, countPeers]
  simp only [SortedMap.filterMap, List.countP_filterMap, Option.map_some, Option.getD_some]

/-- The peers stay as many, and those that serve do not get fewer. -/
theorem Turn.counts (h : t.Turn u) {hosts : SortedMap HostId ReplicaState}
    (placed : t.shards.get? shard = some hosts) : ∃ hosts', u.shards.get? shard = some hosts' ∧
      u.countPeers (fun _ => true) hosts'.entries = t.countPeers (fun _ => true) hosts.entries ∧
      t.countPeers (·.serves) hosts.entries ≤ u.countPeers (·.serves) hosts'.entries := by
  obtain ⟨other, filling, serves⟩ := h
  rename_i turned host state
  by_cases here : shard = turned
  · subst here
    simp only [stateOf?, placed, Option.bind_some] at filling
    have counted := countPeers_insert (t.place shard host state) filling state
    refine ⟨hosts.insert host state, by simp [place, placed], counted _, ?_⟩
    rw [counted, countPeers]
    apply List.countP_mono_left
    intro h _ before
    simp only [Bool.and_eq_true] at before ⊢
    refine ⟨before.1, ?_⟩
    -- the replica that changed did not serve before, and does now
    split
    · rcases serves with rfl | rfl <;> rfl
    · exact before.2
  · exact ⟨hosts, by simp [place, here, placed], rfl, Nat.le_refl _⟩

theorem Turn.qualifies (h : t.Turn u) (qualifies : t.Qualifies level shard) :
    u.Qualifies level shard := by
  obtain ⟨hosts, placed, some, enough⟩ := qualifies_iff.mp qualifies
  obtain ⟨hosts', placed', same, grown⟩ := h.counts placed
  refine qualifies_iff.mpr ⟨hosts', placed', by omega, ?_⟩
  rw [h.majority_eq, same]
  exact Consistency.achieved_mono enough grown (same ▸ countPeers_serves_le u _)

theorem Turns.doubtful_iff (h : t.Turns u) : u.Doubtful shard ↔ t.Doubtful shard := by
  induction h with
  | refl => rfl
  | turn _ next ih => exact next.doubtful_iff.trans ih

theorem Turns.qualifies (h : t.Turns u) (qualifies : t.Qualifies level shard) :
    u.Qualifies level shard := by
  induction h with
  | refl => exact qualifies
  | turn _ next ih => exact next.qualifies ih

theorem available_gated (t : Topology) (level : Consistency) (requested : Coverage) :
    t.Gate level requested (t.available level requested) := by
  rw [available_eq_walk]
  exact walk_gate (fun _ _ => .refl _) t level requested

/-- Whether there is an answer does not depend on the level. -/
theorem available_ok_iff (t : Topology) (level : Consistency) (requested : Coverage) :
    (∃ answer, t.available level requested = .ok answer) ↔
      ∀ shard, (requested.get shard).isEmpty = false → ¬ t.Doubtful shard := by
  have fails := (available_gated t level requested).fails_iff
  cases outcome : t.available level requested with
  | error e =>
    obtain ⟨shard, asked, doubtful⟩ := fails.mp ⟨e, outcome⟩
    constructor
    · intro answered
      cases answered.choose_spec
    · intro clear
      exact absurd doubtful (clear shard asked)
  | ok answer =>
    refine ⟨fun _ shard asked doubtful => ?_, fun _ => ⟨answer, rfl⟩⟩
    obtain ⟨e, failed⟩ := fails.mpr ⟨shard, asked, doubtful⟩
    rw [outcome] at failed
    cases failed

theorem mem_available (h : t.available level requested = .ok answer) {p : Shard × Instant} :
    p ∈ answer ↔ p ∈ requested ∧ t.Qualifies level p.1 := by
  have gate := available_gated t level requested
  obtain ⟨shard, at_⟩ := p
  rw [Coverage.mem_def, Coverage.mem_def]
  by_cases qualifies : t.Qualifies level shard
  · rw [gate.whole answer h shard qualifies]
    simp [qualifies]
  · rw [gate.nothing answer h shard qualifies]
    simp [qualifies]

theorem available_get (h : t.available level requested = .ok answer)
    (held : shard ∈ answer.shards) :
    t.Qualifies level shard ∧ answer.get shard = requested.get shard := by
  have gate := available_gated t level requested
  by_cases qualifies : t.Qualifies level shard
  · exact ⟨qualifies, gate.whole answer h shard qualifies⟩
  · rw [Coverage.mem_shards, gate.nothing answer h shard qualifies] at held
    cases held

theorem available_congr {other : Consistency} {later : Coverage}
    (same : ∀ shard, t.Qualifies level shard ↔ t.Qualifies other shard)
    (h : t.available level requested = .ok answer) (h' : t.available other requested = .ok later) :
    answer = later := by
  have gate := available_gated t level requested
  have gate' := available_gated t other requested
  refine Coverage.ext_get fun shard => ?_
  by_cases qualifies : t.Qualifies level shard
  · rw [gate.whole answer h shard qualifies,
      gate'.whole later h' shard ((same shard).mp qualifies)]
  · rw [gate.nothing answer h shard qualifies,
      gate'.nothing later h' shard fun q => qualifies ((same shard).mpr q)]

/-- Peers that come to serve take no shard away, at any level, and do not make asking fail. -/
theorem Turns.available (h : t.Turns u) (ok : t.available level requested = .ok answer) :
    ∃ later, u.available level requested = .ok later ∧
      ∀ shard ∈ answer.shards, shard ∈ later.shards ∧ later.get shard = answer.get shard := by
  have clear := (available_ok_iff t level requested).mp ⟨answer, ok⟩
  obtain ⟨later, ok'⟩ := (available_ok_iff u level requested).mpr
    fun shard asked doubtful => clear shard asked (h.doubtful_iff.mp doubtful)
  refine ⟨later, ok', fun shard held => ?_⟩
  obtain ⟨qualifies, whole⟩ := available_get ok held
  have same : later.get shard = answer.get shard := by
    rw [whole, (available_gated u level requested).whole later ok' shard (h.qualifies qualifies)]
  refine ⟨?_, same⟩
  rw [Coverage.mem_shards] at held ⊢
  rwa [same]

/-- The answers at all levels to one request. -/
structure Nested (t : Topology) (requested : Coverage) (answer : Consistency → Coverage) :
    Prop where
  answers : ∀ level, t.available level requested = .ok (answer level)
  all : ∀ p ∈ answer .all, p ∈ answer .majority ↔ t.majority ≤ t.knownPeers p.1
  majority : ∀ p, p ∈ answer .all ∨ p ∈ answer .majority → p ∈ answer .unstrictMajority
  unstrict : answer .unstrictAll = answer .unstrictMajority ∧
    answer .one = answer .unstrictMajority ∧ answer .none = answer .unstrictMajority
  turned : ∀ u, t.Turns u → ∀ level, ∃ later, u.available level requested = .ok later ∧
    ∀ shard ∈ (answer level).shards,
      shard ∈ later.shards ∧ later.get shard = (answer level).get shard

/-- An answer at one level means answers at all of them. What all peers together may give, a
majority may give unless the shard has fewer peers than that; what either may give, any level that
settles for one peer may. -/
theorem available_nested (h : t.available level requested = .ok answer) :
    ∃ answers, t.Nested requested answers := by
  have clear := (available_ok_iff t level requested).mp ⟨answer, h⟩
  have total (level : Consistency) := (available_ok_iff t level requested).mpr clear
  obtain ⟨answers, ok⟩ := Classical.axiomOfChoice total
  have equal {level : Consistency} (lenient : level.lenient = true) :
      answers level = answers .unstrictMajority := by
    refine available_congr (fun shard => ?_) (ok level) (ok .unstrictMajority)
    rw [qualifies_lenient lenient, qualifies_lenient rfl]
  refine ⟨answers, ok, ?_, ?_, ⟨equal rfl, equal rfl, equal rfl⟩, fun u turned level =>
    turned.available (ok level)⟩
  · intro p hp
    obtain ⟨asked, every⟩ := (mem_available (ok .all)).mp hp
    rw [mem_available (ok .majority), qualifies_majority_of_all every]
    exact and_iff_right asked
  · intro p hp
    simp only [mem_available (ok _)] at hp ⊢
    rcases hp with ⟨asked, qualifies⟩ | ⟨asked, qualifies⟩
    all_goals exact ⟨asked, (qualifies_lenient rfl).mpr ⟨_, qualifies⟩⟩

/-- Shard 1 has a second peer, which was being filled and then hands the shard on. -/
theorem available_nested_turned :
    let t := ((((ofOrigin [9] 2).place 0 [9] .initializing).place 0 [1] .available).place 1 [1]
      .available).place 1 [2] .initializing
    let asked := Coverage.ofShards [0, 1] ⟨0, 10⟩
    t.available .one asked = .ok asked ∧ (∃ answers, t.Nested asked answers) ∧
      t.Turns (t.place 1 [2] .leaving) := by
  intro t asked
  have answered : t.available .one asked = .ok asked := rfl
  have turn : t.Turn (t.place 1 [2] .leaving) := .serve (by decide) rfl (.inr rfl)
  exact ⟨answered, available_nested answered, .turn .refl turn⟩

/-- The one peer of the shard serves, so all of them do, but two would be a majority. -/
theorem available_all_exceeds :
    let t := ((ofOrigin [9] 2).place 0 [9] .initializing).place 0 [1] .available
    let asked := Coverage.ofShards [0] ⟨0, 10⟩
    t.available .all asked = .ok asked ∧ t.available .majority asked = .ok .empty ∧
      (0, 5) ∈ asked ∧ (0, 5) ∉ Coverage.empty := by
  refine ⟨rfl, rfl, ?_, ?_⟩
  · decide
  · decide

end Topology

end Backfill
