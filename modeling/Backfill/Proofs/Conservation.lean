import Mathlib.Data.List.Forall2
import Mathlib.Data.List.Nodup
import Backfill.Chain
import Backfill.Proofs.Folds
import Backfill.Proofs.Recovery

/-!
What sources in a chain leave missing: each instant asked for is given by one of them, or passed on
to the next, and in the end it is missing.
-/

namespace Backfill

def Request.ask (r : Request) : Phase → Coverage
  | .data => r.data.ranges
  | .index => r.index.ranges

/-- Data always counts, an index only where there is one. -/
def Request.Keeps (r : Request) : Phase → Prop
  | .data => True
  | .index => r.policy.indexed = true

def Recovery.missing (f : Recovery) : Phase → Coverage
  | .data => f.data.missing
  | .index => f.index.missing

/-- No answer of the source is an error. -/
structure Source.Answers (s : Source) : Prop where
  data : ∀ id policy ranges options, ∃ c, s.availableData id policy ranges options = .ok c
  index : ∀ id policy ranges options, ∃ c, s.availableIndex id policy ranges options = .ok c
  read : ∀ requests, ∃ found, (s.read requests).outcome = .ok found

namespace Chain

/-- `r` with other ranges. -/
def SameTerms (r o : Request) : Prop :=
  o = { r with data := { r.data with ranges := o.data.ranges }
               index := { r.index with ranges := o.index.ranges } }

/-- `asked` holds what `s` says it has of what is left. -/
structure Narrowed (s : Source) (left asked : Request) : Prop where
  terms : SameTerms left asked
  data : s.availableData left.id left.policy left.data.ranges left.data.options =
    .ok asked.data.ranges
  index : s.availableIndex left.id left.policy left.index.ranges left.index.options =
    .ok asked.index.ranges

/-- The round is the turn of `s`. -/
structure Turn (s : Source) (round : Round) : Prop where
  asked : List.Forall₂ (Narrowed s) round.offered round.asked
  read : round.read = s.read round.asked

/-- The namespace was asked for `p`, is in the result, and `p` is not reported missing there. -/
def Round.Gives (round : Round) (phase : Phase) (id : NamespaceId) (p : Shard × Instant) : Prop :=
  ∃ a ∈ round.asked, a.id = id ∧ p ∈ a.ask phase ∧
    ∃ found f, round.read.outcome = .ok found ∧ found.get? id = some f ∧ p ∉ f.missing phase

/-- `o` is what the rounds leave of `r`. -/
structure Leaves (rounds : List Round) (r o : Request) : Prop where
  terms : SameTerms r o
  left : ∀ phase, r.Keeps phase → ∀ p, p ∈ o.ask phase ↔
    p ∈ r.ask phase ∧ ∀ round ∈ rounds, ¬ round.Gives phase r.id p

theorem SameTerms.id_eq {r o : Request} (h : SameTerms r o) : o.id = r.id := by rw [h]

theorem SameTerms.policy_eq {r o : Request} (h : SameTerms r o) : o.policy = r.policy := by rw [h]

theorem SameTerms.keeps_iff {r o : Request} (h : SameTerms r o) (phase : Phase) :
    o.Keeps phase ↔ r.Keeps phase := by
  cases phase with
  | data => exact Iff.rfl
  | index => simp only [Request.Keeps, h.policy_eq]

theorem SameTerms.trans {a b c : Request} (h : SameTerms a b) (h' : SameTerms b c) :
    SameTerms a c := by
  unfold SameTerms at *
  rw [h] at h'
  exact h'

theorem Leaves.refl (r : Request) : Leaves [] r r := ⟨rfl, by simp⟩

theorem Leaves.trans {before after : List Round} {r m o : Request} (h : Leaves before r m)
    (h' : Leaves after m o) : Leaves (before ++ after) r o := by
  refine ⟨h.terms.trans h'.terms, fun phase hk p => ?_⟩
  rw [h'.left phase ((h.terms.keeps_iff phase).mpr hk) p, h.left phase hk p, h.terms.id_eq]
  simp only [List.mem_append, or_imp, forall_and, and_assoc]

theorem forall₂_leaves_trans {before after : List Round} {l m n : List Request}
    (h : List.Forall₂ (Leaves before) l m) (h' : List.Forall₂ (Leaves after) m n) :
    List.Forall₂ (Leaves (before ++ after)) l n := by
  induction h generalizing n with
  | nil =>
    cases h'
    exact .nil
  | cons hlm _ ih =>
    cases h' with
    | cons hmn ht => exact .cons (hlm.trans hmn) (ih ht)

theorem exists_of_forall₂ {R : Request → Request → Prop} {l m : List Request}
    (h : List.Forall₂ R l m) {r : Request} (hr : r ∈ l) : ∃ o ∈ m, R r o := by
  induction h with
  | nil => cases hr
  | @cons a b l m hab _ ih =>
    rcases List.mem_cons.mp hr with rfl | hr
    · exact ⟨b, List.mem_cons_self, hab⟩
    · obtain ⟨o, ho, hro⟩ := ih hr
      exact ⟨o, List.mem_cons_of_mem _ ho, hro⟩

theorem ids_eq_of_forall₂ {R : Request → Request → Prop} {l m : List Request}
    (h : List.Forall₂ R l m) (hr : ∀ a b, R a b → b.id = a.id) :
    m.map (·.id) = l.map (·.id) := by
  induction h with
  | nil => rfl
  | cons hab _ ih => simp only [List.map_cons, hr _ _ hab, ih]

theorem narrow_ok {s : Source} (h : s.Answers) (r : Request) :
    ∃ a, narrow s r = .ok a ∧ Narrowed s r a := by
  obtain ⟨data, hd⟩ := h.data r.id r.policy r.data.ranges r.data.options
  obtain ⟨index, hi⟩ := h.index r.id r.policy r.index.ranges r.index.options
  refine ⟨{ r with data := { r.data with ranges := data }
                   index := { r.index with ranges := index } }, ?_, rfl, hd, hi⟩
  simp only [narrow, hd, hi]
  rfl

theorem mapM_narrow_ok {s : Source} (h : s.Answers) (left : List Request) :
    ∃ asked, left.mapM (narrow s) = .ok asked ∧ List.Forall₂ (Narrowed s) left asked := by
  induction left with
  | nil => exact ⟨[], rfl, .nil⟩
  | cons r left ih =>
    obtain ⟨a, ha, hn⟩ := narrow_ok h r
    obtain ⟨asked, hl, hf⟩ := ih
    refine ⟨a :: asked, ?_, .cons hn hf⟩
    rw [List.mapM_cons, ha, hl]
    rfl

/-- Whatever is left after a turn is neither read nor, if it was asked for, reported as had. -/
theorem mem_ask_settle {found : Recoveries} {left asked : Request} {phase : Phase}
    (hk : left.Keeps phase) {p : Shard × Instant} :
    p ∈ (settle found left asked).ask phase ↔ p ∈ left.ask phase ∧
      ¬ (p ∈ asked.ask phase ∧ ∃ f, found.get? left.id = some f ∧ p ∉ f.missing phase) := by
  cases hf : found.get? left.id with
  | none => simp [settle, hf]
  | some f =>
    cases phase with
    | data => simp [settle, hf, Request.ask, Recovery.missing]
    | index =>
      have hi : left.policy.indexed = true := hk
      simp [settle, hf, Request.ask, Recovery.missing, hi]

theorem settle_terms (found : Recoveries) (left asked : Request) :
    SameTerms left (settle found left asked) := by
  unfold SameTerms settle
  split <;> rfl

/-- With one request for each namespace, what a round gives for it is read off that request. -/
theorem gives_iff {s : Source} {left asked : List Request} {found : Recoveries}
    (distinct : (left.map (·.id)).Nodup) (hf : List.Forall₂ (Narrowed s) left asked)
    (hread : (s.read asked).outcome = .ok found) {l a : Request} (hm : (l, a) ∈ left.zip asked)
    (phase : Phase) (p : Shard × Instant) :
    Round.Gives ⟨left, asked, s.read asked⟩ phase l.id p ↔
      p ∈ a.ask phase ∧ ∃ f, found.get? l.id = some f ∧ p ∉ f.missing phase := by
  have ids := ids_eq_of_forall₂ hf fun _ _ h => h.terms.id_eq
  have ha : a ∈ asked := (List.of_mem_zip hm).2
  have hid : a.id = l.id := (List.forall₂_zip hf hm).terms.id_eq
  constructor
  · intro hx
    obtain ⟨b, hb, hbid, hp, found', f, hfound, hget, hmiss⟩ := hx
    have hba : b = a := by
      rw [← ids] at distinct
      exact List.inj_on_of_nodup_map distinct hb ha (hbid.trans hid.symm)
    have eq : found' = found := Except.ok.inj (hfound.symm.trans hread)
    exact ⟨hba ▸ hp, f, eq ▸ hget, hmiss⟩
  · intro hx
    obtain ⟨hp, f, hget, hmiss⟩ := hx
    exact ⟨a, ha, hid, hp, found, f, hread, hget, hmiss⟩

theorem zip_settle_leaves {s : Source} {left asked : List Request} {found : Recoveries}
    (distinct : (left.map (·.id)).Nodup) (hf : List.Forall₂ (Narrowed s) left asked)
    (hread : (s.read asked).outcome = .ok found) :
    List.Forall₂ (Leaves [⟨left, asked, s.read asked⟩]) left
      (List.zipWith (settle found) left asked) := by
  have gives := fun l a hm phase p => gives_iff distinct hf hread (l := l) (a := a) hm phase p
  generalize (⟨left, asked, s.read asked⟩ : Round) = round at gives
  clear distinct hread
  induction hf with
  | nil => exact .nil
  | @cons l a ls as hn hf ih =>
    refine .cons ⟨settle_terms found l a, fun phase hk p => ?_⟩ (ih fun l' a' hm =>
      gives l' a' (List.mem_cons_of_mem _ hm))
    rw [mem_ask_settle hk, List.forall_mem_singleton, gives l a List.mem_cons_self]

/-- What a request that is through all sources makes of what was found for it. -/
def concluded (left : Request) (found : Option Recovery) : Recovery :=
  let f := found.getD left.recovery
  { f with data := { f.data with missing := left.data.ranges }
           index := { f.index with missing := left.indexRanges } }

theorem get?_conclude (merged : Recoveries) (left : Request) (id : NamespaceId) :
    (conclude merged left).get? id =
      if id = left.id then some (concluded left (merged.get? left.id)) else merged.get? id := by
  have held : (if (merged.get? left.id).isSome then merged
      else merged.insert left.id left.recovery).get? left.id =
      some ((merged.get? left.id).getD left.recovery) := by
    cases h : merged.get? left.id <;> simp [h]
  rw [conclude, Recoveries.get?_modify, held]
  split
  · rfl
  · rename_i ne
    split
    · rfl
    · rw [Recoveries.get?_insert, if_neg ne]

theorem get?_foldl_conclude {left : List Request} (distinct : (left.map (·.id)).Nodup)
    {r : Request} (hr : r ∈ left) (merged : Recoveries) :
    (left.foldl conclude merged).get? r.id = some (concluded r (merged.get? r.id)) := by
  have apart : left.Pairwise (·.id ≠ ·.id) := List.pairwise_map.mp distinct
  refine (foldl_keyed (·.id) Recoveries.get? (fun r found => some (concluded r found))
    (fun r merged => ⟨?_, fun id ne => ?_⟩) apart merged).1 r hr
  · rw [get?_conclude, if_pos rfl]
  · rw [get?_conclude, if_neg ne.symm]

theorem mem_missing_concluded {r : Request} {found : Option Recovery} {phase : Phase}
    {p : Shard × Instant} :
    p ∈ (concluded r found).missing phase ↔ r.Keeps phase ∧ p ∈ r.ask phase := by
  cases phase with
  | data => simp [concluded, Recovery.missing, Request.Keeps, Request.ask]
  | index =>
    simp only [concluded, Recovery.missing, Request.Keeps, Request.ask, Request.indexRanges]
    split
    · simp [*]
    · simp [*]

/-- What a chain started on `left` does, with `merged` found before. -/
structure Conserves (sources : List Source) (left : List Request) (account : Account) : Prop where
  turns : List.Forall₂ Turn sources account.rounds
  offered : ∀ k round, account.rounds[k]? = some round →
    List.Forall₂ (Leaves (account.rounds.take k)) left round.offered
  final : ∃ last, account.outcome = .ok last ∧ ∀ r ∈ left, ∃ f, last.get? r.id = some f ∧
    (∀ phase p, p ∈ f.missing phase ↔ r.Keeps phase ∧ p ∈ r.ask phase ∧
      ∀ round ∈ account.rounds, ¬ round.Gives phase r.id p) ∧
    (r.policy.indexed = false → f.index.missing = .empty)

theorem runFrom_conserves {sources : List Source} (answers : ∀ s ∈ sources, s.Answers)
    {left : List Request} (distinct : (left.map (·.id)).Nodup) (merged : Recoveries) :
    Conserves sources left (runFrom sources left merged) := by
  induction sources generalizing left merged with
  | nil =>
    refine ⟨.nil, fun k round h => by simp [runFrom] at h, _, rfl, fun r hr => ?_⟩
    have hf := get?_foldl_conclude distinct hr merged
    refine ⟨_, hf, fun phase p => by simp [mem_missing_concluded, runFrom], fun unindexed => ?_⟩
    simp [concluded, Request.indexRanges, unindexed]
  | cons s rest ih =>
    obtain ⟨asked, hasked, hn⟩ := mapM_narrow_ok (answers s List.mem_cons_self) left
    obtain ⟨found, hfound⟩ := (answers s List.mem_cons_self).read asked
    have hstep := zip_settle_leaves distinct hn hfound
    have ids := ids_eq_of_forall₂ hstep fun _ _ h => h.terms.id_eq
    have next := ih (fun s' hs => answers s' (List.mem_cons_of_mem _ hs)) (ids ▸ distinct)
      (merged.merge found)
    simp only [runFrom, hasked, hfound]
    refine ⟨.cons ⟨hn, rfl⟩ next.turns, ?_, ?_⟩
    · intro k round hk
      -- the first round is offered everything, each later one what the first has left as well
      cases k with
      | zero =>
        cases hk
        exact List.forall₂_same.mpr fun r _ => .refl r
      | succ k => exact forall₂_leaves_trans hstep (next.offered k round hk)
    · obtain ⟨last, hlast, hall⟩ := next.final
      refine ⟨last, hlast, fun r hr => ?_⟩
      obtain ⟨o, ho, hro⟩ := exists_of_forall₂ hstep hr
      obtain ⟨f, hf, hmiss, hempty⟩ := hall o ho
      rw [hro.terms.id_eq] at hf hmiss
      refine ⟨f, hf, fun phase p => ?_, hro.terms.policy_eq ▸ hempty⟩
      rw [hmiss, hro.terms.keeps_iff, List.forall_mem_cons]
      constructor
      · intro hm
        obtain ⟨hk, ho, hrest⟩ := hm
        obtain ⟨hp, hfirst⟩ := (hro.left phase hk p).mp ho
        exact ⟨hk, hp, hfirst _ List.mem_cons_self, hrest⟩
      · intro hm
        obtain ⟨hk, hp, hfirst, hrest⟩ := hm
        exact ⟨hk, (hro.left phase hk p).mpr ⟨hp, List.forall_mem_singleton.mpr hfirst⟩, hrest⟩

/-- For any sources that answer, and one request for each namespace: what a source is offered is
what those before it left, and what is missing in the end is what all of them left. -/
theorem run_conserves (sources : List Source) (requests : List Request)
    (answers : ∀ s ∈ sources, s.Answers) (distinct : (requests.map (·.id)).Nodup) :
    Conserves sources requests (run sources requests) :=
  runFrom_conserves answers distinct .empty

/-- Offers the same ranges whatever is asked for, and reports the same ones missing. -/
def fixed (offered missing : Coverage) : Source where
  name := "fixed"
  availableData _ _ _ _ := .ok offered
  availableIndex _ _ _ _ := .ok offered
  read requests := .pure <| requests.foldl (fun m r =>
    m.insert r.id { r.recovery with data := ⟨.empty, missing⟩, index := ⟨.empty, missing⟩ }) .empty

theorem fixed_answers (offered missing : Coverage) : (fixed offered missing).Answers :=
  ⟨fun _ _ _ _ => ⟨_, rfl⟩, fun _ _ _ _ => ⟨_, rfl⟩, fun _ => ⟨_, rfl⟩⟩

/-- Two sources that offer more than is asked for and report more missing than they were asked
for. -/
theorem run_conserves_overlapping :
    let policy : Policy := ⟨{ indexed := true }, by decide, by decide⟩
    let options : RunOptions := ⟨{}, .ofOrigin [] 0⟩
    let asked : Ask := ⟨.ofShards [0, 1] ⟨0, 12⟩, options⟩
    let request : Request := ⟨[1], policy, [0, 1], none, asked, asked⟩
    let first := fixed (.ofShards [0] ⟨-5, 10⟩) (.ofShards [0, 7] ⟨4, 6⟩)
    let second := fixed (.ofShards [0] ⟨5, 20⟩) (.ofShards [0] ⟨11, 30⟩)
    Conserves [first, second] [request] (run [first, second] [request]) ∧
      ((run [first, second] [request]).outcome.toOption.bind (·.get? [1])).map (·.data.missing) =
        some (((Coverage.empty.add 0 ⟨4, 5⟩).add 0 ⟨11, 12⟩).add 1 ⟨0, 12⟩) := by
  refine ⟨run_conserves _ _ ?_ (by decide), by decide⟩
  intro s hs
  rcases List.mem_cons.mp hs with rfl | hs
  · exact fixed_answers _ _
  · cases List.mem_singleton.mp hs
    exact fixed_answers _ _

end Chain

end Backfill
