import Mathlib.Data.Rat.Init
import ConvexContact.Proofs.Coupling.Renumbering

/-!
# Clusters by unordered pair

A graph groups constraints by unordered pair when no two of its clusters couple the same cliques
(`ClusterGraph.Unordered`). Cliques that are listed are put in order before their cluster is looked
up, but a pair is looked up as it is: a pair whose cliques stand the other way round than in the
cluster that they have opens a second one (`ClusterGraph.Duplicates`). Nothing else does. An
addition that does not open a second cluster keeps the grouping (`ClusterGraph.unordered_join_iff`),
a reduction neither breaks nor mends it (`ClusterGraph.unordered_canonical_iff`), and in a graph
whose pairs are in order no listed cliques, and no pair in order, ever open a second cluster
(`ClusterGraph.Ordered.not_duplicates`).

`Ledger` keeps for each constraint the cliques that the call named, on the numbers that they have by
now. It is needed because a graph does not remember the calls: after a reduction the cliques of a
constraint have other names than its caller gave them. A ledger can be kept of whatever a graph goes
through (`ClusterGraph.Ledger.Kept.exists_records`), and in an unordered graph two constraints that
couple the same cliques are in one cluster.

Proof shape: additions and reductions are one type of changes, with one step lemma about three
properties (`ClusterGraph.InRange.change`). The run that says when the grouping is lost is an `iff`,
so its induction goes over the changes from the front, and a place where a second cluster is opened
is either the first change or one of the others. Main statement:
`ClusterGraph.groupsCliques_of_changes`.
-/

namespace ConvexContact

namespace CliquePair

/-- The cliques of a pair, the smaller one first. -/
def unordered (p : CliquePair) : CliquePair := normalized p.first (some p.second)

/-- Two pairs are the same unordered one when they have the same cliques. -/
theorem unordered_eq_iff {p q : CliquePair} :
    p.unordered = q.unordered ↔ ∀ x, x ∈ p.cliques ↔ x ∈ q.cliques := by
  have hcliques : ∀ r : CliquePair, ∀ x, x ∈ r.cliques ↔ x ∈ r.unordered.cliques := fun r x => by
    rw [mem_cliques, unordered, mem_cliques_normalized]
  constructor
  · intro h x
    rw [hcliques p, h, hcliques q]
  · intro h
    simp only [mem_cliques] at h
    have hfirst := h p.first
    have hsecond := h p.second
    have hfirst' := h q.first
    have hsecond' := h q.second
    simp only [unordered, normalized, Option.getD_some, CliquePair.mk.injEq]
    omega

/-- A pair in order is its own unordered pair. -/
theorem unordered_of_le {p : CliquePair} (h : p.first ≤ p.second) : p.unordered = p :=
  normalized_of_le h

/-- Two cliques that have been put in order are in order. -/
theorem first_le_second_normalized (a : Int) (b : Option Int) :
    (normalized a b).first ≤ (normalized a b).second := by
  simp only [normalized]
  omega

/-- A pair whose cliques are replaced by their places in a list. -/
def renumberIn (L : List Int) (p : CliquePair) : CliquePair :=
  normalized (L.idxOf p.first) (some (L.idxOf p.second : Int))

/-- Pairs of listed cliques get the same places just when they are the same unordered pair. -/
theorem renumberIn_eq_iff {L : List Int} {p q : CliquePair} (hp : ∀ x ∈ p.cliques, x ∈ L)
    (hq : ∀ x ∈ q.cliques, x ∈ L) :
    p.renumberIn L = q.renumberIn L ↔ p.unordered = q.unordered := by
  have hplaces : ∀ (r : CliquePair) (y : Int),
      y ∈ (r.renumberIn L).cliques ↔ ∃ x ∈ r.cliques, y = L.idxOf x := fun r y =>
    ClusterGraph.mem_cliques_renumberIn (c := .empty r)
  -- the clique at a place is the only one there
  have hback : ∀ r s : CliquePair, (∀ x ∈ r.cliques, x ∈ L) → r.renumberIn L = s.renumberIn L →
      ∀ x ∈ r.cliques, x ∈ s.cliques := by
    intro r s hr hrs x hx
    have hplace : (L.idxOf x : Int) ∈ (s.renumberIn L).cliques :=
      hrs ▸ (hplaces r _).mpr ⟨x, hx, rfl⟩
    obtain ⟨z, hz, heq⟩ := (hplaces s _).mp hplace
    rwa [(List.idxOf_inj (hr x hx)).mp (Int.ofNat.inj heq)]
  have hordered : ∀ r : CliquePair, (r.renumberIn L).unordered = r.renumberIn L := fun r =>
    unordered_of_le (first_le_second_normalized _ _)
  constructor
  · exact fun h => unordered_eq_iff.mpr fun x => ⟨hback p q hp h x, hback q p hq h.symm x⟩
  · intro h
    rw [← hordered p, ← hordered q, unordered_eq_iff]
    intro y
    simp only [hplaces, unordered_eq_iff.mp h]

end CliquePair

namespace CliqueArgument

/-- The cliques that a caller names. -/
def named : CliqueArgument → List Int
  | .list cliques => cliques
  | .pair p => [p.first, p.second]
  | .unpaired first => [first]

/-- Cliques that are listed, or a pair with the smaller clique first. -/
def IsOrdered (a : CliqueArgument) : Prop := ∀ p, a = .pair p → p.first ≤ p.second

variable {a : CliqueArgument} {p : CliquePair}

/-- The pair that is read off has the cliques that are named. -/
theorem mem_named (h : a.pair? = some p) (x : Int) : x ∈ a.named ↔ x ∈ p.cliques := by
  rw [CliquePair.mem_cliques]
  unfold pair? at h
  split at h
  · obtain rfl := Option.some.inj h
    simp [named]
  · obtain rfl := Option.some.inj h
    simp [named, CliquePair.normalized_self]
  · obtain rfl := Option.some.inj h
    simp only [named, CliquePair.normalized, Option.getD_some, List.mem_cons, List.not_mem_nil,
      or_false]
    omega
  · cases h
  · cases h

/-- Cliques that are listed are put in order, and a pair in order is. -/
theorem IsOrdered.first_le_second (ha : a.IsOrdered) (h : a.pair? = some p) :
    p.first ≤ p.second := by
  unfold pair? at h
  split at h
  · obtain rfl := Option.some.inj h
    exact ha _ rfl
  · obtain rfl := Option.some.inj h
    exact CliquePair.first_le_second_normalized _ _
  · obtain rfl := Option.some.inj h
    exact CliquePair.first_le_second_normalized _ _
  · cases h
  · cases h

end CliqueArgument

namespace ClusterGraph

variable {K : Type} {g g' : ClusterGraph} {p : CliquePair}

/-! ## Groupings

`Duplicates` is the one way in which a graph stops being unordered: a pair that has no cluster,
while its cliques have one. -/

/-- No two clusters couple the same cliques. -/
def Unordered (g : ClusterGraph) : Prop := (g.clusters.map (·.cliques.unordered)).Nodup

instance (g : ClusterGraph) : Decidable g.Unordered := inferInstanceAs (Decidable (List.Nodup _))

/-- The pairs of all clusters are in order. -/
def Ordered (g : ClusterGraph) : Prop := ∀ c ∈ g.clusters, c.cliques.first ≤ c.cliques.second

/-- There is no cluster of the pair, but there is one of its cliques. -/
structure Duplicates (g : ClusterGraph) (p : CliquePair) : Prop where
  new : p ∉ g.clusters.map (·.cliques)
  taken : p.unordered ∈ g.clusters.map (·.cliques.unordered)

/-- Without clusters there are no two of the same cliques. -/
theorem unordered_blank (n : Nat) : (blank n).Unordered := List.nodup_nil

theorem ordered_blank (n : Nat) : (blank n).Ordered := fun _ hc => absurd hc List.not_mem_nil

/-- Clusters of the same cliques are one cluster. -/
theorem Unordered.eq_of_cliques (h : g.Unordered) {c d : Cluster} (hc : c ∈ g.clusters)
    (hd : d ∈ g.clusters) (hcd : ∀ x, x ∈ c.cliques.cliques ↔ x ∈ d.cliques.cliques) : c = d :=
  List.inj_on_of_nodup_map h hc hd (CliquePair.unordered_eq_iff.mpr hcd)

/-- Where all pairs are in order, no pair in order opens a second cluster. -/
theorem Ordered.not_duplicates (h : g.Ordered) (hp : p.first ≤ p.second) : ¬ g.Duplicates p := by
  rintro ⟨hnew, htaken⟩
  obtain ⟨c, hc, hcp⟩ := List.mem_map.mp htaken
  rw [CliquePair.unordered_of_le (h c hc), CliquePair.unordered_of_le hp] at hcp
  exact hnew (List.mem_map.mpr ⟨c, hc, hcp⟩)

/-! ## Additions -/

/-- The pairs after a constraint has joined its pair. -/
theorem map_cliques_join (g : ClusterGraph) (p : CliquePair) (n : Int) :
    (g.join p n).clusters.map (·.cliques) =
      if p ∈ g.clusters.map (·.cliques) then g.clusters.map (·.cliques)
      else g.clusters.map (·.cliques) ++ [p] := by
  cases hk : g.clusterOf? p with
  | none =>
    rw [if_neg (clusterOf?_eq_none_iff.mp hk)]
    simp [join, hk, Cluster.add, Cluster.empty]
  | some k =>
    obtain ⟨c, hc, hcp⟩ := clusterOf?_eq_some hk
    rw [if_pos (List.mem_map.mpr ⟨c, List.mem_of_getElem? hc, hcp⟩)]
    simp only [join, hk]
    exact map_cliques_modify _ _ _ _

/-- A pair after a constraint has joined its pair is an old one or the one that is joined. -/
theorem mem_map_cliques_join {q : CliquePair} {n : Int} :
    q ∈ (g.join p n).clusters.map (·.cliques) ↔ q ∈ g.clusters.map (·.cliques) ∨ q = p := by
  rw [map_cliques_join]
  split
  · rename_i hp
    exact ⟨Or.inl, fun h => h.elim id fun h => h ▸ hp⟩
  · rw [List.mem_append, List.mem_singleton]

/-- The scan meets the cliques of every cluster. -/
theorem mem_scan {c : Cluster} (hc : c ∈ g.clusters) {x : Int} (hx : x ∈ c.cliques.cliques) :
    x ∈ g.scan :=
  List.mem_flatMap.mpr ⟨c, hc, hx⟩

/-- The scan meets the cliques of the pair that is joined after the others. -/
theorem eraseDups_scan_join (g : ClusterGraph) (p : CliquePair) (n : Int) :
    (g.join p n).scan.eraseDups = (g.scan ++ p.cliques).eraseDups := by
  have hscan : ∀ h : ClusterGraph,
      h.scan = (h.clusters.map (·.cliques)).flatMap CliquePair.cliques := fun h => by
    rw [scan, List.flatMap_map]
  rw [hscan, map_cliques_join]
  split
  · -- the cliques of a pair that has a cluster are met already
    rename_i hp
    obtain ⟨c, hc, rfl⟩ := List.mem_map.mp hp
    rw [← hscan, eraseDups_append_of_mem fun x hx => mem_scan hc hx]
  · rw [List.flatMap_append, List.flatMap_singleton, ← hscan]

/-- **Step.** A constraint that joins its pair keeps the grouping, unless it opens a second cluster
for its cliques. -/
theorem unordered_join_iff {n : Int} :
    (g.join p n).Unordered ↔ g.Unordered ∧ ¬ g.Duplicates p := by
  have hpairs : ∀ h : ClusterGraph, h.Unordered ↔
      ((h.clusters.map (·.cliques)).map CliquePair.unordered).Nodup := fun h => by
    rw [List.map_map]
    exact Iff.rfl
  rw [hpairs, hpairs g, map_cliques_join]
  split
  · rename_i hp
    exact (and_iff_left fun h => h.new hp).symm
  · rename_i hp
    have hdup : g.Duplicates p ↔
        p.unordered ∈ (g.clusters.map (·.cliques)).map CliquePair.unordered := by
      rw [List.map_map]
      exact ⟨fun h => h.taken, fun h => ⟨hp, h⟩⟩
    rw [List.map_append, List.map_singleton, List.nodup_append, hdup]
    simp only [List.nodup_singleton, List.mem_singleton, forall_eq, true_and]
    exact and_congr_right fun _ => ⟨fun h hmem => h _ hmem rfl, fun h q hq hqp => h (hqp ▸ hq)⟩

/-- A pair in order leaves all pairs in order. -/
theorem Ordered.join (h : g.Ordered) (hp : p.first ≤ p.second) (n : Int) :
    (g.join p n).Ordered := by
  intro c hc
  rcases mem_map_cliques_join.mp (List.mem_map_of_mem hc) with hold | hnew
  · obtain ⟨d, hd, hdc⟩ := List.mem_map.mp hold
    rw [← hdc]
    exact h d hd
  · rw [hnew]
    exact hp

/-- Clusters keep their places, their cliques and their members when a constraint joins its pair. -/
theorem exists_cluster_join {j : Nat} {c : Cluster} (hj : g.clusters[j]? = some c) (p : CliquePair)
    (n : Int) : ∃ d, (g.join p n).clusters[j]? = some d ∧ d.cliques = c.cliques ∧
      c.members <+: d.members := by
  simp only [ClusterGraph.join]
  cases hk : g.clusterOf? p with
  | none =>
    refine ⟨c, ?_, rfl, List.prefix_refl _⟩
    rw [List.getElem?_append_left (List.getElem?_eq_some_iff.mp hj).1, hj]
  | some k =>
    by_cases hjk : k = j
    · refine ⟨c.add g.constraintCount n, ?_, rfl, List.prefix_append _ _⟩
      simp [hj, hjk]
    · refine ⟨c, ?_, rfl, List.prefix_refl _⟩
      simp [hj, hjk]

/-- A constraint that joins its pair is a member of the cluster of the pair. -/
theorem exists_cluster_of_join (g : ClusterGraph) (p : CliquePair) (n : Int) :
    ∃ d ∈ (g.join p n).clusters, d.cliques = p ∧ (g.constraintCount : Int) ∈ d.members := by
  simp only [ClusterGraph.join]
  cases hk : g.clusterOf? p with
  | none =>
    exact ⟨_, List.mem_append_right _ (List.mem_singleton_self _), rfl, by simp [Cluster.add]⟩
  | some k =>
    obtain ⟨c, hc, rfl⟩ := clusterOf?_eq_some hk
    refine ⟨c.add g.constraintCount n, List.mem_of_getElem? (i := k) ?_, rfl, by simp [Cluster.add]⟩
    simp [hc]

/-- An addition that is accepted joins the pair that is read off. -/
theorem exists_of_add {a : CliqueArgument} {n : Int} {i : Nat}
    (h : g.add (K := K) a n = .ok (g', i)) :
    ∃ p, a.pair? = some p ∧ (∀ x ∈ p.cliques, 0 ≤ x ∧ x < g.cliqueCount) ∧ g' = g.join p n := by
  obtain ⟨p, hp, h⟩ := Outcome.bind_eq_ok.mp h
  obtain ⟨hpair, hfirst, hsecond⟩ := readPair_eq_ok.mp hp
  split at h
  · cases h
  · refine ⟨p, hpair, fun x hx => ?_, (Prod.mk.inj (Outcome.pure_eq_ok.mp h)).1.symm⟩
    rcases CliquePair.mem_cliques.mp hx with rfl | rfl
    · exact hfirst
    · exact hsecond

/-! ## Reductions -/

/-- A reduction puts the numbers of every pair in order. -/
theorem ordered_canonical (g : ClusterGraph) : g.canonical.Ordered := by
  intro c' hc'
  obtain ⟨c, -, rfl⟩ := List.mem_map.mp hc'
  exact first_le_second_renumberIn _ c

/-- **Step.** A reduction keeps clusters of different cliques apart, and does not join those of the
same cliques. -/
theorem unordered_canonical_iff : g.canonical.Unordered ↔ g.Unordered := by
  have hlisted : ∀ c ∈ g.clusters, ∀ x ∈ c.cliques.cliques, x ∈ g.scan.eraseDups :=
    fun c hc x hx => List.mem_eraseDups.mpr (mem_scan hc hx)
  have hpairs : g.canonical.clusters.map (·.cliques.unordered) =
      g.clusters.map fun c => c.cliques.renumberIn g.scan.eraseDups := by
    rw [canonical, List.map_map]
    exact List.map_congr_left fun c _ =>
      CliquePair.unordered_of_le (first_le_second_renumberIn _ c)
  rw [Unordered, Unordered, hpairs]
  unfold List.Nodup
  rw [List.pairwise_map, List.pairwise_map]
  refine List.Pairwise.iff_of_mem fun {c d} hc hd => not_congr ?_
  exact CliquePair.renumberIn_eq_iff (hlisted c hc) (hlisted d hd)

/-! ## Changes

Additions and reductions in one type, so a graph with a past is a list of changes. The step says
three things at once, because the induction needs the cliques of the clusters to stay on the graph
before it can speak of their numbers. -/

/-- What is done to a graph. -/
inductive Change where
  | add (call : Call)
  | reduce

/-- The graph that a change leads to, if it is accepted. -/
def change (g : ClusterGraph) : Change → Except (Error K) ClusterGraph
  | .add c => (·.1) <$> g.add c.cliques c.equations
  | .reduce => g.reduce

/-- The graph that changes lead to that are accepted one after the other. -/
def changes (g : ClusterGraph) (cs : List Change) : Except (Error K) ClusterGraph :=
  cs.foldlM change g

/-- A change opens a second cluster for cliques that have one. -/
def Change.Duplicates (c : Change) (g : ClusterGraph) : Prop :=
  match c with
  | .add c => ∃ p, c.cliques.pair? = some p ∧ g.Duplicates p
  | .reduce => False

/-- **Step.** A change keeps the cliques of the clusters on the graph. It keeps the grouping just
when it opens no second cluster, and it keeps pairs in order unless it names one that is not. -/
theorem InRange.change (h : g.InRange) {c : Change} (hc : g.change (K := K) c = .ok g') :
    g'.InRange ∧ (g'.Unordered ↔ g.Unordered ∧ ¬ c.Duplicates g) ∧
      (g.Ordered → (∀ d, c = .add d → d.cliques.IsOrdered) → g'.Ordered) := by
  cases c with
  | add c =>
    obtain ⟨⟨g₁, i⟩, hadd, rfl⟩ := Outcome.map_eq_ok.mp hc
    obtain ⟨p, hp, hrange, rfl⟩ := exists_of_add hadd
    have hduplicates : Change.Duplicates (.add c) g ↔ g.Duplicates p := by
      simp [Change.Duplicates, hp]
    refine ⟨h.join _ hrange, ?_, fun hordered hc => ?_⟩
    · rw [unordered_join_iff, hduplicates]
    · exact hordered.join ((hc c rfl).first_le_second hp) _
  | reduce =>
    change g.reduce = .ok g' at hc
    rw [h.reduce_eq] at hc
    obtain ⟨-, -, rfl⟩ := Outcome.map_eq_ok.mp hc
    refine ⟨g.inRange_canonical, ?_, fun _ _ => g.ordered_canonical⟩
    rw [unordered_canonical_iff]
    exact (and_iff_left id).symm

/-- **Run.** Changes keep the grouping just when none of them opens a second cluster. -/
theorem InRange.unordered_changes_iff (h : g.InRange) {cs : List Change}
    (hcs : g.changes (K := K) cs = .ok g') :
    g'.Unordered ↔ g.Unordered ∧ ∀ before c after g₁, cs = before ++ c :: after →
      g.changes (K := K) before = .ok g₁ → ¬ c.Duplicates g₁ := by
  induction cs generalizing g with
  | nil =>
    obtain rfl := Outcome.pure_eq_ok.mp hcs
    refine (and_iff_left ?_).symm
    rintro before c after g₁ hsplit
    cases before <;> cases hsplit
  | cons c cs ih =>
    obtain ⟨g₁, hc, hcs⟩ := Outcome.foldlM_cons_eq_ok.mp hcs
    obtain ⟨hrange, hunordered, -⟩ := h.change hc
    rw [ih hrange hcs, hunordered, and_assoc]
    refine and_congr_right fun _ => ⟨?_, fun hall => ⟨?_, ?_⟩⟩
    -- the change in question is the first one, or one of the others
    · rintro ⟨hfirst, hrest⟩ before d after g₂ hsplit hbefore
      cases before with
      | nil =>
        obtain ⟨rfl, rfl⟩ := List.cons.inj hsplit
        obtain rfl := Outcome.pure_eq_ok.mp hbefore
        exact hfirst
      | cons e before =>
        obtain ⟨rfl, rfl⟩ := List.cons.inj hsplit
        obtain ⟨g₃, hg₃, hbefore⟩ := Outcome.foldlM_cons_eq_ok.mp hbefore
        obtain rfl := Except.ok.inj (hc.symm.trans hg₃)
        exact hrest before d after g₂ rfl hbefore
    · exact hall [] c cs g rfl rfl
    · intro before d after g₂ hsplit hbefore
      exact hall (c :: before) d after g₂ (by rw [hsplit]; rfl)
        (Outcome.foldlM_cons_eq_ok.mpr ⟨g₁, hc, hbefore⟩)

/-- Where all pairs are in order, a change that names no other pair opens no second cluster. -/
theorem Ordered.not_duplicates_change (h : g.Ordered) {c : Change}
    (hc : ∀ d, c = .add d → d.cliques.IsOrdered) : ¬ c.Duplicates g := by
  cases c with
  | add c =>
    rintro ⟨p, hp, hduplicates⟩
    exact h.not_duplicates ((hc c rfl).first_le_second hp) hduplicates
  | reduce => exact id

/-- **Run.** Changes that name only pairs in order keep pairs in order, and the grouping with
them. -/
theorem InRange.ordered_changes (h : g.InRange) (hordered : g.Ordered) (hunordered : g.Unordered)
    {cs : List Change} (hcs : g.changes (K := K) cs = .ok g')
    (hall : ∀ c, .add c ∈ cs → c.cliques.IsOrdered) : g'.Ordered ∧ g'.Unordered := by
  have hrun := Outcome.foldlM_induction
    (fun _ g => g.InRange ∧ g.Ordered ∧ g.Unordered) ⟨h, hordered, hunordered⟩
    (fun done c g₁ g₂ hsplit hg₁ hc => by
      obtain ⟨rest, rfl⟩ := hsplit
      obtain ⟨hrange, hordered, hunordered⟩ := hg₁
      have hnames : ∀ d, c = .add d → d.cliques.IsOrdered := fun d hd => hall d (by simp [← hd])
      obtain ⟨hrange', hiff, hkeeps⟩ := hrange.change hc
      exact ⟨hrange', hkeeps hordered hnames,
        hiff.mpr ⟨hunordered, hordered.not_duplicates_change hnames⟩⟩) hcs
  exact hrun.2

/-! ## What constraints couple

A ledger renumbers what it holds whenever the graph is reduced. Its invariant ties each constraint
to a cluster of the same cliques, whatever names these have by now. -/

/-- A graph with the cliques that each of its constraints couples: those that the call has named, on
the numbers that they have by now. -/
structure Ledger where
  graph : ClusterGraph
  coupled : List (List Int)

/-- Makes a change, and keeps up with what the constraints couple. -/
def Ledger.record (l : Ledger) : Change → Except (Error K) Ledger
  | .add c => do
    let (g, _) ← l.graph.add c.cliques c.equations
    return ⟨g, l.coupled ++ [c.cliques.named]⟩
  | .reduce => do
    let q ← l.graph.participating
    let g ← l.graph.reduce
    let coupled ← l.coupled.mapM fun xs => xs.mapM fun x => Int.ofNat <$> q.permutedIndex x
    return ⟨g, coupled⟩

/-- Every constraint is a member of a cluster of the cliques that it couples. -/
structure Ledger.Kept (l : Ledger) : Prop where
  inRange : l.graph.InRange
  length : l.coupled.length = l.graph.constraintCount
  listed : ∀ (i : Nat) xs, l.coupled[i]? = some xs → ∃ c ∈ l.graph.clusters,
    (i : Int) ∈ c.members ∧ ∀ x, x ∈ xs ↔ x ∈ c.cliques.cliques

namespace Ledger

variable {l : Ledger}

/-- A graph without constraints, and nothing to keep of them. -/
theorem kept_blank (n : Nat) : Kept ⟨blank n, []⟩ where
  inRange := fun _ hc => absurd hc List.not_mem_nil
  length := rfl
  listed := fun _ _ h => by simp at h

/-- **Step.** What is added is listed with the cliques that have been named. -/
theorem Kept.add (h : l.Kept) {a : CliqueArgument} (hp : a.pair? = some p)
    (hrange : ∀ x ∈ p.cliques, 0 ≤ x ∧ x < l.graph.cliqueCount) (n : Int) :
    Kept ⟨l.graph.join p n, l.coupled ++ [a.named]⟩ where
  inRange := h.inRange.join n hrange
  length := by
    rw [List.length_append, List.length_singleton, h.length, constraintCount_join]
  listed i xs hi := by
    -- an earlier constraint stays a member of its cluster; the last one is a member of that of its
    -- pair
    rcases Nat.lt_or_ge i l.coupled.length with hlt | hge
    · rw [List.getElem?_append_left hlt] at hi
      obtain ⟨c, hc, hmem, hxs⟩ := h.listed i xs hi
      obtain ⟨j, hj⟩ := List.mem_iff_getElem?.mp hc
      obtain ⟨d, hd, hcliques, hmembers⟩ := exists_cluster_join hj p n
      exact ⟨d, List.mem_of_getElem? hd, hmembers.subset hmem, by rwa [hcliques]⟩
    · obtain ⟨hlast, rfl⟩ : i = l.coupled.length ∧ a.named = xs := by
        rw [List.getElem?_append_right hge, List.getElem?_singleton] at hi
        split at hi
        · exact ⟨by omega, Option.some.inj hi⟩
        · cases hi
      obtain rfl : i = l.graph.constraintCount := by
        rw [← h.length, hlast]
      obtain ⟨d, hd, hcliques, hmem⟩ := exists_cluster_of_join l.graph p n
      exact ⟨d, hd, hmem, fun x => by rw [hcliques, CliqueArgument.mem_named hp]⟩

/-- **Step.** A reduction replaces the cliques of constraints and of clusters alike. -/
theorem Kept.canonical (h : l.Kept) : Kept ⟨l.graph.canonical,
    l.coupled.map fun xs => xs.map fun x => (l.graph.scan.eraseDups.idxOf x : Int)⟩ where
  inRange := inRange_canonical _
  length := (List.length_map _).trans h.length
  listed i ys hi := by
    rw [List.getElem?_map] at hi
    obtain ⟨xs, hxs, rfl⟩ := Option.map_eq_some_iff.mp hi
    obtain ⟨c, hc, hmem, hcliques⟩ := h.listed i xs hxs
    refine ⟨_, List.mem_map_of_mem hc, hmem, fun y => ?_⟩
    rw [mem_cliques_renumberIn, List.mem_map]
    simp only [hcliques, eq_comm]

/-- Whatever the graph takes, the ledger takes as well. -/
theorem Kept.exists_record (h : l.Kept) {c : Change} (hc : l.graph.change (K := K) c = .ok g) :
    ∃ l', l.record (K := K) c = .ok l' ∧ l'.graph = g ∧ l'.Kept := by
  cases c with
  | add c =>
    obtain ⟨⟨g₁, i⟩, hadd, rfl⟩ := Outcome.map_eq_ok.mp hc
    obtain ⟨p, hp, hrange, rfl⟩ := exists_of_add hadd
    refine ⟨_, ?_, rfl, h.add hp hrange c.equations⟩
    rw [record, Outcome.bind_of_ok _ hadd]
    rfl
  | reduce =>
    change l.graph.reduce = .ok g at hc
    obtain ⟨q, hq, hvalid, -, hinverse⟩ := h.inRange.exists_numbering (K := K)
    have hreduce := hc
    rw [h.inRange.reduce_eq] at hreduce
    obtain ⟨p, hp, rfl⟩ := Outcome.map_eq_ok.mp hreduce
    have hparticipating : l.graph.participating (K := K) = .ok q := by
      rw [participating_of_numbering hq, hp]
      rfl
    -- every clique in the ledger takes part, so all of them have numbers
    have hscan : ∀ xs ∈ l.coupled, ∀ x ∈ xs, x ∈ l.graph.scan := by
      intro xs hxs x hx
      obtain ⟨i, hi⟩ := List.mem_iff_getElem?.mp hxs
      obtain ⟨c, hc, -, hcliques⟩ := h.listed i xs hi
      exact mem_scan hc ((hcliques x).mp hx)
    have hcoupled : l.coupled.mapM (fun xs => xs.mapM fun x =>
        Int.ofNat <$> q.permutedIndex (K := K) x) =
        .ok (l.coupled.map fun xs => xs.map fun x => (l.graph.scan.eraseDups.idxOf x : Int)) :=
      Outcome.mapM_of_forall fun xs hxs => Outcome.mapM_of_forall fun x hx => by
        rw [permutedIndex_of_mem_scan hvalid hinverse (hscan xs hxs x hx)]
        rfl
    refine ⟨_, ?_, rfl, h.canonical⟩
    rw [record, Outcome.bind_of_ok _ hparticipating, Outcome.bind_of_ok _ hc,
      Outcome.bind_of_ok _ hcoupled]
    rfl

/-- **Run.** Whatever a graph goes through, a ledger can be kept of it. -/
theorem Kept.exists_records (h : l.Kept) {cs : List Change}
    (hcs : l.graph.changes (K := K) cs = .ok g) :
    ∃ l', cs.foldlM (record (K := K)) l = .ok l' ∧ l'.graph = g ∧ l'.Kept := by
  induction cs generalizing l with
  | nil =>
    obtain rfl := Outcome.pure_eq_ok.mp hcs
    exact ⟨l, rfl, rfl, h⟩
  | cons c cs ih =>
    obtain ⟨g₁, hc, hcs⟩ := Outcome.foldlM_cons_eq_ok.mp hcs
    obtain ⟨l₁, hl₁, rfl, hkept⟩ := h.exists_record hc
    obtain ⟨l', hl', hgraph, hkept'⟩ := ih hkept hcs
    exact ⟨l', Outcome.foldlM_cons_eq_ok.mpr ⟨l₁, hl₁, hl'⟩, hgraph, hkept'⟩

/-- Where clusters are grouped by unordered pair, constraints that couple the same cliques are
members of one cluster. -/
theorem Kept.exists_common_cluster (h : l.Kept) (hl : l.graph.Unordered) {i j : Nat}
    {xs ys : List Int} (hi : l.coupled[i]? = some xs) (hj : l.coupled[j]? = some ys)
    (hxy : ∀ x, x ∈ xs ↔ x ∈ ys) :
    ∃ c ∈ l.graph.clusters, (i : Int) ∈ c.members ∧ (j : Int) ∈ c.members := by
  obtain ⟨c, hc, hci, hcx⟩ := h.listed i xs hi
  obtain ⟨d, hd, hdj, hdy⟩ := h.listed j ys hj
  obtain rfl : c = d := hl.eq_of_cliques hc hd fun x => by rw [← hcx, hxy, hdy]
  exact ⟨c, hc, hci, hdj⟩

end Ledger

/-- How a graph that changes have led to groups its constraints. -/
structure GroupsCliques (K : Type) (n : Nat) (cs : List Change) (g : ClusterGraph) : Prop where
  /-- no two clusters have the same cliques just when no change has opened a second one -/
  unordered_iff : g.Unordered ↔ ∀ before c after g₁, cs = before ++ c :: after →
    (blank n).changes (K := K) before = .ok g₁ → ¬ c.Duplicates g₁
  unordered_of_ordered : (∀ c, .add c ∈ cs → c.cliques.IsOrdered) → g.Unordered
  /-- then constraints that couple the same cliques are members of one cluster -/
  exists_ledger : ∃ l, cs.foldlM (Ledger.record (K := K)) ⟨blank n, []⟩ = .ok l ∧ l.graph = g ∧
    l.coupled.length = g.constraintCount ∧
    (g.Unordered → ∀ (i j : Nat) xs ys, l.coupled[i]? = some xs → l.coupled[j]? = some ys →
      (∀ x, x ∈ xs ↔ x ∈ ys) →
        ∃ c ∈ g.clusters, (i : Int) ∈ c.members ∧ (j : Int) ∈ c.members)

/-- **Grouping by unordered pair.** Let additions and reductions be accepted one after the other,
from the graph without constraints on. The graph they lead to has no two clusters of the same
cliques just when no addition has named a pair that has no cluster although its cliques have one.
That is so when every addition lists its cliques or names a pair in order. And then any two
constraints that couple the same cliques, as their calls have named them and with all renumberings
since, are members of one cluster. -/
theorem groupsCliques_of_changes {n : Nat} {cs : List Change}
    (hcs : (blank n).changes (K := K) cs = .ok g) : GroupsCliques K n cs g where
  unordered_iff :=
    ((Ledger.kept_blank n).inRange.unordered_changes_iff hcs).trans
      (and_iff_right (unordered_blank n))
  unordered_of_ordered hall :=
    ((Ledger.kept_blank n).inRange.ordered_changes (ordered_blank n) (unordered_blank n) hcs hall).2
  exists_ledger := by
    obtain ⟨l, hl, rfl, hkept⟩ := (Ledger.kept_blank n).exists_records hcs
    exact ⟨l, hl, rfl, hkept.length, fun hg i j xs ys hi hj hxy =>
      hkept.exists_common_cluster hg hi hj hxy⟩

/-- Cliques that are listed in one order, given as a pair in order, and listed in the other order
once their numbers have changed. -/
def changesSample : List Change :=
  [.add ⟨.list [7, 4], 2⟩, .add ⟨.pair ⟨4, 7⟩, 1⟩, .add ⟨.list [7], 3⟩, .reduce,
    .add ⟨.list [1, 0], 1⟩]

/-- Five changes, none of which opens a second cluster: all constraints of two cliques are in one.
-/
theorem groupsCliques_changesSample : ∃ g, (blank 9).changes (K := ℚ) changesSample = .ok g ∧
    g.clusters = [⟨⟨0, 1⟩, [0, 1, 3], [2, 1, 1]⟩, ⟨⟨1, 1⟩, [2], [3]⟩] ∧ g.Unordered ∧
    GroupsCliques ℚ 9 changesSample g := by
  obtain ⟨g, hg, hclusters⟩ : ∃ g, (blank 9).changes (K := ℚ) changesSample = .ok g ∧
      g.clusters = [⟨⟨0, 1⟩, [0, 1, 3], [2, 1, 1]⟩, ⟨⟨1, 1⟩, [2], [3]⟩] := ⟨_, rfl, rfl⟩
  have hgroups := groupsCliques_of_changes hg
  refine ⟨g, hg, hclusters, hgroups.unordered_of_ordered fun c hc p hp => ?_, hgroups⟩
  simp only [changesSample, List.mem_cons, Change.add.injEq, List.not_mem_nil, or_false,
    reduceCtorEq, false_or] at hc
  rcases hc with rfl | rfl | rfl | rfl <;> cases hp
  decide

/-- A pair whose cliques stand the other way round than in their cluster opens a second one, and a
reduction leaves both. -/
theorem exists_not_unordered : ∃ g g' : ClusterGraph,
    (blank 3).changes (K := ℚ) [.add ⟨.list [1, 2], 1⟩, .add ⟨.pair ⟨2, 1⟩, 1⟩] = .ok g ∧
    g.clusters = [⟨⟨1, 2⟩, [0], [1]⟩, ⟨⟨2, 1⟩, [1], [1]⟩] ∧ ¬ g.Unordered ∧
    g.change (K := ℚ) .reduce = .ok g' ∧
    g'.clusters = [⟨⟨0, 1⟩, [0], [1]⟩, ⟨⟨0, 1⟩, [1], [1]⟩] ∧ ¬ g'.Unordered :=
  ⟨_, _, rfl, rfl, by decide, rfl, rfl, by decide⟩

end ClusterGraph

end ConvexContact
