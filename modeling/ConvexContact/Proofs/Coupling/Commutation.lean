import ConvexContact.Proofs.Coupling.StoredGraph
import ConvexContact.Proofs.Coupling.Unordered

/-!
# Reducing and adding in either order

A graph is given further constraints of cliques that take part already. They can be added before the
graph is reduced, or afterwards on the numbers of their cliques. Where clusters are grouped by
unordered pair, this makes no difference: the cliques that take part and their numbers stay the same
(`ClusterGraph.eraseDups_scan_join_of_mem`), a pair finds the same place as its numbers do
(`ClusterGraph.Unordered.clusterOf?_canonical`), so joining the one is joining the other
(`ClusterGraph.Unordered.canonical_join`). One addition commutes with the reduction by
`ClusterGraph.Unordered.add_canonical`, and any number of them by
`ClusterGraph.Grouped.addEach_canonical`. Main statement:
`StoredGraph.reducing_commutes_with_adding`.

A pair out of order is left out of all this. It is looked up as it is given and opens a cluster of
its own, which the reduced graph has no call for (`StoredGraph.pair_out_of_order_does_not_commute`).

Proof shape: everything is shown on values, where a reduction is `ClusterGraph.canonical` and no
numbering appears. The invariant of the run is `ClusterGraph.Grouped`: without it a pair could have
one place and its numbers another. Storage comes in at the end, in `StoredGraph.Represents.meets`,
which runs both ways in place and only uses that they agree on values.
-/

namespace ConvexContact

namespace CliquePair

/-- The places of two cliques, put in order, are those of the cliques in order. -/
theorem renumberIn_normalized (L : List Int) (x y : Int) :
    (normalized x (some y)).renumberIn L = normalized (L.idxOf x) (some (L.idxOf y : Int)) := by
  rcases Int.le_total x y with hxy | hyx
  · rw [normalized_of_le hxy, renumberIn]
  · rw [normalized_comm, normalized_of_le hyx, renumberIn, normalized_comm]

/-- What holds of both cliques of a pair, whichever of them stands first. -/
theorem forall_mem_cliques_normalized {P : Int → Prop} {x y : Int} :
    (∀ z ∈ (normalized x (some y)).cliques, P z) ↔ P x ∧ P y := by
  simp only [mem_cliques_normalized, forall_eq_or_imp, forall_eq]

end CliquePair

namespace CliqueArgument

/-- The ways to name one or two cliques: they are listed in either order, or given as a pair in
order. -/
inductive Names (x y : Int) : CliqueArgument → Prop where
  | listed : Names x y (.list [x, y])
  | swapped : Names x y (.list [y, x])
  | single (h : x = y) : Names x y (.list [x])
  | paired : Names x y (.pair (.normalized x (some y)))

/-- However two cliques are named, the pair that is read off is the one in order. -/
theorem Names.pair? {a : CliqueArgument} {x y : Int} (h : a.Names x y) :
    a.pair? = some (.normalized x (some y)) := by
  cases h with
  | listed => rfl
  | swapped => exact congrArg some (CliquePair.normalized_comm y x)
  | single h =>
    subst h
    rfl
  | paired => rfl

theorem Names.isOrdered {a : CliqueArgument} {x y : Int} (h : a.Names x y) : a.IsOrdered := by
  rintro p rfl
  cases h
  exact CliquePair.first_le_second_normalized _ _

end CliqueArgument

namespace ClusterGraph

variable {K : Type} {g g' : ClusterGraph} {p : CliquePair}

/-! ## Places of pairs

The place of a pair is that of its last cluster. Without repetitions that is the only one, so the
answer can be compared with the place of the renumbered pair. -/

/-- Where no pair has two clusters, the place of a pair is where it stands. -/
theorem clusterOf?_eq_some_iff (h : (g.clusters.map (·.cliques)).Nodup) {k : Nat} :
    g.clusterOf? p = some k ↔ (g.clusters.map (·.cliques))[k]? = some p := by
  have hstands : ∀ {j : Nat}, g.clusterOf? p = some j →
      (g.clusters.map (·.cliques))[j]? = some p := by
    intro j hj
    obtain ⟨c, hc, rfl⟩ := clusterOf?_eq_some hj
    rw [List.getElem?_map, hc]
    rfl
  refine ⟨hstands, fun hk => ?_⟩
  cases hj : g.clusterOf? p with
  | none => exact absurd (List.mem_of_getElem? hk) (clusterOf?_eq_none_iff.mp hj)
  | some j =>
    have hlt := (List.getElem?_eq_some_iff.mp hk).1
    exact congrArg some ((List.getElem?_inj hlt h).mp (hk.trans (hstands hj).symm)).symm

/-- Clusters of different unordered pairs have different pairs. -/
theorem Unordered.nodup (h : g.Unordered) : (g.clusters.map (·.cliques)).Nodup := by
  refine List.Nodup.of_map CliquePair.unordered ?_
  rw [List.map_map]
  exact h

/-- The pairs of the reduced graph are the numbers of the pairs. -/
theorem map_cliques_canonical (g : ClusterGraph) : g.canonical.clusters.map (·.cliques) =
    (g.clusters.map (·.cliques)).map (CliquePair.renumberIn g.scan.eraseDups) := by
  rw [canonical, List.map_map, List.map_map]
  rfl

/-- **A pair of participating cliques stands where its numbers do.** -/
theorem Unordered.clusterOf?_canonical (h : g.Unordered) (hp : ¬ g.Duplicates p)
    (hscan : ∀ x ∈ p.cliques, x ∈ g.scan) :
    g.canonical.clusterOf? (p.renumberIn g.scan.eraseDups) = g.clusterOf? p := by
  -- a cluster has the numbers of the pair just when it has the pair itself
  have hsame : ∀ q ∈ g.clusters.map (·.cliques),
      q.renumberIn g.scan.eraseDups = p.renumberIn g.scan.eraseDups ↔ q = p := by
    intro q hq
    obtain ⟨c, hc, rfl⟩ := List.mem_map.mp hq
    rw [CliquePair.renumberIn_eq_iff (fun x hx => List.mem_eraseDups.mpr (mem_scan hc hx))
      fun x hx => List.mem_eraseDups.mpr (hscan x hx)]
    refine ⟨fun hcp => ?_, fun hcp => by rw [hcp]⟩
    have hold : p ∈ g.clusters.map (·.cliques) := by
      by_contra hnew
      exact hp ⟨hnew, hcp ▸ List.mem_map_of_mem hc⟩
    obtain ⟨d, hd, rfl⟩ := List.mem_map.mp hold
    rw [h.eq_of_cliques hc hd (CliquePair.unordered_eq_iff.mp hcp)]
  -- so the pairs of the reduced graph can be searched instead
  refine Option.ext fun k => ?_
  rw [clusterOf?_eq_some_iff (unordered_canonical_iff.mpr h).nodup,
    clusterOf?_eq_some_iff h.nodup, map_cliques_canonical, List.getElem?_map]
  cases hk : (g.clusters.map (·.cliques))[k]? with
  | none => simp
  | some q => simp [hsame q (List.mem_of_getElem? hk)]

/-! ## One addition

Joining a pair touches the scan, which meets no new clique here, and one cluster. With a lemma for
each of the two, joining commutes with the reduction by cases on whether the pair has a cluster
already. -/

/-- A constraint of participating cliques brings no clique into the scan. -/
theorem eraseDups_scan_join_of_mem (hscan : ∀ x ∈ p.cliques, x ∈ g.scan) (n : Int) :
    (g.join p n).scan.eraseDups = g.scan.eraseDups := by
  rw [eraseDups_scan_join, eraseDups_append_of_mem hscan]

/-- A cluster is given a constraint before or after its cliques are renumbered. -/
theorem map_renumberIn_modify (L : List Int) (cs : List Cluster) (k : Nat) (i n : Int) :
    (cs.modify k (·.add i n)).map (renumberIn L) =
      (cs.map (renumberIn L)).modify k (·.add i n) := by
  refine List.ext_getElem? fun j => ?_
  rw [List.getElem?_map, List.getElem?_modify, List.getElem?_modify, List.getElem?_map]
  cases cs[j]? with
  | none => rfl
  | some c =>
    simp only [Option.map_some, Option.map_eq_map]
    split <;> rfl

/-- **A constraint of participating cliques joins its pair before or after the reduction.** -/
theorem Unordered.canonical_join (h : g.Unordered) (hp : ¬ g.Duplicates p)
    (hscan : ∀ x ∈ p.cliques, x ∈ g.scan) (n : Int) :
    (g.join p n).canonical = g.canonical.join (p.renumberIn g.scan.eraseDups) n := by
  have hclusters : (g.join p n).clusters.map (renumberIn g.scan.eraseDups) =
      (g.canonical.join (p.renumberIn g.scan.eraseDups) n).clusters := by
    simp only [ClusterGraph.join, h.clusterOf?_canonical hp hscan]
    cases g.clusterOf? p with
    | none => rw [List.map_append]; rfl
    | some k => exact map_renumberIn_modify _ _ _ _ _
  rw [canonical, eraseDups_scan_join_of_mem hscan, hclusters]
  rfl

/-- The scan meets cliques of the graph only. -/
theorem InRange.of_mem_scan (h : g.InRange) {x : Int} (hx : x ∈ g.scan) :
    0 ≤ x ∧ x < g.cliqueCount := by
  obtain ⟨c, hc, hx⟩ := List.mem_flatMap.mp hx
  exact h c hc x hx

/-- Cliques of the graph are read off as the pair of them in order. -/
theorem readPair_of_names {a : CliqueArgument} {x y : Int} (ha : a.Names x y)
    (hx : 0 ≤ x ∧ x < g.cliqueCount) (hy : 0 ≤ y ∧ y < g.cliqueCount) :
    g.readPair (K := K) a = .ok (.normalized x (some y)) := by
  refine readPair_eq_ok.mpr ⟨ha.pair?, ?_⟩
  simp only [CliquePair.normalized, Option.getD_some]
  omega

/-- **Step.** Adding a constraint to the reduced graph, on the numbers of its cliques, is adding it
and reducing then. -/
theorem Unordered.add_canonical (h : g.Unordered) (hrange : g.InRange) {x y : Int}
    (hp : ¬ g.Duplicates (.normalized x (some y))) (hx : x ∈ g.scan) (hy : y ∈ g.scan)
    {a b : CliqueArgument} (ha : a.Names x y)
    (hb : b.Names (g.scan.eraseDups.idxOf x) (g.scan.eraseDups.idxOf y)) (n : Int) :
    g.canonical.add (K := K) b n = (fun r => (r.1.canonical, r.2)) <$> g.add a n := by
  have hplace : ∀ z ∈ g.scan, 0 ≤ (g.scan.eraseDups.idxOf z : Int) ∧
      (g.scan.eraseDups.idxOf z : Int) < g.canonical.cliqueCount := fun z hz =>
    ⟨Int.natCast_nonneg _,
      Int.ofNat_lt.mpr (List.idxOf_lt_length_of_mem (List.mem_eraseDups.mpr hz))⟩
  have hscan := CliquePair.forall_mem_cliques_normalized.mpr ⟨hx, hy⟩
  rw [add, add,
    Outcome.bind_of_ok _ (readPair_of_names ha (hrange.of_mem_scan hx) (hrange.of_mem_scan hy)),
    Outcome.bind_of_ok _ (readPair_of_names hb (hplace x hx) (hplace y hy))]
  split
  · rfl
  · rw [← CliquePair.renumberIn_normalized, ← h.canonical_join hp hscan]
    rfl

/-! ## Any number of additions

By induction on the calls. The reduced graph is renumbered by the scan of the graph it was made
from, and that scan stays the same throughout, so one list of numbers serves for all calls. -/

/-- The pairs of the clusters are in order, no two of them are the same, and all have their cliques
on the graph. -/
structure Grouped (g : ClusterGraph) : Prop where
  inRange : g.InRange
  ordered : g.Ordered
  unordered : g.Unordered

/-- A graph without constraints, in which there is nothing to group. -/
theorem grouped_blank (n : Nat) : (blank n).Grouped where
  inRange := (Ledger.kept_blank n).inRange
  ordered := ordered_blank n
  unordered := unordered_blank n

/-- **Run.** Calls keep the cliques of the clusters on the graph. -/
theorem InRange.addEach (h : g.InRange) (calls : List Call) :
    (g.addEach (K := K) calls).2.InRange := by
  induction calls generalizing g with
  | nil => exact h
  | cons c calls ih =>
    rw [ClusterGraph.addEach]
    rcases hadd : g.add (K := K) c.cliques c.equations with e | ⟨g', i⟩
    · exact ih h
    · obtain ⟨p, -, hrange, rfl⟩ := exists_of_add hadd
      exact ih (h.join _ hrange)

/-- **Step.** A constraint whose cliques are listed, or form a pair in order, is grouped. -/
theorem Grouped.add (h : g.Grouped) {c : Call} (hc : c.cliques.IsOrdered) {i : Nat}
    (hadd : g.add (K := K) c.cliques c.equations = .ok (g', i)) : g'.Grouped := by
  have hchange : g.change (K := K) (.add c) = .ok g' := Outcome.map_eq_ok.mpr ⟨_, hadd, rfl⟩
  obtain ⟨hrange, hiff, hordered⟩ := h.inRange.change hchange
  have hnames : ∀ d, Change.add c = .add d → d.cliques.IsOrdered := by
    rintro d ⟨⟩
    exact hc
  exact ⟨hrange, hordered h.ordered hnames,
    hiff.mpr ⟨h.unordered, h.ordered.not_duplicates_change hnames⟩⟩

/-- **Run.** Whatever is listed, or given as pairs in order, is grouped. -/
theorem Grouped.addEach (h : g.Grouped) {calls : List Call}
    (hcalls : ∀ c ∈ calls, c.cliques.IsOrdered) : (g.addEach (K := K) calls).2.Grouped := by
  induction calls generalizing g with
  | nil => exact h
  | cons c calls ih =>
    obtain ⟨hc, hcalls⟩ := List.forall_mem_cons.mp hcalls
    rw [ClusterGraph.addEach]
    rcases hadd : g.add (K := K) c.cliques c.equations with e | ⟨g', i⟩
    · exact ih h hcalls
    · exact ih (h.add hc hadd) hcalls

/-- Calls do not change how many cliques there are. -/
theorem cliqueCount_addEach (g : ClusterGraph) (calls : List Call) :
    (g.addEach (K := K) calls).2.cliqueCount = g.cliqueCount := by
  induction calls generalizing g with
  | nil => rfl
  | cons c calls ih =>
    rw [ClusterGraph.addEach]
    rcases hadd : g.add (K := K) c.cliques c.equations with e | ⟨g', i⟩
    · exact ih g
    · obtain ⟨p, -, -, rfl⟩ := exists_of_add hadd
      exact (ih _).trans (cliqueCount_join g p _)

/-- A call names the places in a list of the cliques that another one names, for a constraint with
as many equations. -/
def Relabels (L : List Int) (c c' : Call) : Prop :=
  c'.equations = c.equations ∧ ∃ x ∈ L, ∃ y ∈ L,
    c.cliques.Names x y ∧ c'.cliques.Names (L.idxOf x) (L.idxOf y)

/-- **Run.** Adding constraints to the reduced graph, on the numbers of their cliques, is adding
them and reducing then. -/
theorem Grouped.addEach_canonical (h : g.Grouped) {more more' : List Call}
    (hmore : List.Forall₂ (Relabels g.scan.eraseDups) more more') :
    g.canonical.addEach (K := K) more' =
      ((g.addEach more).1, (g.addEach (K := K) more).2.canonical) := by
  generalize hL : g.scan.eraseDups = L at hmore
  induction hmore generalizing g with
  | nil => rfl
  | @cons c c' more more' hc _ ih =>
    obtain ⟨hequations, x, hx, y, hy, hnames, hnames'⟩ := hc
    subst hL
    have hx := List.mem_eraseDups.mp hx
    have hy := List.mem_eraseDups.mp hy
    have hpair := CliquePair.first_le_second_normalized x (some y)
    have hstep := h.unordered.add_canonical (K := K) h.inRange (h.ordered.not_duplicates hpair)
      hx hy hnames hnames' c.equations
    rcases hadd : g.add (K := K) c.cliques c.equations with e | ⟨g', i⟩
    -- rejected in both ways, and both graphs stay
    · have hadd' : g.canonical.add (K := K) c'.cliques c.equations = .error e := by
        rw [hstep, hadd]
        rfl
      simp only [ClusterGraph.addEach, hequations, hadd, hadd', ih h rfl]
    -- accepted in both ways; the cliques that take part stay, so the other calls name the same
    -- numbers
    · have hadd' : g.canonical.add (K := K) c'.cliques c.equations = .ok (g'.canonical, i) := by
        rw [hstep, hadd]
        rfl
      obtain ⟨p, hp, -, rfl⟩ := exists_of_add hadd
      obtain rfl : CliquePair.normalized x (some y) = p :=
        Option.some.inj (hnames.pair?.symm.trans hp)
      have hscan := CliquePair.forall_mem_cliques_normalized.mpr ⟨hx, hy⟩
      simp only [ClusterGraph.addEach, hequations, hadd, hadd',
        ih (h.add hnames.isOrdered hadd) (eraseDups_scan_join_of_mem hscan _)]

/-- A call names the numbers of the cliques that another one names, which take part, for a
constraint with as many equations. -/
def Renumbers (K : Type) (q : PartialPermutation) (c c' : Call) : Prop :=
  c'.equations = c.equations ∧ ∃ (x y : Int) (m n : Nat), c.cliques.Names x y ∧
    q.permutedIndex (K := K) x = .ok m ∧ q.permutedIndex (K := K) y = .ok n ∧
    c'.cliques.Names m n

/-- Only what takes part has a number. -/
theorem mem_of_permutedIndex {q : PartialPermutation} (hq : q.Valid) {x : Int} {m : Nat}
    (h : q.permutedIndex (K := K) x = .ok m) : x ∈ q.inverse.map Int.ofNat := by
  obtain ⟨k, hk, -⟩ := Outcome.bind_eq_ok.mp h
  obtain ⟨rfl, -⟩ := PartialPermutation.check_eq_ok_iff.mp hk
  have hnumber := (hq.number?_eq_some_iff k m).mp (PartialPermutation.permutedIndex_eq_ok.mp h)
  exact List.mem_map_of_mem (List.mem_of_getElem? hnumber)

/-- Numbers are places among the cliques that take part. -/
theorem Renumbers.relabels {q : PartialPermutation} (hq : q.Valid) {L : List Int}
    (hL : q.inverse.map Int.ofNat = L) {c c' : Call} (h : Renumbers K q c c') :
    Relabels L c c' := by
  subst hL
  obtain ⟨hequations, x, y, m, n, hnames, hm, hn, hnames'⟩ := h
  have hx := mem_of_permutedIndex hq hm
  have hy := mem_of_permutedIndex hq hn
  obtain rfl := Except.ok.inj (hm.symm.trans (hq.permutedIndex_eq hx))
  obtain rfl := Except.ok.inj (hn.symm.trans (hq.permutedIndex_eq hy))
  exact ⟨hequations, x, hx, y, hy, hnames, hnames'⟩

end ClusterGraph

open ClusterGraph

namespace StoredGraph

variable {K : Type}

/-- In place, a graph is given constraints by the calls `more` and reduced then, and it is reduced
and given them by the calls `more'` then. Either way the calls answer alike, and the two graphs that
this leads to have one value and find the same places of pairs. -/
def Meets (K : Type) (s : List Cluster) (o : StoredGraph) (more more' : List Call)
    (answers : List (Except (Error K) Nat)) (value : ClusterGraph) : Prop :=
  ∃ o₁ s₁ o₂ s₂ o₃ s₃ o₄ s₄,
    o.addEach s more = (answers, o₁, s₁) ∧ (o₁.reduce (K := K)).run.run s₁ = (.ok o₂, s₂) ∧
    (o.reduce (K := K)).run.run s = (.ok o₃, s₃) ∧ o₃.addEach s₃ more' = (answers, o₄, s₄) ∧
    Represents s₂ o₂ value ∧ Represents s₄ o₄ value ∧
    ∀ p, o₂.table.lookup p = o₄.table.lookup p

/-- What agrees on values agrees in place. -/
theorem Represents.meets {s : List Cluster} {o : StoredGraph} {g r value : ClusterGraph}
    {more more' : List Call} (h : Represents s o g) (hr : g.reduce (K := K) = .ok r)
    (hvalue : (g.addEach (K := K) more).2.reduce (K := K) = .ok value)
    (hmore' : r.addEach (K := K) more' = ((g.addEach more).1, value)) :
    Meets K s o more more' (g.addEach more).1 value := by
  obtain ⟨o₁, s₁, hadd, h₁, -⟩ := h.exists_addEach (K := K) more
  obtain ⟨o₂, s₂, hreduce, h₂, -⟩ := h₁.exists_reduce hvalue
  obtain ⟨o₃, s₃, hreduce', h₃, -⟩ := h.exists_reduce hr
  obtain ⟨o₄, s₄, hadd', h₄, -⟩ := h₃.exists_addEach (K := K) more'
  rw [hmore'] at hadd' h₄
  exact ⟨o₁, s₁, o₂, s₂, o₃, s₃, o₄, s₄, hadd, hreduce, hreduce', hadd', h₂, h₄,
    fun p => (h₂.table p).trans (h₄.table p).symm⟩

/-- **Reducing commutes with adding.** Let a graph of `n` cliques be what calls have made of the
graph without constraints that list their cliques or give them as pairs in order. If the table of
all cliques cannot be held, it is not reduced, before any further calls or after them. Otherwise let
further calls name cliques that take part already, and let `more'` name the numbers of these, in
either order. Making the further calls and reducing then is reducing and making the calls `more'`
then: the answers are the same, and so is the graph, with its clusters and counts, and in place with
the places at which it finds pairs. -/
theorem reducing_commutes_with_adding {n : Nat} {calls : List Call}
    (hcalls : ∀ c ∈ calls, c.cliques.IsOrdered) :
    let g := ((blank n).addEach (K := K) calls).2
    match PartialPermutation.empty (K := K) n with
    | .error e => g.reduce = .error e ∧ ∀ more, (g.addEach (K := K) more).2.reduce = .error e
    | .ok _ => ∃ q r, g.participating (K := K) = .ok q ∧ g.reduce (K := K) = .ok r ∧
        ∀ more more', List.Forall₂ (Renumbers K q) more more' → ∃ value,
          (g.addEach (K := K) more).2.reduce (K := K) = .ok value ∧
          r.addEach (K := K) more' = ((g.addEach more).1, value) ∧
          ∀ s o, Represents s o g → Meets K s o more more' (g.addEach more).1 value := by
  intro g
  have hgrouped : g.Grouped := (grouped_blank n).addEach hcalls
  have hcount : g.cliqueCount = n := cliqueCount_addEach _ calls
  have hreduce : g.reduce (K := K) =
      (fun _ => g.canonical) <$> PartialPermutation.empty (K := K) n := by
    rw [hgrouped.inRange.reduce_eq, hcount]
  -- further constraints do not change how many cliques there are
  have hreduce_more : ∀ more, (g.addEach (K := K) more).2.reduce (K := K) =
      (fun _ => (g.addEach (K := K) more).2.canonical) <$> PartialPermutation.empty (K := K) n := by
    intro more
    rw [(hgrouped.inRange.addEach more).reduce_eq, cliqueCount_addEach, hcount]
  obtain ⟨q, hq, hvalid, -, hinverse⟩ := hgrouped.inRange.exists_numbering (K := K)
  have hparticipating := participating_of_numbering hq
  rw [hcount] at hparticipating
  -- whether the table of cliques can be held decides for both graphs at once
  cases hempty : PartialPermutation.empty (K := K) n with
  | error e =>
    rw [hempty] at hreduce hreduce_more
    exact ⟨hreduce, hreduce_more⟩
  | ok p =>
    rw [hempty] at hreduce hreduce_more hparticipating
    refine ⟨q, g.canonical, hparticipating, hreduce, fun more more' hmore => ?_⟩
    have hadd := hgrouped.addEach_canonical (K := K)
      (hmore.imp fun _ _ hc => hc.relabels hvalid hinverse)
    exact ⟨_, hreduce_more more, hadd, fun s o h => h.meets hreduce (hreduce_more more) hadd⟩

/-- Constraints of five out of ten cliques. -/
def builtSample : List Call := [⟨.list [5, 3], 2⟩, ⟨.list [9, 0], 1⟩, ⟨.pair ⟨1, 5⟩, 1⟩]

/-- How the five cliques are numbered. -/
def numberedSample : PartialPermutation :=
  ⟨[some 2, some 4, none, some 0, none, some 1, none, none, none, some 3], [3, 5, 0, 9, 1]⟩

/-- Further constraints of a pair that has no cluster, of one that has, and of a single clique. -/
def furtherSample : List Call := [⟨.list [1, 3], 2⟩, ⟨.pair ⟨1, 5⟩, 4⟩, ⟨.list [3], 1⟩]

/-- The same on the numbers of the cliques, of which the first two swap places. -/
def renumberedSample : List Call := [⟨.pair ⟨0, 4⟩, 2⟩, ⟨.list [4, 1], 4⟩, ⟨.list [0, 0], 1⟩]

/-- Three further calls on five cliques. One of them opens a cluster, one joins the cluster of its
pair and one names a single clique; on the numbers two pairs are given the other way round. -/
theorem reducing_commutes_with_adding_sample :
    let g := ((blank 10).addEach (K := ℚ) builtSample).2
    (∀ c ∈ builtSample, c.cliques.IsOrdered) ∧ ∃ r value,
      g.participating (K := ℚ) = .ok numberedSample ∧ g.reduce (K := ℚ) = .ok r ∧
      List.Forall₂ (Renumbers ℚ numberedSample) furtherSample renumberedSample ∧
      (g.addEach (K := ℚ) furtherSample).2.reduce (K := ℚ) = .ok value ∧
      r.addEach (K := ℚ) renumberedSample = ([.ok 3, .ok 4, .ok 5], value) ∧
      value.clusters = [⟨⟨0, 1⟩, [0], [2]⟩, ⟨⟨2, 3⟩, [1], [1]⟩, ⟨⟨1, 4⟩, [2, 4], [1, 4]⟩,
        ⟨⟨0, 4⟩, [3], [2]⟩, ⟨⟨0, 0⟩, [5], [1]⟩] ∧
      ∀ s o, Represents s o g →
        Meets ℚ s o furtherSample renumberedSample [.ok 3, .ok 4, .ok 5] value := by
  intro g
  have hordered : ∀ c ∈ builtSample, c.cliques.IsOrdered := by
    intro c hc p hp
    simp only [builtSample, List.mem_cons, List.not_mem_nil, or_false] at hc
    rcases hc with rfl | rfl | rfl <;> cases hp
    decide
  have hcommutes := reducing_commutes_with_adding (K := ℚ) (n := 10) hordered
  have hempty : PartialPermutation.empty (K := ℚ) (10 : Nat) = .ok (.blank 10) := rfl
  rw [hempty] at hcommutes
  obtain ⟨q, r, hq, hr, hmeets⟩ := hcommutes
  have hnumbers : g.participating (K := ℚ) = .ok numberedSample := rfl
  obtain rfl := Except.ok.inj (hnumbers.symm.trans hq)
  have hmore : List.Forall₂ (Renumbers ℚ numberedSample) furtherSample renumberedSample :=
    .cons ⟨rfl, 1, 3, 4, 0, .listed, rfl, rfl, .paired⟩
      (.cons ⟨rfl, 1, 5, 4, 1, .paired, rfl, rfl, .listed⟩
        (.cons ⟨rfl, 3, 3, 0, 0, .single rfl, rfl, rfl, .listed⟩ .nil))
  obtain ⟨value, hvalue, hadd, hplace⟩ := hmeets furtherSample renumberedSample hmore
  have hanswers : (g.addEach (K := ℚ) furtherSample).1 = [.ok 3, .ok 4, .ok 5] := rfl
  rw [hanswers] at hadd hplace
  obtain ⟨value', hvalue', hclusters⟩ := Outcome.exists_of_check
    (x := (g.addEach (K := ℚ) furtherSample).2.reduce (K := ℚ))
    (P := fun v => v.clusters == [⟨⟨0, 1⟩, [0], [2]⟩, ⟨⟨2, 3⟩, [1], [1]⟩, ⟨⟨1, 4⟩, [2, 4], [1, 4]⟩,
      ⟨⟨0, 4⟩, [3], [2]⟩, ⟨⟨0, 0⟩, [5], [1]⟩]) (by decide +kernel)
  obtain rfl := Except.ok.inj (hvalue'.symm.trans hvalue)
  exact ⟨hordered, r, _, hq, hr, hmore, hvalue, hadd, eq_of_beq hclusters, hplace⟩

/-- Three cliques, the last two of which are coupled. -/
def coupledSample : ClusterGraph := ((blank 3).addEach (K := ℚ) [⟨.list [1, 2], 1⟩]).2

/-- **A pair out of order.** A pair is looked up as it is given, but put in order when the graph is
reduced. So a pair out of order opens a cluster of its own, and after reducing there are two
clusters of one pair. In whatever way its numbers are given to the reduced graph, no such graph
comes out. -/
theorem pair_out_of_order_does_not_commute :
    ∃ q g r value, coupledSample.add (K := ℚ) (.pair ⟨2, 1⟩) 1 = .ok (g, 1) ∧
      coupledSample.participating (K := ℚ) = .ok q ∧ q.permutedIndex (K := ℚ) 1 = .ok 0 ∧
      q.permutedIndex (K := ℚ) 2 = .ok 1 ∧ coupledSample.reduce (K := ℚ) = .ok r ∧
      g.reduce (K := ℚ) = .ok value ∧ value.clusters = [⟨⟨0, 1⟩, [0], [1]⟩, ⟨⟨0, 1⟩, [1], [1]⟩] ∧
      ∀ c ∈ [CliqueArgument.list [1, 0], .list [0, 1], .pair ⟨1, 0⟩, .pair ⟨0, 1⟩],
        ∃ r', r.add (K := ℚ) c 1 = .ok (r', 1) ∧ r' ≠ value := by
  refine ⟨_, _, _, _, rfl, rfl, rfl, rfl, rfl, rfl, rfl, fun c hc => ?_⟩
  simp only [List.mem_cons, List.not_mem_nil, or_false] at hc
  rcases hc with rfl | rfl | rfl | rfl
  all_goals exact ⟨_, rfl, by decide⟩

end StoredGraph

end ConvexContact
