import ConvexContact.Proofs.Coupling.ClusterGraph
import ConvexContact.Proofs.Index.Distinct

/-!
# Histories of cluster graphs

Constraints are added to a graph by calls, of which some are rejected. The graph that they leave is
the stable grouping of the accepted ones by their pairs (`ClusterGraph.Groups`):

* clusters stand in the order in which their pairs first came, and list their constraints in the
  order in which these came;
* the order of all constraints is sorted by cluster first, and then by index;
* cliques are numbered in the order in which a scan of the calls meets them, although the numbering
  scans the clusters.

Proof shape: whether a call is accepted depends on the call and the number of cliques alone
(`Call.filing?`), so the accepted calls form a list, the filings, before any graph is looked at. The
grouping of a list is a definition of its own (`Filing.pairs`, `Filing.cluster`), with an equation
for one filing more. A single addition keeps the graph equal to it (`ClusterGraph.Groups.join`), and
whatever is said of the graph is a fact about lists then. That the cliques come out in the order of
the calls is one about repetitions: a clique that a later constraint names again is met no earlier
in the scan of the calls than in that of the clusters. Main statement:
`ClusterGraph.groups_history`.
-/

namespace ConvexContact

/-! ## Calls

Whether a call is accepted can be told from the call and the number of cliques, without the graph.
What it files then is a pair and a number of equations. -/

/-- A call that asks for a constraint to be added. -/
structure Call where
  cliques : CliqueArgument
  equations : Int

/-- A constraint as a graph files it. -/
structure Filing where
  pair : CliquePair
  equations : Int

/-- The pair that is named: of one or two cliques their normal form, and otherwise the pair as it
is. -/
def CliqueArgument.pair? : CliqueArgument → Option CliquePair
  | .pair p => some p
  | .list [a] => some (.normalized a none)
  | .list [a, b] => some (.normalized a (some b))
  | .list _ | .unpaired _ => none

/-- What a call files on a graph of `n` cliques, unless it names no pair of these cliques or no
equations. -/
def Call.filing? (n : Nat) (c : Call) : Option Filing :=
  c.cliques.pair?.bind fun p =>
    if ((0 ≤ p.first ∧ p.first < n) ∧ 0 ≤ p.second ∧ p.second < n) ∧ 0 < c.equations then
      some ⟨p, c.equations⟩
    else none

/-- What is filed couples cliques of the graph. -/
theorem Call.mem_range_of_filing {n : Nat} (c : Call) {f : Filing} (h : c.filing? n = some f)
    {x : Int} (hx : x ∈ f.pair.cliques) : 0 ≤ x ∧ x < n := by
  obtain ⟨p, -, h⟩ := Option.bind_eq_some_iff.mp h
  split at h
  · rename_i hcheck
    obtain rfl := Option.some.inj h
    unfold CliquePair.cliques at hx
    split at hx <;> simp only [List.mem_cons, List.not_mem_nil, or_false] at hx <;> omega
  · cases h

namespace ClusterGraph

variable {K : Type} {g : ClusterGraph} {c : Call}

/-- What calls answer that are made one after the other, and the graph they leave. -/
def addEach (g : ClusterGraph) : List Call → List (Except (Error K) Nat) × ClusterGraph
  | [] => ([], g)
  | c :: cs =>
    match g.add c.cliques c.equations with
    | .ok (h, i) => (.ok i :: (h.addEach cs).1, (h.addEach cs).2)
    | .error e => (.error e :: (g.addEach cs).1, (g.addEach cs).2)

/-- A pair is read as it is, when both of its cliques are cliques of the graph. -/
theorem readPair_pair_eq_ok {p q : CliquePair} :
    g.readPair (K := K) (.pair q) = .ok p ↔ some q = some p ∧
      (0 ≤ p.first ∧ p.first < g.cliqueCount) ∧ 0 ≤ p.second ∧ p.second < g.cliqueCount := by
  change (g.checkClique q.first >>= fun _ => g.checkClique q.second >>= fun _ => pure q) = _ ↔ _
  simp only [Outcome.bind_eq_ok, Outcome.pure_eq_ok, Option.some.injEq]
  constructor
  · rintro ⟨⟨⟩, hfirst, ⟨⟩, hsecond, rfl⟩
    exact ⟨rfl, checkClique_eq_ok_iff.mp hfirst, checkClique_eq_ok_iff.mp hsecond⟩
  · rintro ⟨rfl, hfirst, hsecond⟩
    exact ⟨(), checkClique_eq_ok_iff.mpr hfirst, (), checkClique_eq_ok_iff.mpr hsecond, rfl⟩

/-- No cliques at all, or more than two, are not read as a pair. -/
theorem readPair_ne_ok {a : CliqueArgument} (h : a.pair? = none) (p : CliquePair) :
    g.readPair (K := K) a ≠ .ok p := by
  intro hread
  cases a with
  | pair q => cases h
  | list xs =>
    rcases xs with _ | ⟨a, _ | ⟨b, _ | ⟨c, xs⟩⟩⟩
    · cases hread
    · cases h
    · cases h
    · cases hread
  | unpaired a =>
    obtain ⟨⟨⟩, -, hread⟩ := Outcome.bind_eq_ok.mp hread
    obtain ⟨q, hq, -⟩ := Outcome.bind_eq_ok (x := pairOf (.unpaired a)).mp hread
    cases hq

/-- A pair of cliques of the graph is read, and nothing else. -/
theorem readPair_eq_ok {a : CliqueArgument} {p : CliquePair} :
    g.readPair (K := K) a = .ok p ↔ a.pair? = some p ∧
      (0 ≤ p.first ∧ p.first < g.cliqueCount) ∧ 0 ≤ p.second ∧ p.second < g.cliqueCount := by
  cases a with
  | pair q => exact readPair_pair_eq_ok
  | list xs =>
    rcases xs with _ | ⟨a, _ | ⟨b, _ | ⟨c, xs⟩⟩⟩
    · exact iff_of_false (readPair_ne_ok rfl p) fun h => by cases h.1
    · exact readPair_pair_eq_ok
    · exact readPair_pair_eq_ok
    · exact iff_of_false (readPair_ne_ok rfl p) fun h => by cases h.1
  | unpaired a => exact iff_of_false (readPair_ne_ok rfl p) fun h => by cases h.1

/-- A call that files something joins its pair, and answers with the number of constraints so
far. -/
theorem add_of_filing {f : Filing} (h : c.filing? g.cliqueCount = some f) :
    g.add (K := K) c.cliques c.equations = .ok (g.join f.pair f.equations, g.constraintCount) := by
  obtain ⟨p, hp, hf⟩ := Option.bind_eq_some_iff.mp h
  split at hf
  · rename_i hcheck
    obtain rfl := Option.some.inj hf
    rw [add, Outcome.bind_of_ok _ (readPair_eq_ok.mpr ⟨hp, hcheck.1⟩), if_neg (by omega)]
    rfl
  · cases hf

/-- A call that files nothing is rejected. -/
theorem exists_error_of_filing (h : c.filing? g.cliqueCount = none) :
    ∃ e, g.add (K := K) c.cliques c.equations = .error e := by
  rcases hadd : g.add (K := K) c.cliques c.equations with e | ⟨g', i⟩
  · exact ⟨e, rfl⟩
  · exfalso
    obtain ⟨p, hread, hadd⟩ := Outcome.bind_eq_ok.mp hadd
    obtain ⟨hp, hrange⟩ := readPair_eq_ok.mp hread
    by_cases hcount : c.equations ≤ 0
    · rw [if_pos hcount] at hadd
      cases hadd
    · rw [Call.filing?, hp, Option.bind_some, if_pos ⟨hrange, by omega⟩] at h
      cases h

/-- The first of several calls, when it files something. -/
theorem addEach_of_filing {f : Filing} (h : c.filing? g.cliqueCount = some f)
    (calls : List Call) : g.addEach (K := K) (c :: calls) =
      (.ok g.constraintCount :: ((g.join f.pair f.equations).addEach (K := K) calls).1,
        ((g.join f.pair f.equations).addEach (K := K) calls).2) := by
  rw [addEach, add_of_filing h]

/-- The first of several calls, when it is rejected: the others meet the same graph. -/
theorem addEach_of_rejected (h : c.filing? g.cliqueCount = none) (calls : List Call) :
    ∃ e, g.addEach (K := K) (c :: calls) =
      (.error e :: (g.addEach (K := K) calls).1, (g.addEach (K := K) calls).2) := by
  obtain ⟨e, he⟩ := exists_error_of_filing (K := K) h
  exact ⟨e, by rw [addEach, he]⟩

end ClusterGraph

/-! ## Groups

From here to the next section there are no graphs, only lists of filings. What a further filing does
to the pairs and to each cluster is written as one equation per definition, since these are what the
induction over the calls rewrites with. -/

namespace Filing

/-- The filings under a pair, each with its index. -/
def under (fs : List Filing) (p : CliquePair) : List (Filing × Nat) :=
  fs.zipIdx.filter (·.1.pair = p)

/-- The cluster of a pair: the indices of the filings under it, and their numbers of equations. -/
def cluster (fs : List Filing) (p : CliquePair) : Cluster where
  cliques := p
  members := (under fs p).map (·.2)
  equations := (under fs p).map (·.1.equations)

/-- The pairs in the order in which they first came. -/
def pairs (fs : List Filing) : List CliquePair := (fs.map (·.pair)).eraseDups

/-- The place of the pair of a constraint among the pairs, in the order in which they first came. -/
def rank (fs : List Filing) (i : Int) : Nat :=
  (fs[i.toNat]?).elim 0 fun f => (pairs fs).idxOf f.pair

variable {fs : List Filing} {f : Filing} {p : CliquePair}

/-- The pairs are those of the filings. -/
theorem mem_pairs : p ∈ pairs fs ↔ ∃ f ∈ fs, f.pair = p := by
  simp [pairs, List.mem_eraseDups]

/-- A further filing brings its pair, unless the pair is there. -/
theorem pairs_append_singleton (fs : List Filing) (f : Filing) :
    pairs (fs ++ [f]) = if f.pair ∈ pairs fs then pairs fs else pairs fs ++ [f.pair] := by
  rw [pairs, List.map_append, List.map_singleton, eraseDups_append_singleton]
  simp only [pairs, List.mem_eraseDups]

/-- A further filing stands last under its pair. -/
theorem under_append_singleton (fs : List Filing) (f : Filing) (p : CliquePair) :
    under (fs ++ [f]) p = under fs p ++ if f.pair = p then [(f, fs.length)] else [] := by
  rw [under, List.zipIdx_append, List.filter_append, under]
  by_cases hp : f.pair = p <;> simp [hp]

/-- A further filing is added to the cluster of its pair, and to no other. -/
theorem cluster_append_singleton (fs : List Filing) (f : Filing) (p : CliquePair) :
    cluster (fs ++ [f]) p =
      if f.pair = p then (cluster fs p).add fs.length f.equations else cluster fs p := by
  rw [cluster, under_append_singleton]
  by_cases hp : f.pair = p
  · simp [hp, cluster, Cluster.add]
  · simp [hp, cluster]

/-- A filing of a pair that is there already goes to the cluster at the place of the pair. -/
theorem map_cluster_append_singleton {fs : List Filing} {f : Filing} {k : Nat}
    (hplace : (pairs fs)[k]? = some f.pair) :
    (pairs fs).map (cluster (fs ++ [f])) =
      ((pairs fs).map (cluster fs)).modify k (·.add fs.length f.equations) := by
  refine List.ext_getElem? fun j => ?_
  rw [List.getElem?_modify, List.getElem?_map, List.getElem?_map]
  cases hj : (pairs fs)[j]? with
  | none => rfl
  | some p =>
    have hiff : k = j ↔ f.pair = p := by
      constructor
      · rintro rfl
        exact Option.some.inj (hplace.symm.trans hj)
      · rintro rfl
        have hlt := (List.getElem?_eq_some_iff.mp hplace).1
        exact (List.getElem?_inj hlt (nodup_eraseDups _)).mp (hplace.trans hj.symm)
    simp only [Option.map_some, cluster_append_singleton, hiff]
    split <;> rfl

/-- There is nothing under a pair that has not come. -/
theorem cluster_of_notMem (h : p ∉ pairs fs) : cluster fs p = .empty p := by
  have hunder : under fs p = [] := by
    rw [under, List.filter_eq_nil_iff]
    intro e he
    have hmem := List.fst_mem_of_mem_zipIdx he
    simpa using fun hp => h (mem_pairs.mpr ⟨e.1, hmem, hp⟩)
  rw [cluster, hunder]
  rfl

/-- The members of a cluster, as the places of filings under its pair. -/
theorem mem_members {i : Int} (h : i ∈ (cluster fs p).members) :
    ∃ k : Nat, i = k ∧ ∃ f, fs[k]? = some f ∧ f.pair = p := by
  obtain ⟨e, he, rfl⟩ := List.mem_map.mp h
  obtain ⟨hmem, hp⟩ := List.mem_filter.mp he
  exact ⟨e.2, rfl, e.1, List.mem_zipIdx_iff_getElem?.mp hmem, by simpa using hp⟩

/-- Members of one cluster have the rank of its pair. -/
theorem rank_of_mem_members {i : Int} (h : i ∈ (cluster fs p).members) :
    rank fs i = (pairs fs).idxOf p := by
  obtain ⟨k, rfl, f, hf, rfl⟩ := mem_members h
  rw [rank, Int.toNat_natCast, hf]
  rfl

/-- Members are listed in the order of their indices. -/
theorem members_sorted (fs : List Filing) (p : CliquePair) :
    (cluster fs p).members.Pairwise (· < ·) := by
  induction fs using List.reverseRecOn with
  | nil => exact List.Pairwise.nil
  | append_singleton fs f ih =>
    rw [cluster_append_singleton]
    split
    · rw [Cluster.add, List.pairwise_append]
      -- the filing that comes last has the greatest place
      refine ⟨ih, List.pairwise_singleton _ _, fun i hi j hj => ?_⟩
      obtain ⟨k, rfl, f, hf, -⟩ := mem_members hi
      rw [List.mem_singleton.mp hj]
      exact Int.ofNat_lt.mpr (List.getElem?_eq_some_iff.mp hf).1
    · exact ih

end Filing

/-! ## Graphs

The graph is equal to the grouping of what was filed: one step for a constraint that joins its pair,
and a run over the calls, in which those that are rejected change neither side. -/

namespace ClusterGraph

open Filing

variable {K : Type} {g : ClusterGraph} {p : CliquePair} {fs : List Filing} {f : Filing}

/-- No cluster is found for a pair that has none. -/
theorem clusterOf?_eq_none_iff : g.clusterOf? p = none ↔ p ∉ g.clusters.map (·.cliques) := by
  have hfold : ∀ (cs : List (Cluster × Nat)) (found : Option Nat),
      cs.foldl (fun found ck => if ck.1.cliques = p then some ck.2 else found) found = none ↔
        found = none ∧ ∀ ck ∈ cs, ck.1.cliques ≠ p := by
    intro cs
    induction cs with
    | nil => simp
    | cons ck cs ih =>
      intro found
      rw [List.foldl_cons, ih, List.forall_mem_cons]
      by_cases hck : ck.1.cliques = p <;> simp [hck]
  have hmem : (∀ ck ∈ g.clusters.zipIdx, ck.1.cliques ≠ p) ↔ ∀ c ∈ g.clusters, c.cliques ≠ p := by
    constructor
    · intro h c hc
      obtain ⟨k, hk⟩ := List.mem_iff_getElem?.mp hc
      exact h (c, k) (List.mem_zipIdx_iff_getElem?.mpr hk)
    · exact fun h ck hck => h ck.1 (List.fst_mem_of_mem_zipIdx hck)
  rw [clusterOf?, hfold, and_iff_right rfl, hmem]
  simp

/-- What a further constraint of a pair adds to the equations of the clusters. -/
theorem sum_totalEquations_modify (clusters : List Cluster) {k : Nat} (hk : k < clusters.length)
    (i n : Int) : ((clusters.modify k (·.add i n)).map (·.totalEquations)).sum =
      (clusters.map (·.totalEquations)).sum + n := by
  induction clusters generalizing k with
  | nil => simp at hk
  | cons c clusters ih =>
    cases k with
    | zero =>
      simp only [List.modify_zero_cons, List.map_cons, List.sum_cons, Cluster.totalEquations_add]
      omega
    | succ k =>
      have htail := ih (k := k) (by simpa using hk)
      simp only [List.modify_succ_cons, List.map_cons, List.sum_cons, htail]
      omega

/-- A graph that groups filings: a cluster for each pair, and an order of all constraints. -/
structure Groups (g : ClusterGraph) (fs : List Filing) : Prop where
  clusters : g.clusters = (pairs fs).map (Filing.cluster fs)
  constraintCount : g.constraintCount = fs.length
  equationCount : g.equationCount = (g.clusters.map (·.totalEquations)).sum
  /-- the order lists every index once -/
  order : g.order.Perm ((List.range fs.length).map Int.ofNat)

/-- A graph without constraints groups no filings. -/
theorem groups_blank (n : Nat) : (blank n).Groups [] := ⟨rfl, rfl, rfl, List.Perm.refl []⟩

/-- The pairs of the clusters are the pairs of the filings, in the order in which these came. -/
theorem Groups.map_cliques (h : g.Groups fs) : g.clusters.map (·.cliques) = pairs fs := by
  rw [h.clusters, List.map_map]
  exact List.map_id _

/-- The clusters after a constraint has joined its pair. -/
theorem Groups.clusters_join (h : g.Groups fs) (f : Filing) :
    (g.join f.pair f.equations).clusters = (pairs (fs ++ [f])).map (Filing.cluster (fs ++ [f])) ∧
      ((g.join f.pair f.equations).clusters.map (·.totalEquations)).sum =
        (g.clusters.map (·.totalEquations)).sum + f.equations := by
  cases hk : g.clusterOf? f.pair with
  | none =>
    -- the pair is new: its cluster comes last, and those of the other pairs stay as they are
    have hnew : f.pair ∉ pairs fs := by
      rw [← h.map_cliques]
      exact clusterOf?_eq_none_iff.mp hk
    have hold : ∀ p ∈ pairs fs, Filing.cluster (fs ++ [f]) p = Filing.cluster fs p := by
      intro p hp
      rw [cluster_append_singleton, if_neg]
      rintro rfl
      exact hnew hp
    have hclusters : (g.join f.pair f.equations).clusters =
        g.clusters ++ [(Cluster.empty f.pair).add g.constraintCount f.equations] := by
      simp only [ClusterGraph.join, hk]
    refine ⟨?_, by simp [hclusters, Cluster.empty, Cluster.totalEquations, Cluster.add]⟩
    rw [hclusters, pairs_append_singleton, if_neg hnew, List.map_append,
      List.map_congr_left hold, ← h.clusters, List.map_singleton, cluster_append_singleton,
      if_pos rfl, cluster_of_notMem hnew, h.constraintCount]
  | some k =>
    -- the pair is at place `k`, and at no other one
    obtain ⟨c, hc, hcp⟩ := clusterOf?_eq_some hk
    have hplace : (pairs fs)[k]? = some f.pair := by
      rw [← h.map_cliques, List.getElem?_map, hc, ← hcp]
      rfl
    have hclusters : (g.join f.pair f.equations).clusters =
        g.clusters.modify k (·.add g.constraintCount f.equations) := by
      simp only [ClusterGraph.join, hk]
    rw [hclusters]
    refine ⟨?_, sum_totalEquations_modify _ (List.getElem?_eq_some_iff.mp hc).1 _ _⟩
    rw [pairs_append_singleton, if_pos (List.mem_of_getElem? hplace), h.clusters,
      h.constraintCount, map_cluster_append_singleton hplace]

/-- **Step.** A constraint that joins its pair is grouped with the others. -/
theorem Groups.join (h : g.Groups fs) (f : Filing) :
    (g.join f.pair f.equations).Groups (fs ++ [f]) := by
  obtain ⟨hclusters, hsum⟩ := h.clusters_join f
  refine ⟨hclusters, by simp [h.constraintCount], ?_, ?_⟩
  · rw [hsum, ← h.equationCount]
    rfl
  · refine (order_join_perm g f.pair f.equations).trans ?_
    rw [List.length_append, List.length_singleton, List.range_succ, List.map_append,
      h.constraintCount]
    exact h.order.append_right _

/-- **Run.** Calls leave the groups of what they file, and each of those that file something
answers with the number of constraints before it. -/
theorem Groups.addEach (h : g.Groups fs) (calls : List Call) :
    (g.addEach (K := K) calls).2.Groups (fs ++ calls.filterMap (·.filing? g.cliqueCount)) ∧
      (g.addEach (K := K) calls).2.cliqueCount = g.cliqueCount ∧
      (g.addEach (K := K) calls).1.map (·.isOk) =
        calls.map (fun c => (c.filing? g.cliqueCount).isSome) ∧
      (g.addEach (K := K) calls).1.filterMap (·.toOption) =
        List.range' fs.length (calls.filterMap (·.filing? g.cliqueCount)).length := by
  induction calls generalizing g fs with
  | nil => exact ⟨by simpa [ClusterGraph.addEach] using h, rfl, rfl, rfl⟩
  | cons c calls ih =>
    cases hc : c.filing? g.cliqueCount with
    | none =>
      obtain ⟨e, he⟩ := addEach_of_rejected (K := K) hc calls
      obtain ⟨hgroups, hcount, hok, hanswers⟩ := ih h
      rw [he, List.filterMap_cons_none hc, List.map_cons, List.map_cons, hc]
      exact ⟨hgroups, hcount, congrArg _ hok, hanswers⟩
    | some f =>
      obtain ⟨hgroups, hcount, hok, hanswers⟩ := ih (h.join f)
      rw [cliqueCount_join] at hgroups hcount hok hanswers
      rw [List.append_assoc] at hgroups
      have hanswer : (Except.ok g.constraintCount : Except (Error K) Nat).toOption =
          some fs.length := congrArg some h.constraintCount
      rw [addEach_of_filing hc, List.filterMap_cons_some hc, List.map_cons, List.map_cons, hc,
        List.length_cons, List.range'_succ, List.filterMap_cons_some hanswer, hanswers,
        List.length_append]
      exact ⟨hgroups, hcount, congrArg _ hok, rfl⟩

/-- Calls that file nothing could as well not have been made. -/
theorem addEach_filter (g : ClusterGraph) (calls : List Call) :
    (g.addEach (K := K) (calls.filter fun c => (c.filing? g.cliqueCount).isSome)).2 =
      (g.addEach (K := K) calls).2 := by
  induction calls generalizing g with
  | nil => rfl
  | cons c calls ih =>
    cases hc : c.filing? g.cliqueCount with
    | none =>
      obtain ⟨e, he⟩ := addEach_of_rejected (K := K) hc calls
      rw [List.filter_cons_of_neg (by simp [hc]), he]
      exact ih g
    | some f =>
      rw [List.filter_cons_of_pos (by simp [hc]), addEach_of_filing hc, addEach_of_filing hc]
      exact ih (g.join f.pair f.equations)

/-! ### What is read off the groups -/

/-- Constraints are ordered by their clusters first, and by their indices within one. -/
theorem Groups.order_sorted (h : g.Groups fs) :
    g.order.Pairwise fun i j => rank fs i < rank fs j ∨ rank fs i = rank fs j ∧ i < j := by
  rw [ClusterGraph.order, h.clusters, List.flatMap_map, List.pairwise_flatMap]
  constructor
  -- within a cluster: one rank, increasing indices
  · intro p _
    refine (members_sorted fs p).imp_of_mem fun hi hj hij => Or.inr ⟨?_, hij⟩
    rw [rank_of_mem_members hi, rank_of_mem_members hj]
  -- across clusters: the rank is the place of the cluster
  · have hnodup : (pairs fs).Nodup := nodup_eraseDups _
    rw [List.pairwise_iff_getElem]
    intro k l hk hl hkl i hi j hj
    rw [rank_of_mem_members hi, rank_of_mem_members hj, hnodup.idxOf_getElem k hk,
      hnodup.idxOf_getElem l hl]
    exact Or.inl hkl

/-- Numbering the cliques scans the clusters, and meets the cliques in the order in which a scan of
what was filed meets them. -/
theorem Groups.exists_numbering (h : g.Groups fs)
    (hrange : ∀ f ∈ fs, ∀ x ∈ f.pair.cliques, 0 ≤ x ∧ x < g.cliqueCount) :
    ∃ q, g.numbering (K := K) = .ok q ∧ q.domainSize = g.cliqueCount ∧
      q.inverse.map Int.ofNat = (fs.flatMap (·.pair.cliques)).eraseDups := by
  have hscan : g.scan = (pairs fs).flatMap (·.cliques) := by
    rw [ClusterGraph.scan, h.clusters, List.flatMap_map]
    rfl
  have hdomain : (PartialPermutation.blank g.cliqueCount).domainSize = g.cliqueCount := by
    simp [PartialPermutation.domainSize, PartialPermutation.blank]
  obtain ⟨q, hq⟩ : ∃ q, g.numbering (K := K) = .ok q := by
    refine PartialPermutation.exists_pushAll fun x hx => ?_
    rw [hscan] at hx
    obtain ⟨p, hp, hx⟩ := List.mem_flatMap.mp hx
    obtain ⟨f, hf, rfl⟩ := mem_pairs.mp hp
    rw [hdomain]
    exact hrange f hf x hx
  refine ⟨q, hq, ?_, ?_⟩
  · rw [← hdomain]
    exact ((PartialPermutation.valid_blank _).pushAll hq).2.1
  -- the scan of the pairs without repetitions, against the scan of all filings
  · rw [PartialPermutation.inverse_pushAll_blank hq, hscan, pairs, eraseDups_flatMap_eraseDups,
      List.flatMap_map]

/-- The numbering is what the graph answers, unless the table of its cliques cannot be held. -/
theorem participating_of_numbering {q : PartialPermutation} (h : g.numbering (K := K) = .ok q) :
    g.participating (K := K) = (fun _ => q) <$> PartialPermutation.empty g.cliqueCount := by
  unfold participating PartialPermutation.empty
  split
  · rfl
  · split
    · rfl
    · split
      · rfl
      · exact h

/-- **A graph is the stable grouping of its history.** Of calls that are made one after the other on
a graph of `n` cliques, let `fs` be what is filed by those that name a pair of its cliques and a
positive number of equations. These are the calls that are not rejected, and they answer with their
own places in `fs`. The graph they leave, which is that of the filed calls alone, holds

* a cluster for each pair of `fs`, in the order in which the pairs came, that lists the places of
  its filings in their order, with their equations;
* an order that rearranges all places, sorted by the pair and then by the place;
* the cliques of the pairs, in the order in which a scan of `fs` meets them. They can be asked for
  as long as the table of all cliques can be held. -/
theorem groups_history (n : Nat) (calls : List Call) :
    let fs := calls.filterMap (·.filing? n)
    let answers := ((blank n).addEach (K := K) calls).1
    let g := ((blank n).addEach (K := K) calls).2
    ClusterGraph.empty (K := K) n = .ok (blank n) ∧
      answers.map (·.isOk) = calls.map (fun c => (c.filing? n).isSome) ∧
      answers.filterMap (·.toOption) = List.range fs.length ∧
      g = ((blank n).addEach (K := K) (calls.filter fun c => (c.filing? n).isSome)).2 ∧
      g.clusters = (pairs fs).map (Filing.cluster fs) ∧
      (∀ c ∈ g.clusters, c.members.Pairwise (· < ·)) ∧
      g.order.Perm ((List.range fs.length).map Int.ofNat) ∧
      (g.order.Pairwise fun i j => rank fs i < rank fs j ∨ rank fs i = rank fs j ∧ i < j) ∧
      g.constraintCount = fs.length ∧
      g.equationCount = (g.clusters.map (·.totalEquations)).sum ∧
      ∃ q, g.numbering (K := K) = .ok q ∧
        g.participating (K := K) = (fun _ => q) <$> PartialPermutation.empty (n : Int) ∧
        (n < Nat.pow 2 33 → g.participating (K := K) = .ok q) ∧
        q.domainSize = n ∧ q.inverse.map Int.ofNat = (fs.flatMap (·.pair.cliques)).eraseDups := by
  intro fs answers g
  obtain ⟨hgroups, hcount, hok, hanswers⟩ := (groups_blank n).addEach (K := K) calls
  change g.Groups fs at hgroups
  change g.cliqueCount = n at hcount
  have hrange : ∀ f ∈ fs, ∀ x ∈ f.pair.cliques, 0 ≤ x ∧ x < g.cliqueCount := by
    intro f hf x hx
    obtain ⟨c, -, hc⟩ := List.mem_filterMap.mp hf
    rw [hcount]
    exact c.mem_range_of_filing hc hx
  obtain ⟨q, hq, hdomain, hinverse⟩ := hgroups.exists_numbering (K := K) hrange
  have hparticipating := participating_of_numbering hq
  have hheld : n < Nat.pow 2 33 → g.participating (K := K) = .ok q := fun hn =>
    (participating_eq_numbering (hcount.trans_lt hn)).trans hq
  rw [hcount] at hdomain hparticipating
  refine ⟨by simp [ClusterGraph.empty], hok, hanswers.trans List.range_eq_range'.symm,
    (addEach_filter _ calls).symm, hgroups.clusters, ?_, hgroups.order, hgroups.order_sorted,
    hgroups.constraintCount, hgroups.equationCount, q, hq, hparticipating, hheld, hdomain,
    hinverse⟩
  intro c hc
  rw [hgroups.clusters] at hc
  obtain ⟨p, -, rfl⟩ := List.mem_map.mp hc
  exact members_sorted fs p

end ClusterGraph

end ConvexContact
