import ConvexContact.Proofs.Coupling.Unordered

/-!
# Growing graphs

The numbers of the cliques and the order of the constraints are read off a graph by scans of all its
clusters, which start over each time. They are stable nevertheless: whatever is added leads to a
graph that extends the one before (`ClusterGraph.Extends`).

* A cluster stays in its place, with its pair, and what is new in it comes last.
* New clusters come last, so the scan meets the old cliques first, and these keep their numbers.
* Old constraints stand in their old order among the new ones.

A new constraint may come anywhere in the order, behind the others of its cluster. It is the only
one that is new, as its index is above all others (`ClusterGraph.Indexed`).

Proof shape: extension is an order on graphs (`extends_refl`, `Extends.trans`) that a single
constraint respects (`extends_join`), so any number of calls do, by
`ClusterGraph.Indexed.extends_addEach`. Numbers are not followed through the program. They are
places in the scan without repetitions, so that a longer scan with the old one in front gives the
old cliques the numbers they had (`Extends.continues`). Main statement, about a single call:
`ClusterGraph.Reachable.grows_of_add`.
-/

namespace ConvexContact

/-- A cluster of the same pair with further constraints behind those of another one. -/
structure Cluster.Extends (c d : Cluster) : Prop where
  cliques : d.cliques = c.cliques
  members : c.members <+: d.members

theorem Cluster.Extends.trans {c d e : Cluster} (hcd : c.Extends d) (hde : d.Extends e) :
    c.Extends e :=
  ⟨hde.cliques.trans hcd.cliques, hcd.members.trans hde.members⟩

/-- A clique that is paired with itself is listed once. -/
theorem CliquePair.nodup_cliques (p : CliquePair) : p.cliques.Nodup := by
  unfold cliques isSelfPair
  split
  · exact List.nodup_singleton _
  · rename_i hne
    simpa using hne

theorem CliquePair.length_cliques_le (p : CliquePair) : p.cliques.length ≤ 2 := by
  unfold cliques
  split <;> simp

namespace ClusterGraph

variable {K : Type} {g g' g'' : ClusterGraph} {p : CliquePair} {n : Int}

/-! ## Additions

A new member stands at the end of its cluster, so in the order of all constraints it comes between
the members of its cluster and those of the clusters behind. Both sides of it are the old order. -/

/-- An addition answers with the number of constraints so far. -/
theorem index_of_add {a : CliqueArgument} {i : Nat} (h : g.add (K := K) a n = .ok (g', i)) :
    i = g.constraintCount := by
  obtain ⟨p, -, h⟩ := Outcome.bind_eq_ok.mp h
  split at h
  · cases h
  · exact (Prod.mk.inj (Outcome.pure_eq_ok.mp h)).2.symm

/-- A constraint that joins its pair is the only new one in the order. -/
theorem exists_order_join (g : ClusterGraph) (p : CliquePair) (n : Int) :
    ∃ before after, g.order = before ++ after ∧
      (g.join p n).order = before ++ (g.constraintCount : Int) :: after := by
  cases hk : g.clusterOf? p with
  -- behind all others, in a cluster of its own
  | none => exact ⟨g.order, [], by simp, by simp [order, join, hk, Cluster.add, Cluster.empty]⟩
  | some k =>
    obtain ⟨c, hc, -⟩ := clusterOf?_eq_some hk
    obtain ⟨hlt, rfl⟩ := List.getElem?_eq_some_iff.mp hc
    -- behind the members of its cluster, and before those of the clusters behind it
    refine ⟨(g.clusters.take k).flatMap (·.members) ++ g.clusters[k].members,
      (g.clusters.drop (k + 1)).flatMap (·.members), ?_, ?_⟩
    · rw [order, ← List.flatMap_singleton (·.members) g.clusters[k], ← List.flatMap_append,
        List.take_append_getElem, ← List.flatMap_append, List.take_append_drop]
    · have hclusters : (g.join p n).clusters = g.clusters.take k ++
          g.clusters[k].add g.constraintCount n :: g.clusters.drop (k + 1) := by
        simp only [join, hk]
        rw [List.modify_eq_take_cons_drop hlt]
      simp [order, hclusters, Cluster.add]

/-! ## Indices

That the new constraint is the only one without a place in the old order needs its index to be new.
It is, since indices are given in the order of the calls and reductions leave them alone. -/

/-- Every constraint in the order has an index below the number of constraints. -/
def Indexed (g : ClusterGraph) : Prop := ∀ i ∈ g.order, i < g.constraintCount

/-- **Step.** The constraint that joins gets the next index. -/
theorem Indexed.join (h : g.Indexed) (p : CliquePair) (n : Int) : (g.join p n).Indexed := by
  intro i hi
  rw [constraintCount_join, Nat.cast_add, Nat.cast_one]
  rcases List.mem_append.mp ((order_join_perm g p n).mem_iff.mp hi) with hold | hnew
  · exact (h i hold).trans (lt_add_one _)
  · rw [List.mem_singleton.mp hnew]
    exact lt_add_one _

/-- **Run.** Constraints have their indices in every graph that can be reached; a reduction leaves
the indices as they are. -/
theorem Reachable.indexed (h : g.Reachable K) : g.Indexed := by
  induction h with
  | empty h =>
    unfold ClusterGraph.empty at h
    split at h
    · cases h
    · obtain rfl := Except.ok.inj h
      exact fun i hi => absurd hi List.not_mem_nil
  | add _ h ih =>
    obtain ⟨p, -, -, rfl⟩ := exists_of_add h
    exact ih.join p _
  | @reduce g g' hg h ih =>
    rw [hg.inRange.reduce_eq] at h
    obtain ⟨-, -, rfl⟩ := Outcome.map_eq_ok.mp h
    intro i hi
    refine ih i ?_
    rwa [order, canonical, List.flatMap_map] at hi

/-- The new index occurs once, and without it the order is the old one. -/
theorem Indexed.order_join (h : g.Indexed) (p : CliquePair) (n : Int) :
    (g.join p n).order.count (g.constraintCount : Int) = 1 ∧
      (g.join p n).order.erase g.constraintCount = g.order := by
  have hnew : (g.constraintCount : Int) ∉ g.order := fun hmem => lt_irrefl _ (h _ hmem)
  obtain ⟨before, after, hold, hjoin⟩ := exists_order_join g p n
  have hbefore : (g.constraintCount : Int) ∉ before := fun hmem =>
    hnew (hold ▸ List.mem_append_left _ hmem)
  constructor
  · rw [(order_join_perm g p n).count_eq, List.count_append, List.count_eq_zero.mpr hnew,
      List.count_singleton_self]
  · rw [hjoin, List.erase_append_right _ hbefore, List.erase_cons_head, hold]

/-! ## Extensions -/

/-- A graph that has what another one has at the same places, and further constraints. -/
structure Extends (g g' : ClusterGraph) : Prop where
  cliqueCount : g'.cliqueCount = g.cliqueCount
  constraintCount : g.constraintCount ≤ g'.constraintCount
  clusters : ∀ (j : Nat) c, g.clusters[j]? = some c →
    ∃ d, g'.clusters[j]? = some d ∧ c.Extends d
  /-- the cliques that take part come first among those of the extension, in the same order -/
  scan : g.scan.eraseDups <+: g'.scan.eraseDups
  order : g'.order.filter (· < (g.constraintCount : Int)) = g.order

/-- Every graph extends itself. For the order this needs that no index is out of bounds: otherwise
the old constraints could not be told apart by their indices. -/
theorem Indexed.extends_refl (h : g.Indexed) : g.Extends g where
  cliqueCount := rfl
  constraintCount := le_rfl
  clusters _ c hc := ⟨c, hc, rfl, List.prefix_refl _⟩
  scan := List.prefix_refl _
  order := List.filter_eq_self.mpr fun i hi => decide_eq_true (h i hi)

/-- Extensions of extensions. -/
theorem Extends.trans (h : g.Extends g') (h' : g'.Extends g'') : g.Extends g'' where
  cliqueCount := h'.cliqueCount.trans h.cliqueCount
  constraintCount := h.constraintCount.trans h'.constraintCount
  clusters j c hc := by
    obtain ⟨d, hd, hcd⟩ := h.clusters j c hc
    obtain ⟨e, he, hde⟩ := h'.clusters j d hd
    exact ⟨e, he, hcd.trans hde⟩
  scan := h.scan.trans h'.scan
  order := by
    have hcount := h.constraintCount
    -- what is old in the smaller graph is old in the middle one
    have hold : ∀ i : Int, (decide (i < g.constraintCount) && decide (i < g'.constraintCount)) =
        decide (i < g.constraintCount) := fun i => by
      rw [← Bool.decide_and, decide_eq_decide]
      omega
    calc g''.order.filter (· < (g.constraintCount : Int))
        = (g''.order.filter (· < (g'.constraintCount : Int))).filter
            (· < (g.constraintCount : Int)) := by
          rw [List.filter_filter]
          exact List.filter_congr fun i _ => (hold i).symm
      _ = g.order := by rw [h'.order, h.order]

/-- **Step.** A graph is extended when a constraint joins its pair. -/
theorem Indexed.extends_join (h : g.Indexed) (p : CliquePair) (n : Int) :
    g.Extends (g.join p n) where
  cliqueCount := rfl
  constraintCount := Nat.le_succ _
  clusters _ _ hc := by
    obtain ⟨d, hd, hcliques, hmembers⟩ := exists_cluster_join hc p n
    exact ⟨d, hd, hcliques, hmembers⟩
  scan := by
    rw [eraseDups_scan_join, List.eraseDups_append]
    exact List.prefix_append _ _
  order := by
    obtain ⟨before, after, hold, hjoin⟩ := exists_order_join g p n
    have hall : (before ++ after).filter (· < (g.constraintCount : Int)) = before ++ after :=
      List.filter_eq_self.mpr fun i hi => decide_eq_true (h i (hold ▸ hi))
    rw [hjoin, List.filter_append, List.filter_cons_of_neg (by simp), ← List.filter_append, hall,
      hold]

/-- **Run.** Calls that are made one after the other extend the graph, whether they are accepted or
not. -/
theorem Indexed.extends_addEach (h : g.Indexed) (calls : List Call) :
    g.Extends (g.addEach (K := K) calls).2 := by
  induction calls generalizing g with
  | nil => exact h.extends_refl
  | cons c calls ih =>
    cases hc : c.filing? g.cliqueCount with
    | none =>
      obtain ⟨e, he⟩ := addEach_of_rejected (K := K) hc calls
      rw [he]
      exact ih h
    | some f =>
      rw [addEach_of_filing hc]
      exact (h.extends_join f.pair f.equations).trans (ih (h.join f.pair f.equations))

/-! ## Numbers

Two scans are compared, and not two numberings: the longer scan has the other one in front once its
repetitions are removed, so what was numbered keeps its number and what is new is numbered
behind. -/

/-- A numbering that goes on from another one. -/
structure Continues (q q' : PartialPermutation) : Prop where
  inverse : q.inverse <+: q'.inverse
  number : ∀ x k, q.number? x = some k → q'.number? x = some k

/-- Cliques keep their numbers in a graph that extends another one. -/
theorem Extends.continues (h : g.Extends g') {q q' : PartialPermutation} (hq : q.Valid)
    (hq' : q'.Valid) (hscan : q.inverse.map Int.ofNat = g.scan.eraseDups)
    (hscan' : q'.inverse.map Int.ofNat = g'.scan.eraseDups) : Continues q q' := by
  have hbegins : q.inverse <+: q'.inverse := by
    have hmap := h.scan
    rw [← hscan, ← hscan'] at hmap
    exact (List.prefix_map_iff_of_injective fun _ _ => Int.ofNat.inj).mp hmap
  refine ⟨hbegins, fun x k hx => (hq'.number?_eq_some_iff x k).mpr ?_⟩
  have hk := (hq.number?_eq_some_iff x k).mp hx
  obtain ⟨rest, hrest⟩ := hbegins
  rw [← hrest, List.getElem?_append_left (List.getElem?_eq_some_iff.mp hk).1, hk]

/-- The cliques of the pair that is joined come next, unless they have taken part before. -/
theorem eraseDups_scan_join_eq_append (g : ClusterGraph) (p : CliquePair) (n : Int) :
    (g.join p n).scan.eraseDups =
      g.scan.eraseDups ++ p.cliques.filter (· ∉ g.scan.eraseDups) := by
  have hnew : p.cliques.removeAll g.scan = p.cliques.filter (· ∉ g.scan.eraseDups) := by
    refine List.filter_congr fun x _ => ?_
    simp [List.mem_eraseDups]
  rw [eraseDups_scan_join, List.eraseDups_append, hnew,
    eraseDups_of_nodup (p.nodup_cliques.filter _)]

/-! ## Growth -/

/-- What an addition that answers `i` makes of a graph `g` when the cliques are those of a pair. -/
structure Grows (K : Type) (g g' : ClusterGraph) (p : CliquePair) (i : Nat) : Prop where
  /-- cliques that take part keep their numbers and new ones get the next; whether the table of all
  cliques can be held is up to their number, which stays -/
  participating : ∃ q q', g.participating (K := K) =
      (fun _ => q) <$> PartialPermutation.empty (K := K) g.cliqueCount ∧
    g'.participating (K := K) =
      (fun _ => q') <$> PartialPermutation.empty (K := K) g.cliqueCount ∧
    (g.cliqueCount < Nat.pow 2 33 →
      g.participating (K := K) = .ok q ∧ g'.participating (K := K) = .ok q') ∧
    Continues q q' ∧
    q'.inverse.map Int.ofNat =
      q.inverse.map Int.ofNat ++ p.cliques.filter (· ∉ q.inverse.map Int.ofNat) ∧
    q'.size ≤ q.size + 2
  /-- clusters stay in their places, and at most one comes behind them -/
  clusters : ∃ front back, g'.clusters = front ++ back ∧ back.length ≤ 1 ∧
    List.Forall₂ Cluster.Extends g.clusters front
  /-- the answer is the one constraint that is new in the order -/
  count : g'.order.count (i : Int) = 1
  order : g'.order.erase i = g.order

/-- The clusters of an extension begin with those that are extended. -/
theorem Extends.forall₂_take (h : g.Extends g') :
    List.Forall₂ Cluster.Extends g.clusters (g'.clusters.take g.clusters.length) := by
  have hlength : g.clusters.length ≤ g'.clusters.length := by
    by_contra hlt
    obtain ⟨d, hd, -⟩ := h.clusters _ _ (List.getElem?_eq_getElem (not_le.mp hlt))
    simp at hd
  refine List.forall₂_iff_get.mpr ⟨by rw [List.length_take, min_eq_left hlength], ?_⟩
  intro j hj hj'
  obtain ⟨d, hd, hextends⟩ := h.clusters j _ (List.getElem?_eq_getElem hj)
  obtain ⟨hlt, rfl⟩ := List.getElem?_eq_some_iff.mp hd
  simpa using hextends

/-- At most one cluster is new when a constraint joins its pair. -/
theorem length_clusters_join_le (g : ClusterGraph) (p : CliquePair) (n : Int) :
    (g.join p n).clusters.length ≤ g.clusters.length + 1 := by
  have hlength := congrArg List.length (map_cliques_join g p n)
  rw [List.length_map] at hlength
  rw [hlength]
  split <;> simp

/-- **Growing never renumbers.** Let a call be accepted by a graph that additions and reductions
have led to, and let `p` be the pair that it names. The cliques that have taken part keep their
numbers, and those of `p` that have not get the next ones: they come behind the others, and there
are at most two. Every cluster stays in its place with its pair and its members, and at most one
cluster is new. The order of the constraints, without the one that is added, is the old one. -/
theorem Reachable.grows_of_add (hg : g.Reachable K) {a : CliqueArgument} {i : Nat}
    (h : g.add (K := K) a n = .ok (g', i)) : ∃ p, a.pair? = some p ∧ Grows K g g' p i := by
  have hindex := index_of_add h
  have hg' := hg.add h
  obtain ⟨p, hp, -, rfl⟩ := exists_of_add h
  subst hindex
  have hextends := hg.indexed.extends_join p n
  obtain ⟨hcount, horder⟩ := hg.indexed.order_join p n
  obtain ⟨q, hq, hvalid, -, hscan⟩ := hg.inRange.exists_numbering (K := K)
  obtain ⟨q', hq', hvalid', -, hscan'⟩ := hg'.inRange.exists_numbering (K := K)
  have hcontinues := hextends.continues hvalid hvalid' hscan hscan'
  have hinverse : q'.inverse.map Int.ofNat =
      q.inverse.map Int.ofNat ++ p.cliques.filter (· ∉ q.inverse.map Int.ofNat) := by
    rw [hscan', hscan, eraseDups_scan_join_eq_append]
  refine ⟨p, hp, ?_, ?_, hcount, horder⟩
  -- the numbers, of which at most those of the pair are new
  · have hheld (hn : g.cliqueCount < Nat.pow 2 33) :
        g.participating (K := K) = .ok q ∧ (g.join p n).participating (K := K) = .ok q' :=
      ⟨(participating_eq_numbering hn).trans hq,
        (participating_eq_numbering (g := g.join p n) hn).trans hq'⟩
    refine ⟨q, q', participating_of_numbering hq, participating_of_numbering hq', hheld,
      hcontinues, hinverse, ?_⟩
    have hlength := congrArg List.length hinverse
    have hnew := (List.length_filter_le (· ∉ q.inverse.map Int.ofNat) p.cliques).trans
      p.length_cliques_le
    rw [List.length_append, List.length_map, List.length_map] at hlength
    change q'.inverse.length ≤ q.inverse.length + 2
    omega
  -- the clusters: the old ones in front, at most one behind
  · refine ⟨_, _, (List.take_append_drop g.clusters.length _).symm, ?_, hextends.forall₂_take⟩
    have hlength := length_clusters_join_le g p n
    rw [List.length_drop]
    omega

/-- A graph of five cliques with a constraint of two of them and one of a single clique. -/
def growthSample : ClusterGraph := ⟨5, [⟨⟨1, 4⟩, [0], [2]⟩, ⟨⟨4, 4⟩, [1], [3]⟩], 2, 5⟩

theorem reachable_growthSample : growthSample.Reachable ℚ := by
  have hempty : ClusterGraph.empty (K := ℚ) 5 = .ok (blank 5) := rfl
  have hfirst : (blank 5).add (K := ℚ) (.list [4, 1]) 2 =
      .ok (⟨5, [⟨⟨1, 4⟩, [0], [2]⟩], 1, 2⟩, 0) := rfl
  have hsecond : (⟨5, [⟨⟨1, 4⟩, [0], [2]⟩], 1, 2⟩ : ClusterGraph).add (K := ℚ) (.list [4]) 3 =
      .ok (growthSample, 1) := rfl
  exact ((Reachable.empty hempty).add hfirst).add hsecond

/-- A further constraint of the first pair, whose index comes before an older one in the order, and
a pair that brings a clique and a cluster with it. -/
theorem grows_of_add_sample :
    (∃ g' p, growthSample.add (K := ℚ) (.list [1, 4]) 1 = .ok (g', 2) ∧ g'.order = [0, 2, 1] ∧
      g'.scan.eraseDups = [1, 4] ∧ Grows ℚ growthSample g' p 2 ∧
      ∃ q, g'.participating (K := ℚ) = .ok q ∧ q.inverse = [1, 4]) ∧
    ∃ g' p, growthSample.add (K := ℚ) (.pair ⟨3, 1⟩) 1 = .ok (g', 2) ∧ g'.order = [0, 1, 2] ∧
      g'.scan.eraseDups = [1, 4, 3] ∧ Grows ℚ growthSample g' p 2 ∧
      ∃ q, g'.participating (K := ℚ) = .ok q ∧ q.inverse = [1, 4, 3] := by
  obtain ⟨g₁, h₁, horder₁, hscan₁, hnumbers₁⟩ : ∃ g',
      growthSample.add (K := ℚ) (.list [1, 4]) 1 = .ok (g', 2) ∧
      g'.order = [0, 2, 1] ∧ g'.scan.eraseDups = [1, 4] ∧
      ∃ q, g'.participating (K := ℚ) = .ok q ∧ q.inverse = [1, 4] :=
    ⟨_, rfl, by decide, by decide, _, rfl, rfl⟩
  obtain ⟨g₂, h₂, horder₂, hscan₂, hnumbers₂⟩ : ∃ g',
      growthSample.add (K := ℚ) (.pair ⟨3, 1⟩) 1 = .ok (g', 2) ∧
      g'.order = [0, 1, 2] ∧ g'.scan.eraseDups = [1, 4, 3] ∧
      ∃ q, g'.participating (K := ℚ) = .ok q ∧ q.inverse = [1, 4, 3] :=
    ⟨_, rfl, by decide, by decide, _, rfl, rfl⟩
  obtain ⟨p₁, -, hgrows₁⟩ := reachable_growthSample.grows_of_add h₁
  obtain ⟨p₂, -, hgrows₂⟩ := reachable_growthSample.grows_of_add h₂
  exact ⟨⟨g₁, p₁, h₁, horder₁, hscan₁, hgrows₁, hnumbers₁⟩,
    ⟨g₂, p₂, h₂, horder₂, hscan₂, hgrows₂, hnumbers₂⟩⟩

end ClusterGraph

end ConvexContact
