import Mathlib.Data.List.Perm.Basic
import ConvexContact.Proofs.Outcome
import ConvexContact.Coupling.ClusterGraph
import ConvexContact.Problem

/-!
# What a cluster graph collects

A graph that constraints have been added to holds each of them once: its order lists their indices,
rearranged by cluster, and its scan meets exactly the cliques they couple (`ClusterGraph.Collects`).
An addition keeps this, so it holds of the graph of every problem.

A constraint joins the cluster that is found for its pair or opens one behind the others. The two
cases are told apart by `ClusterGraph.clusterOf?` in every step lemma. In the first the clusters
stay and one of them grows by a member (`order_modify_perm`, `scan_modify`, `map_cliques_modify`),
so the order changes by a rearrangement; in the second everything is appended.

That the cliques of one constraint lie in one cluster does not follow from the scan, which forgets
where a cluster ends. It is an invariant of its own (`ClusterGraph.Covers`).
-/

namespace ConvexContact

variable {K : Type}

/-- The cliques of a pair are those that were named. -/
theorem ClusterGraph.mem_cliques_of_pairOf {l : List Int} {p : CliquePair}
    (h : pairOf (K := K) (.list l) = .ok p) (x : Int) : x ∈ p.cliques ↔ x ∈ l := by
  rcases l with - | ⟨a, - | ⟨b, - | ⟨c, l⟩⟩⟩
  · cases h
  · obtain rfl := Except.ok.inj h
    simp [CliquePair.normalized, CliquePair.cliques, CliquePair.isSelfPair]
  · obtain rfl := Except.ok.inj h
    simp only [CliquePair.normalized, CliquePair.cliques, CliquePair.isSelfPair,
      Option.getD_some, beq_iff_eq]
    split <;> simp only [List.mem_cons, List.not_mem_nil, or_false] <;> omega
  · cases h

namespace ClusterGraph

variable {g g' : ClusterGraph} {p : CliquePair}

/-- The cluster that is found for a pair is a cluster of that pair. The search remembers the last
one it has met, so the induction is over what is left to search, whatever was found before. -/
theorem clusterOf?_eq_some {k : Nat} (h : g.clusterOf? p = some k) :
    ∃ c, g.clusters[k]? = some c ∧ c.cliques = p := by
  have hfold : ∀ (cs : List (Cluster × Nat)) (found : Option Nat),
      cs.foldl (fun found ck => if ck.1.cliques = p then some ck.2 else found) found = some k →
        found = some k ∨ ∃ c, (c, k) ∈ cs ∧ c.cliques = p := by
    intro cs
    induction cs with
    | nil => exact fun found h => Or.inl h
    | cons ck cs ih =>
      intro found h
      rcases ih _ h with hhead | ⟨c, hmem, hc⟩
      -- found in what was searched before, or at the head itself
      · simp only at hhead
        by_cases hck : ck.1.cliques = p
        · rw [if_pos hck] at hhead
          obtain rfl := Option.some.inj hhead
          exact Or.inr ⟨ck.1, by simp, hck⟩
        · rw [if_neg hck] at hhead
          exact Or.inl hhead
      · exact Or.inr ⟨c, List.mem_cons_of_mem _ hmem, hc⟩
  rcases hfold _ _ h with hnone | ⟨c, hmem, hc⟩
  · cases hnone
  · exact ⟨c, List.mem_zipIdx_iff_getElem?.mp hmem, hc⟩

/-- A constraint that joins a cluster appears behind the constraints of that cluster. -/
theorem order_modify_perm (clusters : List Cluster) {k : Nat} (hk : k < clusters.length)
    (i n : Int) :
    ((clusters.modify k (·.add i n)).flatMap (·.members)).Perm
      (clusters.flatMap (·.members) ++ [i]) := by
  induction clusters generalizing k with
  | nil => simp at hk
  | cons c clusters ih =>
    cases k with
    | zero =>
      simp only [List.modify_zero_cons, List.flatMap_cons, Cluster.add, List.append_assoc]
      exact List.Perm.append_left _ List.perm_append_comm
    | succ k =>
      simp only [List.modify_succ_cons, List.flatMap_cons, List.append_assoc]
      exact List.Perm.append_left _ (ih (by simpa using hk))

/-- A constraint that joins a cluster does not change the pairs. -/
theorem scan_modify (clusters : List Cluster) (k : Nat) (i n : Int) :
    (clusters.modify k (·.add i n)).flatMap (·.cliques.cliques) =
      clusters.flatMap (·.cliques.cliques) := by
  induction clusters generalizing k with
  | nil => simp
  | cons c clusters ih =>
    cases k with
    | zero => simp [Cluster.add]
    | succ k => simp [ih]

/-- An addition joins the pair that is named. -/
theorem add_eq_ok {l : List Int} {n : Int} {i : Nat}
    (hadd : g.add (K := K) (.list l) n = .ok (g', i)) :
    ∃ p, pairOf (K := K) (.list l) = .ok p ∧ g' = g.join p n := by
  obtain ⟨p, hp, hadd⟩ := Outcome.bind_eq_ok.mp hadd
  split at hadd
  · cases hadd
  obtain ⟨p', hp', hp⟩ := Outcome.bind_eq_ok.mp hp
  obtain ⟨-, -, hp⟩ := Outcome.bind_eq_ok.mp hp
  obtain ⟨-, -, hp⟩ := Outcome.bind_eq_ok.mp hp
  obtain rfl := Outcome.pure_eq_ok.mp hp
  exact ⟨p', hp', (Prod.mk.inj (Outcome.pure_eq_ok.mp hadd)).1.symm⟩

/-- One or two cliques of the graph can be added with any number of equations: the pair is made of
the cliques that are named, so both of its entries are in range. -/
theorem exists_add {l : List Int} {n : Int} (hl : l.length = 1 ∨ l.length = 2)
    (hrange : ∀ x ∈ l, 0 ≤ x ∧ x < g.cliqueCount) (hn : 0 < n) :
    ∃ answer, g.add (K := K) (.list l) n = .ok answer := by
  obtain ⟨p, hp, hfirst, hsecond⟩ :
      ∃ p, pairOf (K := K) (.list l) = .ok p ∧ p.first ∈ l ∧ p.second ∈ l := by
    rcases l with - | ⟨a, - | ⟨b, - | ⟨c, l⟩⟩⟩
    · simp at hl
    · exact ⟨_, rfl, by simp [CliquePair.normalized], by simp [CliquePair.normalized]⟩
    · refine ⟨_, rfl, ?_, ?_⟩ <;>
        simp only [CliquePair.normalized, Option.getD_some, List.mem_cons, List.not_mem_nil,
          or_false] <;> omega
    · simp at hl
  have hread : g.readPair (K := K) (.list l) = .ok p := by
    change (pairOf (.list l) >>= fun p => g.checkClique p.first >>= fun _ =>
      g.checkClique p.second >>= fun _ => pure p) = _
    rw [hp, Outcome.bind_of_ok _ rfl,
      Outcome.bind_of_ok _ (checkClique_eq_ok_iff.mpr (hrange _ hfirst)),
      Outcome.bind_of_ok _ (checkClique_eq_ok_iff.mpr (hrange _ hsecond))]
    rfl
  rw [add, Outcome.bind_of_ok _ hread, if_neg (by omega)]
  exact ⟨_, rfl⟩

/-- The order after a constraint has joined its pair. -/
theorem order_join_perm (g : ClusterGraph) (p : CliquePair) (n : Int) :
    (g.join p n).order.Perm (g.order ++ [(g.constraintCount : Int)]) := by
  cases hk : g.clusterOf? p with
  | none =>
    have horder : (g.join p n).order = g.order ++ [(g.constraintCount : Int)] := by
      simp [ClusterGraph.order, join, hk, Cluster.add, Cluster.empty]
    rw [horder]
  | some k =>
    obtain ⟨c, hc, -⟩ := clusterOf?_eq_some hk
    have horder : (g.join p n).order =
        (g.clusters.modify k (·.add g.constraintCount n)).flatMap (·.members) := by
      simp [ClusterGraph.order, join, hk]
    rw [horder]
    exact order_modify_perm g.clusters (List.getElem?_eq_some_iff.mp hc).1 _ n

/-- A graph that holds the constraints with the given cliques. -/
structure Collects (g : ClusterGraph) (calls : List (List Int)) : Prop where
  count : g.constraintCount = calls.length
  /-- the order lists every index once -/
  order : g.order.Perm ((List.range calls.length).map Int.ofNat)
  /-- the scan meets the cliques that are coupled -/
  mem_scan : ∀ x, x ∈ g.scan ↔ ∃ l ∈ calls, x ∈ l

/-- A graph without constraints. -/
theorem collects_blank (n : Nat) : (blank n).Collects [] where
  count := rfl
  order := List.Perm.refl []
  mem_scan x := by simp [scan, blank]

/-- **Step.** An addition is collected. -/
theorem Collects.add {calls : List (List Int)} (h : g.Collects calls) {l : List Int} {n : Int}
    {i : Nat} (hadd : g.add (K := K) (.list l) n = .ok (g', i)) :
    g'.Collects (calls ++ [l]) ∧ g'.cliqueCount = g.cliqueCount := by
  obtain ⟨p, hpair, rfl⟩ := add_eq_ok hadd
  have hrange : (List.range (calls ++ [l]).length).map Int.ofNat =
      (List.range calls.length).map Int.ofNat ++ [(g.constraintCount : Int)] := by
    rw [List.length_append, List.length_singleton, List.range_succ, List.map_append, h.count]
    rfl
  refine ⟨⟨?_, ?_, ?_⟩, rfl⟩
  · rw [constraintCount_join, h.count, List.length_append, List.length_singleton]
  · rw [hrange]
    exact (order_join_perm g p n).trans (h.order.append_right _)
  · intro x
    have hnew : (∃ l' ∈ calls ++ [l], x ∈ l') ↔ x ∈ g.scan ∨ x ∈ p.cliques := by
      rw [h.mem_scan, mem_cliques_of_pairOf hpair]
      simp [or_and_right, exists_or]
    rw [hnew]
    cases hk : g.clusterOf? p with
    -- a cluster is opened, and the scan goes on with its cliques
    | none =>
      have hscan : (g.join p n).scan = g.scan ++ p.cliques := by
        simp [scan, join, hk, Cluster.add, Cluster.empty]
      rw [hscan, List.mem_append]
    -- the pair has been there before, so the scan has met its cliques
    | some k =>
      have hscan : (g.join p n).scan = g.scan := by
        simp only [scan, join, hk]
        exact scan_modify _ _ _ _
      obtain ⟨c, hc, rfl⟩ := clusterOf?_eq_some hk
      rw [hscan]
      refine ⟨Or.inl, ?_⟩
      rintro (hx | hx)
      · exact hx
      · exact List.mem_flatMap.mpr ⟨c, List.mem_of_getElem? hc, hx⟩

/-- The cliques of each constraint lie together in a cluster. -/
def Covers (g : ClusterGraph) (calls : List (List Int)) : Prop :=
  ∀ l ∈ calls, ∃ p ∈ g.clusters.map (·.cliques), ∀ x ∈ l, x ∈ p.cliques

/-- A constraint that joins a cluster keeps the pairs of all clusters. -/
theorem map_cliques_modify (clusters : List Cluster) (k : Nat) (i n : Int) :
    (clusters.modify k (·.add i n)).map (·.cliques) = clusters.map (·.cliques) := by
  induction clusters generalizing k with
  | nil => simp
  | cons c clusters ih =>
    cases k with
    | zero => simp [Cluster.add]
    | succ k => simp [ih]

/-- **Step.** An addition is covered. -/
theorem Covers.add {calls : List (List Int)} (h : g.Covers calls) {l : List Int} {n : Int}
    {i : Nat} (hadd : g.add (K := K) (.list l) n = .ok (g', i)) : g'.Covers (calls ++ [l]) := by
  obtain ⟨p, hpair, rfl⟩ := add_eq_ok hadd
  -- no pair is lost, and the new one is there
  have hpairs : ∀ q, q ∈ g.clusters.map (·.cliques) ∨ q = p →
      q ∈ (g.join p n).clusters.map (·.cliques) := by
    intro q hq
    simp only [join]
    cases hk : g.clusterOf? p with
    | none => simpa [Cluster.add, Cluster.empty] using hq
    | some k =>
      obtain ⟨c, hc, hcp⟩ := clusterOf?_eq_some hk
      rw [map_cliques_modify]
      rcases hq with hq | rfl
      · exact hq
      · exact List.mem_map.mpr ⟨c, List.mem_of_getElem? hc, hcp⟩
  intro l' hl'
  rcases List.mem_append.mp hl' with hl' | hl'
  -- an earlier constraint keeps its pair, the new one has its own
  · obtain ⟨q, hq, hx⟩ := h l' hl'
    exact ⟨q, hpairs q (Or.inl hq), hx⟩
  · obtain rfl := List.mem_singleton.mp hl'
    exact ⟨p, hpairs p (Or.inr rfl), fun x hx => (mem_cliques_of_pairOf hpair x).mpr hx⟩

end ClusterGraph

/-- **Run.** The graph of a problem collects the constraints of the problem. -/
theorem ContactProblem.collects_graph {p : ContactProblem K} {g : ClusterGraph}
    (h : p.graph = .ok g) :
    g.Collects (p.constraints.map fun c => c.cliques.map Int.ofNat) ∧
      g.cliqueCount = p.cliqueCount := by
  refine Outcome.foldlM_induction (fun done g =>
    g.Collects (done.map fun c => c.cliques.map Int.ofNat) ∧ g.cliqueCount = p.cliqueCount)
    ⟨ClusterGraph.collects_blank _, rfl⟩ ?_ h
  rintro done c g₁ g₂ - ⟨hcollects, hcount⟩ hstep
  obtain ⟨⟨g₃, i⟩, hadd, rfl⟩ := Outcome.map_eq_ok.mp hstep
  obtain ⟨hcollects', hcount'⟩ := hcollects.add hadd
  refine ⟨?_, hcount'.trans hcount⟩
  rw [List.map_append]
  exact hcollects'

/-- **Run.** The graph of a problem covers the constraints of the problem. -/
theorem ContactProblem.covers_graph {p : ContactProblem K} {g : ClusterGraph}
    (h : p.graph = .ok g) : g.Covers (p.constraints.map fun c => c.cliques.map Int.ofNat) := by
  refine Outcome.foldlM_induction (fun done g =>
    g.Covers (done.map fun c => c.cliques.map Int.ofNat)) ?_ ?_ h
  · intro l hl
    cases hl
  · rintro done c g₁ g₂ - hcovers hstep
    obtain ⟨⟨g₃, i⟩, hadd, rfl⟩ := Outcome.map_eq_ok.mp hstep
    rw [List.map_append]
    exact hcovers.add hadd

end ConvexContact
