import Mathlib.Data.List.GetD
import Mathlib.Data.List.Lattice
import Mathlib.Data.Rat.Init
import ConvexContact.Proofs.Coupling.Renumbering
import ConvexContact.Proofs.Index.Pick

/-!
# Graphs in place

In place the clusters of a graph are cells of a store, which other graphs may share. A `StoredGraph`
has the addresses of its cells, and a table of the places of pairs, of which what was entered last
counts. Additions change cells of the graph and reductions copy them, so a graph and what it is
reduced to have no cell in common.

`StoredGraph.Represents` relates a stored graph to its value. Additions and reductions in place are
those on values (`StoredGraph.Represents.exists_add`, `StoredGraph.Represents.exists_reduce`), and
they leave graphs alone that have no cells in common with the one they are made on.

Proof shape: whatever is done in place is one of two things, a cluster is kept in a new cell or the
cluster of one cell gets a constraint (`Represents.enter`, `Represents.modify`). Next to what it
does to the value, each of the two is known by what it does to the store (`Grows`): cells of others
stay, and further cells are new. `Grows` composes, and from it alone follows the frame
(`Represents.of_grows`). So the two graphs after a reduction can be used by turns, and neither is
seen to change by a user of the other. Main statement: `StoredGraph.reduction_is_canonical`.
-/

namespace ConvexContact

namespace ClusterGraph

/-! ## The place of a pair

On values the place of a pair is searched for among the clusters. In place it is looked up in a
table, where an entry is added for each new cluster. These lemmas let the two be compared. -/

variable {g g' : ClusterGraph}

/-- The place of a pair depends on the pairs of the clusters only. -/
theorem clusterOf?_congr (h : g'.clusters.map (·.cliques) = g.clusters.map (·.cliques))
    (p : CliquePair) : g'.clusterOf? p = g.clusterOf? p := by
  have hpairs : ∀ g : ClusterGraph, g.clusterOf? p =
      (g.clusters.map (·.cliques)).zipIdx.foldl
        (fun found (q, k) => if q = p then some k else found) none := by
    intro g
    rw [clusterOf?, List.zipIdx_map, List.foldl_map]
    rfl
  rw [hpairs, hpairs, h]

/-- A further cluster is the last one of its pair. -/
theorem clusterOf?_append (g : ClusterGraph) (c : Cluster) (p : CliquePair) :
    clusterOf? { g with clusters := g.clusters ++ [c] } p =
      if c.cliques = p then some g.clusters.length else g.clusterOf? p := by
  simp only [clusterOf?, List.zipIdx_append, List.foldl_append]
  simp

/-- A graph with a cluster for a pair, where there was none. -/
def withPlace (g : ClusterGraph) (p : CliquePair) : ClusterGraph :=
  { g with clusters := match g.clusterOf? p with
      | some _ => g.clusters
      | none => g.clusters ++ [Cluster.empty p] }

/-- A constraint joins its pair by changing the cluster at the place of the pair. -/
theorem join_eq_withPlace (g : ClusterGraph) (p : CliquePair) (n : Int) :
    g.join p n =
      { withPlace g p with
        clusters := (withPlace g p).clusters.modify
          ((g.clusterOf? p).getD g.clusters.length) (·.add g.constraintCount n)
        constraintCount := g.constraintCount + 1
        equationCount := g.equationCount + n } := by
  cases hk : g.clusterOf? p with
  | some k => simp [join, withPlace, hk]
  | none => simp [join, withPlace, hk, modify_length_append]

end ClusterGraph

open ClusterGraph

/-- A graph whose clusters are kept in a store. -/
structure StoredGraph where
  cliqueCount : Nat
  /-- the cells of its clusters, in order -/
  addresses : List Nat
  /-- the places of pairs among the clusters, the last entry first -/
  table : List (CliquePair × Nat)
  constraintCount : Nat
  equationCount : Int

namespace StoredGraph

variable {K : Type}

/-! ## Operations

The operations in place. They run on a store of clusters, and keep what they have changed there when
a later step fails. -/

/-- The graph that is stored. -/
def read (o : StoredGraph) (s : List Cluster) : ClusterGraph where
  cliqueCount := o.cliqueCount
  clusters := o.addresses.filterMap (s[·]?)
  constraintCount := o.constraintCount
  equationCount := o.equationCount

/-- The graph with a further cluster, which is kept at an address. -/
def entered (o : StoredGraph) (address : Nat) (c : Cluster) : StoredGraph :=
  { o with
    addresses := o.addresses ++ [address]
    table := (c.cliques, o.addresses.length) :: o.table }

/-- Keeps a further cluster in a new cell. -/
def enter (o : StoredGraph) (c : Cluster) :
    ExceptT (Error K) (StateM (List Cluster)) StoredGraph := do
  let s ← get
  modify (· ++ [c])
  return o.entered s.length c

/-- Finds the place of a pair, for which a cluster is kept if it has none. -/
def place (o : StoredGraph) (p : CliquePair) :
    ExceptT (Error K) (StateM (List Cluster)) (StoredGraph × Nat) := do
  match o.table.lookup p with
  | some k => return (o, k)
  | none =>
    let o' ← o.enter (Cluster.empty p)
    return (o', o.addresses.length)

/-- Adds a constraint, and answers with its index. -/
def add (o : StoredGraph) (cliques : CliqueArgument) (equations : Int) :
    ExceptT (Error K) (StateM (List Cluster)) (StoredGraph × Nat) := do
  let p ← ExceptT.mk (pure ((ClusterGraph.blank o.cliqueCount).readPair cliques))
  if equations ≤ 0 then ExceptT.mk (pure (.error (.equationCount equations)))
  else
    let (o, k) ← o.place p
    modify fun s => s.modify (o.addresses.getD k 0) (·.add o.constraintCount equations)
    return ({ o with
      constraintCount := o.constraintCount + 1
      equationCount := o.equationCount + equations }, o.constraintCount)

/-- What calls answer that are made one after the other, and what they leave. -/
def addEach (o : StoredGraph) (s : List Cluster) :
    List Call → List (Except (Error K) Nat) × StoredGraph × List Cluster
  | [] => ([], o, s)
  | c :: cs =>
    match (o.add c.cliques c.equations).run.run s with
    | (.ok (o', i), s') => (.ok i :: (o'.addEach s' cs).1, (o'.addEach s' cs).2)
    | (.error e, s') => (.error e :: (o.addEach s' cs).1, (o.addEach s' cs).2)

/-- Copies the cluster of a cell onto the numbers of its cliques. -/
def copy (q : PartialPermutation) (o : StoredGraph) (address : Nat) :
    ExceptT (Error K) (StateM (List Cluster)) StoredGraph := do
  let s ← get
  let c ← ExceptT.mk (pure (renumber q (s.getD address (Cluster.empty ⟨0, 0⟩))))
  o.enter c

/-- Copies the graph onto the cliques that take part. -/
def reduce (o : StoredGraph) : ExceptT (Error K) (StateM (List Cluster)) StoredGraph := do
  let s ← get
  let q ← ExceptT.mk (pure (o.read s).participating)
  o.addresses.foldlM (copy q)
    { cliqueCount := q.size
      addresses := []
      table := []
      constraintCount := o.constraintCount
      equationCount := o.equationCount }

/-! ## What is stored

`Represents` is about one graph and the cells that are its own. `Grows` is about the store, and says
what a call may do to cells of others. The two are kept apart so that the frame follows from the
second alone. -/

/-- A stored graph and its value. -/
structure Represents (s : List Cluster) (o : StoredGraph) (g : ClusterGraph) : Prop where
  cliqueCount : o.cliqueCount = g.cliqueCount
  constraintCount : o.constraintCount = g.constraintCount
  equationCount : o.equationCount = g.equationCount
  clusters : o.addresses.map (s[·]?) = g.clusters.map some
  nodup : o.addresses.Nodup
  table : ∀ p, o.table.lookup p = g.clusterOf? p

variable {s s' : List Cluster} {o o' : StoredGraph} {g g' : ClusterGraph}

/-- The addresses of a stored graph are those of cells. -/
theorem Represents.lt_length (h : Represents s o g) : ∀ a ∈ o.addresses, a < s.length := by
  intro a ha
  have hmem : s[a]? ∈ g.clusters.map some := h.clusters ▸ List.mem_map_of_mem ha
  obtain ⟨c, -, hc⟩ := List.mem_map.mp hmem
  exact (List.getElem?_eq_some_iff.mp hc.symm).1

/-- There is one address for each cluster. -/
theorem Represents.length_addresses (h : Represents s o g) :
    o.addresses.length = g.clusters.length := by
  simpa using congrArg List.length h.clusters

/-- What is read off the cells of a stored graph is its value. -/
theorem Represents.read_eq (h : Represents s o g) : o.read s = g := by
  have hclusters : o.addresses.filterMap (s[·]?) = g.clusters := by
    have hmap := congrArg (List.filterMap id) h.clusters
    simpa [List.filterMap_map] using hmap
  rw [read, h.cliqueCount, h.constraintCount, h.equationCount, hclusters]

/-- Cells of other graphs do not matter. -/
theorem Represents.frame (h : Represents s o g) (hs : ∀ a ∈ o.addresses, s'[a]? = s[a]?) :
    Represents s' o g :=
  { h with clusters := (List.map_congr_left hs).trans h.clusters }

/-- Further cells do not matter, as they come behind the others. -/
theorem Represents.of_extends (h : Represents s o g) (hs : s <+: s') : Represents s' o g := by
  obtain ⟨t, rfl⟩ := hs
  exact h.frame fun a ha => List.getElem?_append_left (h.lt_length a ha)

/-- A cluster in a new cell comes last. -/
theorem Represents.enter (h : Represents s o g) (c : Cluster) :
    Represents (s ++ [c]) (o.entered s.length c) { g with clusters := g.clusters ++ [c] } where
  cliqueCount := h.cliqueCount
  constraintCount := h.constraintCount
  equationCount := h.equationCount
  clusters := by
    have hold := (h.of_extends (List.prefix_append s [c])).clusters
    simp [entered, hold]
  nodup := by
    refine List.nodup_append.mpr ⟨h.nodup, List.nodup_singleton _, fun a ha b hb => ?_⟩
    rw [List.mem_singleton.mp hb]
    exact Nat.ne_of_lt (h.lt_length a ha)
  table p := by
    rw [clusterOf?_append, entered, List.lookup_cons, h.length_addresses, h.table]
    -- the table is searched from its last entry, the clusters are searched for the last one
    by_cases hp : c.cliques = p
    · simp [hp]
    · have hp' : (p == c.cliques) = false := beq_false_of_ne (Ne.symm hp)
      rw [hp', if_neg hp]

/-- A constraint is added to a cluster in its cell, and in no other one. -/
theorem Represents.modify (h : Represents s o g) {k : Nat} (hk : k < o.addresses.length)
    (i n : Int) : Represents (s.modify (o.addresses.getD k 0) (·.add i n)) o
      { g with clusters := g.clusters.modify k (·.add i n) } where
  cliqueCount := h.cliqueCount
  constraintCount := h.constraintCount
  equationCount := h.equationCount
  clusters := by
    refine List.ext_getElem? fun j => ?_
    have hj := congrArg (·[j]?) h.clusters
    simp only [List.getElem?_map, List.getElem?_modify] at hj ⊢
    cases ha : o.addresses[j]? with
    | none =>
      rw [ha] at hj
      have hnone : g.clusters[j]? = none := by simpa using hj.symm
      simp [hnone]
    | some a =>
      -- the cell at address `a` is the one that changes just when its place is `k`
      have hplace : o.addresses.getD k 0 = a ↔ k = j := by
        obtain ⟨hjlt, rfl⟩ := List.getElem?_eq_some_iff.mp ha
        rw [List.getD_eq_getElem _ _ hk]
        exact h.nodup.getElem_inj_iff
      rw [ha, Option.map_some] at hj
      cases hc : g.clusters[j]? with
      | none => simp [hc] at hj
      | some c =>
        rw [hc, Option.map_some] at hj
        simp only [Option.map_some, Option.some.inj hj, hplace]
        rfl
  nodup := h.nodup
  table p := (h.table p).trans (clusterOf?_congr (map_cliques_modify g.clusters k i n).symm p)

/-- How a call on a graph changes the store: cells that are not the graph's own stay as they are,
and its further cells are new. -/
structure Grows (s : List Cluster) (o : StoredGraph) (s' : List Cluster) (o' : StoredGraph) :
    Prop where
  length : s.length ≤ s'.length
  cells : ∀ a < s.length, a ∉ o.addresses → s'[a]? = s[a]?
  addresses : ∀ a ∈ o'.addresses, a ∈ o.addresses ∨ s.length ≤ a

/-- Nothing has to change. -/
theorem Grows.refl (s : List Cluster) (o : StoredGraph) : Grows s o s o :=
  ⟨Nat.le_refl _, fun _ _ _ => rfl, fun _ ha => Or.inl ha⟩

/-- Two changes in sequence. A cell that was not the graph's own before the first change is not its
own before the second, since whatever the first one took on was new. -/
theorem Grows.trans {s'' : List Cluster} {o'' : StoredGraph} (h : Grows s o s' o')
    (h' : Grows s' o' s'' o'') : Grows s o s'' o'' where
  length := h.length.trans h'.length
  cells a ha hnew := by
    have hnew' : a ∉ o'.addresses := fun hmem =>
      (h.addresses a hmem).elim hnew fun hle => absurd ha (Nat.not_lt.mpr hle)
    rw [h'.cells a (ha.trans_le h.length) hnew', h.cells a ha hnew]
  addresses a ha := by
    rcases h'.addresses a ha with ha | ha
    · exact h.addresses a ha
    · exact Or.inr (h.length.trans ha)

/-- A cluster in a new cell changes no other cell. -/
theorem Grows.enter (s : List Cluster) (o : StoredGraph) (c : Cluster) :
    Grows s o (s ++ [c]) (o.entered s.length c) where
  length := by simp
  cells a ha _ := List.getElem?_append_left ha
  addresses a ha := by
    rcases List.mem_append.mp ha with ha | ha
    · exact Or.inl ha
    · exact Or.inr (List.mem_singleton.mp ha).ge

/-- Only a cell of the graph itself is changed. -/
theorem Grows.modify (s : List Cluster) {o o' : StoredGraph} {a : Nat} (ha : a ∈ o.addresses)
    (f : Cluster → Cluster) (ho : o'.addresses = o.addresses) : Grows s o (s.modify a f) o' where
  length := (List.length_modify ..).ge
  cells b _ hb := by
    exact List.getElem?_modify_ne f _ fun hab => hb (hab ▸ ha)
  addresses b hb := Or.inl (ho ▸ hb)

/-- **Frame.** A graph that has no cell in common with the one that is changed stays as it is, and
has none in common with what that has become. -/
theorem Represents.of_grows (h : Represents s o g) {c c' : StoredGraph} (hgrows : Grows s c s' c')
    (hdisjoint : o.addresses.Disjoint c.addresses) :
    Represents s' o g ∧ o.addresses.Disjoint c'.addresses := by
  refine ⟨h.frame fun a ha => hgrows.cells a (h.lt_length a ha) (hdisjoint ha), ?_⟩
  intro a ha hmem
  rcases hgrows.addresses a hmem with hmem | hle
  · exact hdisjoint ha hmem
  · exact absurd (h.lt_length a ha) (Nat.not_lt.mpr hle)

/-! ## Additions

An addition in place takes two steps at most, a new cell and a change of one cell. That it is
refused can only be found out before the first of them. -/

/-- Asking for the place of a pair gives the pair a place. -/
theorem Represents.run_place (h : Represents s o g) (p : CliquePair) :
    ∃ o' s', (o.place (K := K) p).run.run s =
        (.ok (o', (g.clusterOf? p).getD g.clusters.length), s') ∧
      Represents s' o' (withPlace g p) ∧ Grows s o s' o' ∧
      (g.clusterOf? p).getD g.clusters.length < o'.addresses.length := by
  rw [place, h.table]
  cases hk : g.clusterOf? p with
  -- the table knows the pair, and nothing changes
  | some k =>
    have hplace : withPlace g p = g := by simp [withPlace, hk]
    obtain ⟨c, hc, -⟩ := clusterOf?_eq_some hk
    have hlt : k < o.addresses.length := by
      rw [h.length_addresses]
      exact (List.getElem?_eq_some_iff.mp hc).1
    exact ⟨o, s, rfl, by rwa [hplace], Grows.refl s o, hlt⟩
  -- a cluster of the pair is entered, behind all others
  | none =>
    have hplace : withPlace g p = { g with clusters := g.clusters ++ [Cluster.empty p] } := by
      simp [withPlace, hk]
    refine ⟨o.entered s.length (Cluster.empty p), s ++ [Cluster.empty p], ?_,
      by rw [hplace]; exact h.enter _, Grows.enter s o _, ?_⟩
    · rw [h.length_addresses]
      rfl
    · simp [entered, h.length_addresses]

/-- Pairs are read by the number of cliques alone. -/
theorem Represents.readPair_eq (h : Represents s o g) (cliques : CliqueArgument) :
    (ClusterGraph.blank o.cliqueCount).readPair (K := K) cliques = g.readPair cliques := by
  rw [h.cliqueCount]
  rfl

/-- **Step.** An addition that is accepted on values is accepted in place. -/
theorem Represents.exists_add (h : Represents s o g) {cliques : CliqueArgument} {n : Int} {i : Nat}
    (hadd : g.add (K := K) cliques n = .ok (g', i)) :
    ∃ o' s', (o.add (K := K) cliques n).run.run s = (.ok (o', i), s') ∧
      Represents s' o' g' ∧ Grows s o s' o' := by
  obtain ⟨p, hp, hadd⟩ := Outcome.bind_eq_ok.mp hadd
  rw [← h.readPair_eq] at hp
  split at hadd
  · cases hadd
  · rename_i hn
    obtain ⟨rfl, rfl⟩ := Prod.mk.inj (Outcome.pure_eq_ok.mp hadd)
    obtain ⟨o', s', hrun, hplace, hgrows, hlt⟩ := h.run_place (K := K) p
    have hcount : o'.constraintCount = g.constraintCount := hplace.constraintCount
    have hequations : o'.equationCount = g.equationCount := hplace.equationCount
    have hchange := hplace.modify hlt g.constraintCount n
    rw [add]
    simp only [Outcome.run_bind, Outcome.run_check, hp, if_neg hn, hrun, Outcome.run_modify, hcount,
      hequations]
    refine ⟨_, _, rfl, ?_, hgrows.trans (Grows.modify s' ?_ _ rfl)⟩
    · rw [join_eq_withPlace]
      exact { hchange with constraintCount := rfl, equationCount := rfl }
    · rw [List.getD_eq_getElem _ _ hlt]
      exact List.getElem_mem hlt

/-- **Step.** An addition that is rejected on values is rejected in place, and changes nothing. -/
theorem Represents.run_add_of_error (h : Represents s o g) {cliques : CliqueArgument} {n : Int}
    {e : Error K} (hadd : g.add cliques n = .error e) :
    (o.add (K := K) cliques n).run.run s = (.error e, s) := by
  rw [ClusterGraph.add, ← h.readPair_eq] at hadd
  rw [add]
  simp only [Outcome.run_bind, Outcome.run_check]
  cases hp : (ClusterGraph.blank o.cliqueCount).readPair (K := K) cliques with
  | error e' =>
    rw [hp] at hadd
    obtain rfl := Except.error.inj hadd
    rfl
  | ok p =>
    rw [Outcome.bind_of_ok _ hp] at hadd
    split at hadd
    · rename_i hn
      obtain rfl := Except.error.inj hadd
      simp only [if_pos hn, Outcome.run_check]
    · cases hadd

/-- **Run.** Any number of calls answer in place as they do on values. -/
theorem Represents.exists_addEach (h : Represents s o g) (calls : List Call) :
    ∃ o' s', o.addEach (K := K) s calls = ((g.addEach (K := K) calls).1, o', s') ∧
      Represents s' o' (g.addEach (K := K) calls).2 ∧ Grows s o s' o' := by
  induction calls generalizing s o g with
  | nil => exact ⟨o, s, rfl, h, Grows.refl s o⟩
  | cons c calls ih =>
    rcases hadd : g.add (K := K) c.cliques c.equations with e | ⟨g', i⟩
    · obtain ⟨o', s', hcalls, hrepr, hgrows⟩ := ih h
      simp only [ClusterGraph.addEach, addEach, hadd, h.run_add_of_error hadd]
      exact ⟨o', s', by rw [hcalls], hrepr, hgrows⟩
    · obtain ⟨o₁, s₁, hrun, h₁, hgrows₁⟩ := h.exists_add hadd
      obtain ⟨o', s', hcalls, hrepr, hgrows⟩ := ih h₁
      simp only [ClusterGraph.addEach, addEach, hadd, hrun]
      exact ⟨o', s', by rw [hcalls], hrepr, hgrows₁.trans hgrows⟩

/-! ## Reductions

The new cells come behind all others and the old ones are read only, so the copies can be described
one after the other, by induction on the addresses. -/

/-- **Step.** A cell is copied to a new one. -/
theorem run_copy {q : PartialPermutation} {a : Nat} {c d : Cluster} (hs : s[a]? = some c)
    (hd : renumber (K := K) q c = .ok d) :
    (copy (K := K) q o a).run.run s = (.ok (o.entered s.length d), s ++ [d]) := by
  rw [copy]
  simp only [Outcome.run_bind, Outcome.run_get, Outcome.run_check, List.getD_eq_getElem?_getD, hs,
    Option.getD_some, hd]
  rfl

/-- **Run.** Cells that are copied one after the other come last, in new cells. -/
theorem exists_copies {q : PartialPermutation} {as : List Nat} {ds : List Cluster}
    {s₀ : List Cluster}
    (hcopies : List.Forall₂ (fun a d => ∃ c, s₀[a]? = some c ∧ renumber (K := K) q c = .ok d) as ds)
    (hs : s₀ <+: s) (h : Represents s o g) :
    ∃ o' s', (as.foldlM (copy (K := K) q) o).run.run s = (.ok o', s') ∧
      Represents s' o' { g with clusters := g.clusters ++ ds } ∧ s <+: s' ∧
      ∀ a ∈ o'.addresses, a ∈ o.addresses ∨ s.length ≤ a := by
  induction hcopies generalizing s o g with
  | nil => exact ⟨o, s, rfl, by rwa [List.append_nil], List.prefix_refl s, fun _ ha => Or.inl ha⟩
  | @cons a d as ds hcopy _ ih =>
    obtain ⟨c, hc, hd⟩ := hcopy
    -- what has been copied so far stands behind the cell
    have hcell : s[a]? = some c := by
      obtain ⟨t, rfl⟩ := hs
      rw [List.getElem?_append_left (List.getElem?_eq_some_iff.mp hc).1, hc]
    obtain ⟨o', s', hrun, hrepr, hextends, hnew⟩ :=
      ih (hs.trans (List.prefix_append s [d])) (h.enter d)
    refine ⟨o', s', ?_, ?_, (List.prefix_append s [d]).trans hextends, fun b hb => ?_⟩
    · rw [List.foldlM_cons, Outcome.run_bind, run_copy hcell hd]
      exact hrun
    · rwa [List.append_assoc] at hrepr
    · rcases hnew b hb with hb | hb
      · exact (Grows.enter s o d).addresses b hb
      · rw [List.length_append] at hb
        exact Or.inr (by omega)

/-- **Reduction.** What is reduced in place is what is reduced on values, in cells of its own; the
cells that were there stay as they are. -/
theorem Represents.exists_reduce (h : Represents s o g) (hreduce : g.reduce (K := K) = .ok g') :
    ∃ o' s', (o.reduce (K := K)).run.run s = (.ok o', s') ∧ Represents s' o' g' ∧ s <+: s' ∧
      ∀ a ∈ o'.addresses, s.length ≤ a := by
  obtain ⟨q, hq, hreduce⟩ := Outcome.bind_eq_ok.mp hreduce
  obtain ⟨ds, hds, hreduce⟩ := Outcome.bind_eq_ok.mp hreduce
  obtain rfl := Outcome.pure_eq_ok.mp hreduce
  have hcopies : List.Forall₂ (fun x d => ∃ c, x = some c ∧ renumber (K := K) q c = .ok d)
      (g.clusters.map some) ds :=
    List.forall₂_map_left_iff.mpr ((Outcome.mapM_eq_ok.mp hds).imp fun c _ hd => ⟨c, rfl, hd⟩)
  rw [← h.clusters, List.forall₂_map_left_iff] at hcopies
  have hblank : Represents s
      { cliqueCount := q.size
        addresses := []
        table := []
        constraintCount := o.constraintCount
        equationCount := o.equationCount }
      { g with cliqueCount := q.size, clusters := [] } :=
    { cliqueCount := rfl
      constraintCount := h.constraintCount
      equationCount := h.equationCount
      clusters := rfl
      nodup := List.nodup_nil
      table := fun _ => rfl }
  obtain ⟨o', s', hrun, hrepr, hextends, hnew⟩ := exists_copies hcopies (List.prefix_refl s) hblank
  refine ⟨o', s', ?_, hrepr, hextends, fun a ha => (hnew a ha).resolve_left List.not_mem_nil⟩
  rw [reduce]
  simp only [Outcome.run_bind, Outcome.run_get, Outcome.run_check, h.read_eq, hq]
  exact hrun

/-- A reduction whose cliques cannot be numbered fails, and changes nothing. -/
theorem Represents.run_reduce_of_error (h : Represents s o g) {e : Error K}
    (hparticipating : g.participating = .error e) :
    (o.reduce (K := K)).run.run s = (.error e, s) := by
  rw [reduce]
  simp only [Outcome.run_bind, Outcome.run_get, Outcome.run_check, h.read_eq, hparticipating]

/-- Every reachable graph can be stored. -/
theorem exists_represents (hg : g.Reachable K) : ∃ s o, Represents s o g := by
  induction hg with
  | @empty n g h =>
    refine ⟨[], ⟨g.cliqueCount, [], [], g.constraintCount, g.equationCount⟩, ?_⟩
    unfold ClusterGraph.empty at h
    split at h
    · cases h
    · obtain rfl := Except.ok.inj h
      exact ⟨rfl, rfl, rfl, rfl, List.nodup_nil, fun _ => rfl⟩
  | add _ h ih =>
    obtain ⟨s, o, hrepr⟩ := ih
    obtain ⟨o', s', -, hrepr', -⟩ := hrepr.exists_add h
    exact ⟨s', o', hrepr'⟩
  | reduce _ h ih =>
    obtain ⟨s, o, hrepr⟩ := ih
    obtain ⟨o', s', -, hrepr', -⟩ := hrepr.exists_reduce h
    exact ⟨s', o', hrepr'⟩

/-- Calls on a stored graph answer as on its value, which they keep up, and leave another graph as
it is. -/
def Serves (K : Type) (s : List Cluster) (o : StoredGraph) (g : ClusterGraph)
    (other : StoredGraph) (value : ClusterGraph) : Prop :=
  ∀ calls : List Call, ∃ o' s',
    o.addEach (K := K) s calls = ((g.addEach (K := K) calls).1, o', s') ∧
      Represents s' o' (g.addEach (K := K) calls).2 ∧ Represents s' other value

/-- Graphs without a common cell serve independently of each other. -/
theorem Represents.serves (h : Represents s o g) (h' : Represents s o' g')
    (hdisjoint : o'.addresses.Disjoint o.addresses) : Serves K s o g o' g' := by
  intro calls
  obtain ⟨o₁, s₁, hcalls, h₁, hgrows⟩ := h.exists_addEach (K := K) calls
  exact ⟨o₁, s₁, hcalls, h₁, (h'.of_grows hgrows hdisjoint).1⟩

/-- In place, a graph is reduced to another one, and from then on either one serves by itself. -/
structure Splits (K : Type) (s : List Cluster) (o : StoredGraph) (g : ClusterGraph)
    (s' : List Cluster) (o' : StoredGraph) (g' : ClusterGraph) : Prop where
  run : (o.reduce (K := K)).run.run s = (.ok o', s')
  kept : Represents s' o g
  reduced : Represents s' o' g'
  serves_kept : Serves K s' o g o' g'
  serves_reduced : Serves K s' o' g' o g

/-- A reduction copies every cluster, so the graph and its reduction have no cell in common: one has
its cells where the store was, the other behind it. -/
theorem Represents.exists_splits (h : Represents s o g) (hreduce : g.reduce (K := K) = .ok g') :
    ∃ o' s', Splits K s o g s' o' g' := by
  obtain ⟨o', s', hrun, hrepr, hextends, hnew⟩ := h.exists_reduce hreduce
  have hkept := h.of_extends hextends
  have hdisjoint : o.addresses.Disjoint o'.addresses := fun a ha ha' =>
    absurd (h.lt_length a ha) (Nat.not_lt.mpr (hnew a ha'))
  exact ⟨o', s', hrun, hkept, hrepr, hkept.serves hrepr hdisjoint.symm,
    hrepr.serves hkept hdisjoint⟩

/-- **Reductions are canonical.** A reachable graph with more cliques than a table can hold is not
reduced, and stays as it is. Any other one is: what it is reduced to has the same clusters on the
numbers of their cliques, in the same order and with the same constraints and counts; all of its
cliques take part, each with itself as its number; and reduced once more it stays the same
(`ClusterGraph.Reduces`). In place, the graph stays what it is. Calls that are made on what it is
reduced to, or on what that is reduced to once more, answer as on the value of these, and leave the
graph alone. -/
theorem reduction_is_canonical (hg : g.Reachable K) (h : Represents s o g) :
    match PartialPermutation.empty (K := K) g.cliqueCount with
    | .error e => g.participating = .error e ∧ g.reduce = .error e ∧
        (o.reduce (K := K)).run.run s = (.error e, s)
    | .ok _ => ∃ q g', g.participating (K := K) = .ok q ∧ g.reduce (K := K) = .ok g' ∧
        g.Reduces K q g' ∧ ∃ o' s', Splits K s o g s' o' g' ∧
          ∃ o'' s'', Splits K s' o' g' s'' o'' g' := by
  cases hp : PartialPermutation.empty (K := K) g.cliqueCount with
  | error e =>
    have hparticipating : g.participating = .error e := by rw [participating, hp]; rfl
    have hreduce : g.reduce = .error e := by rw [ClusterGraph.reduce, hparticipating]; rfl
    exact ⟨hparticipating, hreduce, h.run_reduce_of_error hparticipating⟩
  | ok p =>
    obtain ⟨q, hq, hreduce, hreduces⟩ := hg.inRange.exists_reduces hp
    obtain ⟨o', s', hsplits⟩ := h.exists_splits hreduce
    exact ⟨q, g.canonical, hq, hreduce, hreduces, o', s', hsplits,
      hsplits.reduced.exists_splits hreduces.again⟩

/-- Nine cliques, of which two take part. Their pair is named in either order, also in the one that
is not normal. -/
def reductionSample? : Except (Error ℚ) ClusterGraph := do
  let g ← ClusterGraph.empty 9
  let (g, _) ← g.add (.list [7, 4]) 2
  let (g, _) ← g.add (.pair ⟨7, 4⟩) 1
  let (g, _) ← g.add (.list [7]) 3
  let (g, _) ← g.add (.pair ⟨4, 7⟩) 1
  return g

/-- The sample has been reached by four additions. -/
theorem reachable_reductionSample {g : ClusterGraph} (h : reductionSample? = .ok g) :
    g.Reachable ℚ := by
  obtain ⟨g₀, h₀, h⟩ := Outcome.bind_eq_ok.mp h
  obtain ⟨⟨g₁, i₁⟩, h₁, h⟩ := Outcome.bind_eq_ok.mp h
  obtain ⟨⟨g₂, i₂⟩, h₂, h⟩ := Outcome.bind_eq_ok.mp h
  obtain ⟨⟨g₃, i₃⟩, h₃, h⟩ := Outcome.bind_eq_ok.mp h
  obtain ⟨⟨g₄, i₄⟩, h₄, h⟩ := Outcome.bind_eq_ok.mp h
  obtain rfl := Outcome.pure_eq_ok.mp h
  exact ((((Reachable.empty h₀).add h₁).add h₂).add h₃).add h₄

/-- On two cliques that are named in both orders, with two clusters of one pair after the reduction.
The statement makes no difference between them. -/
theorem reduction_is_canonical_sample : ∃ g s o, reductionSample? = .ok g ∧ g.Reachable ℚ ∧
    Represents s o g ∧
    (g.reduce (K := ℚ)).map (·.clusters) =
      .ok [⟨⟨0, 1⟩, [0, 3], [2, 1]⟩, ⟨⟨0, 1⟩, [1], [1]⟩, ⟨⟨1, 1⟩, [2], [3]⟩] ∧
    ∃ q g', g.participating (K := ℚ) = .ok q ∧ g.reduce (K := ℚ) = .ok g' ∧ g.Reduces ℚ q g' ∧
      ∃ o' s', Splits ℚ s o g s' o' g' ∧ ∃ o'' s'', Splits ℚ s' o' g' s'' o'' g' := by
  obtain ⟨g, hg, hempty, hclusters⟩ : ∃ g, reductionSample? = .ok g ∧
      PartialPermutation.empty (K := ℚ) g.cliqueCount = .ok (.blank 9) ∧
      (g.reduce (K := ℚ)).map (·.clusters) =
        .ok [⟨⟨0, 1⟩, [0, 3], [2, 1]⟩, ⟨⟨0, 1⟩, [1], [1]⟩, ⟨⟨1, 1⟩, [2], [3]⟩] :=
    ⟨_, rfl, rfl, rfl⟩
  have hreachable := reachable_reductionSample hg
  obtain ⟨s, o, hrepr⟩ := exists_represents hreachable
  have hcanonical := reduction_is_canonical hreachable hrepr
  rw [hempty] at hcanonical
  exact ⟨g, s, o, hg, hreachable, hrepr, hclusters, hcanonical⟩

/-- A graph may have more cliques than a table can hold. -/
theorem exists_not_reduced : ∃ g : ClusterGraph, g.Reachable ℚ ∧
    g = ⟨Nat.pow 2 63, [⟨⟨0, 1⟩, [0], [1]⟩], 1, 1⟩ ∧
    g.reduce (K := ℚ) = .error .uncountableDomain := by
  have hempty : ClusterGraph.empty (K := ℚ) (Nat.pow 2 63 : Nat) = .ok (.blank (Nat.pow 2 63)) :=
    rfl
  have hadd : (ClusterGraph.blank (Nat.pow 2 63)).add (K := ℚ) (.list [1, 0]) 1 =
      .ok (⟨Nat.pow 2 63, [⟨⟨0, 1⟩, [0], [1]⟩], 1, 1⟩, 0) :=
    rfl
  exact ⟨_, (Reachable.empty hempty).add hadd, rfl, rfl⟩

end StoredGraph

end ConvexContact
