import Mathlib.Data.List.Sort
import ConvexContact.Proofs.Coupling.History

/-!
# Graphs on their participating cliques

Reducing a graph replaces every clique by its place among those that a scan of the clusters meets
(`ClusterGraph.canonical`, `ClusterGraph.InRange.reduce_eq`). The cliques of a cluster are then put
in order, so the scan of the reduced graph may meet the two cliques of a cluster in another order
than the scan of the graph did. Their numbers are met in increasing order all the same
(`eraseDups_flatMap_numbers`): the numbers that are new in a cluster are the next ones, and they are
met in order. So a reduced graph is numbered by the identity, and reducing it once more does nothing
(`ClusterGraph.canonical_canonical`).

The fact about numbers is one about lists of entries `F c` and lists of their numbers `G c`, by
induction from the last list. Its step (`removeAll_numbers`) compares two increasing lists with the
same entries, the numbers of `F c` that have not been given yet and an interval.

Graphs that calls and reductions lead to are `ClusterGraph.Reachable`, and `ClusterGraph.Reduces` is
what is said about a graph and its reduction. Main statement: `ClusterGraph.InRange.exists_reduces`.
-/

namespace ConvexContact

/-! ## Numbering by first occurrence

Facts about lists of whole numbers. `L` lists the entries in the order in which they first occur,
and the number of an entry is its place in `L`. -/

section Distinct

/-- Strictly increasing lists with the same entries are equal. -/
theorem eq_of_increasing {xs ys : List Int} (hx : xs.Pairwise (· < ·)) (hy : ys.Pairwise (· < ·))
    (h : ∀ z, z ∈ xs ↔ z ∈ ys) : xs = ys := by
  have hperm : xs.Perm ys :=
    (List.perm_ext_iff_of_nodup (hx.imp fun h => ne_of_lt h) (hy.imp fun h => ne_of_lt h)).mpr h
  exact hperm.eq_of_pairwise' hx hy

/-- The numbers of entries that stand behind `k` others. -/
theorem mem_map_add_range {xs : List Int} (h : xs.Nodup) (k : Nat) {y : Int} :
    y ∈ (List.range xs.length).map (fun i => ((k + i : Nat) : Int)) ↔
      ∃ x ∈ xs, y = (k + xs.idxOf x : Nat) := by
  rw [List.mem_map]
  constructor
  · rintro ⟨i, hi, rfl⟩
    have hi := List.mem_range.mp hi
    exact ⟨xs[i], List.getElem_mem hi, by rw [h.idxOf_getElem i hi]⟩
  · rintro ⟨x, hx, rfl⟩
    exact ⟨xs.idxOf x, List.mem_range.mpr (List.idxOf_lt_length_of_mem hx), rfl⟩

/-- Entries `xs` come after entries `olds`, and all are numbered by first occurrence. The numbers of
`xs` in increasing order, without those that have been given to `olds`, are the ones that come
next. -/
theorem removeAll_numbers {olds xs rest used numbers : List Int}
    (hused : ∀ i : Nat, (i : Int) ∈ used ↔ i < olds.eraseDups.length)
    (hincreasing : numbers.Pairwise (· < ·))
    (hnumbers : ∀ y, y ∈ numbers ↔ ∃ x ∈ xs, y = ((olds ++ xs).eraseDups ++ rest).idxOf x) :
    numbers.removeAll used = (List.range (xs.removeAll olds).eraseDups.length).map fun i =>
      ((olds.eraseDups.length + i : Nat) : Int) := by
  have hnodup : (xs.removeAll olds).eraseDups.Nodup := nodup_eraseDups _
  have hnews : ∀ x, x ∈ (xs.removeAll olds).eraseDups ↔ x ∈ xs ∧ x ∉ olds := by
    intro x
    rw [List.mem_eraseDups, List.removeAll, List.mem_filter]
    simp
  rw [List.eraseDups_append] at hnumbers
  generalize (xs.removeAll olds).eraseDups = news at *
  rw [List.append_assoc] at hnumbers
  -- an entry is old just when its number has been given
  have hold : ∀ x ∈ olds, (olds.eraseDups ++ (news ++ rest)).idxOf x < olds.eraseDups.length := by
    intro x hx
    have hx := List.mem_eraseDups.mpr hx
    rw [List.idxOf_append_of_mem hx]
    exact List.idxOf_lt_length_of_mem hx
  have hnew : ∀ x ∈ news, (olds.eraseDups ++ (news ++ rest)).idxOf x =
      olds.eraseDups.length + news.idxOf x := by
    intro x hx
    have hxold : x ∉ olds.eraseDups := mt List.mem_eraseDups.mp ((hnews x).mp hx).2
    rw [List.idxOf_append_of_notMem hxold, List.idxOf_append_of_mem hx]
  refine eq_of_increasing (hincreasing.filter _) ?_ fun y => ?_
  · rw [List.pairwise_map]
    exact List.pairwise_lt_range.imp fun h => by omega
  · rw [mem_map_add_range hnodup, List.removeAll, List.mem_filter, hnumbers]
    simp only [List.elem_eq_mem, Bool.not_eq_true', decide_eq_false_iff_not]
    constructor
    -- a number that has not been given is that of a new entry, and those stand behind the old ones
    · rintro ⟨⟨x, hx, rfl⟩, hfresh⟩
      rw [hused] at hfresh
      have hxnew : x ∈ news := (hnews x).mpr ⟨hx, fun hxold => hfresh (hold x hxold)⟩
      exact ⟨x, hxnew, by rw [hnew x hxnew]⟩
    -- and the number of a new entry has not been given
    · rintro ⟨x, hx, rfl⟩
      refine ⟨⟨x, ((hnews x).mp hx).1, by rw [hnew x hx]⟩, ?_⟩
      rw [hused]
      omega

/-- **Renumbering keeps the order of first occurrence.** Let each `F c` be a list of entries and
`G c` the increasing list of their numbers by first occurrence. In the lists of numbers one after
the other, the numbers `0, 1, …` first occur in this order. -/
theorem eraseDups_flatMap_numbers {α : Type} {L : List Int} (F G : α → List Int) {cs : List α}
    (hL : (cs.flatMap F).eraseDups <+: L) (hincreasing : ∀ c ∈ cs, (G c).Pairwise (· < ·))
    (hnumbers : ∀ c ∈ cs, ∀ y, y ∈ G c ↔ ∃ x ∈ F c, y = L.idxOf x) :
    (cs.flatMap G).eraseDups = (List.range (cs.flatMap F).eraseDups.length).map Int.ofNat := by
  induction cs using List.reverseRecOn with
  | nil => rfl
  | append_singleton cs c ih =>
    have hc : c ∈ cs ++ [c] := by simp
    rw [List.flatMap_append, List.flatMap_singleton] at hL ⊢
    have hextends : (cs.flatMap F).eraseDups <+: (cs.flatMap F ++ F c).eraseDups := by
      rw [List.eraseDups_append]
      exact List.prefix_append _ _
    have hfront := ih (hextends.trans hL) (fun d hd => hincreasing d (List.mem_append_left _ hd))
      (fun d hd => hnumbers d (List.mem_append_left _ hd))
    obtain ⟨rest, rfl⟩ := hL
    have hused : ∀ i : Nat, (i : Int) ∈ cs.flatMap G ↔ i < (cs.flatMap F).eraseDups.length := by
      intro i
      rw [← List.mem_eraseDups, hfront]
      simp
    have hback := removeAll_numbers hused (hincreasing c hc) (hnumbers c hc)
    have hnodup : ((G c).removeAll (cs.flatMap G)).Nodup :=
      ((hincreasing c hc).imp fun h => ne_of_lt h).filter _
    rw [List.flatMap_append, List.flatMap_singleton, List.eraseDups_append, hfront,
      eraseDups_of_nodup hnodup, hback, List.eraseDups_append, List.length_append, List.range_add,
      List.map_append, List.map_map]
    rfl

end Distinct

namespace CliquePair

/-- The cliques of a pair are its first and its second one, also when these are the same. -/
theorem mem_cliques {p : CliquePair} {x : Int} :
    x ∈ p.cliques ↔ x = p.first ∨ x = p.second := by
  unfold cliques isSelfPair
  split
  · rename_i h
    have h := eq_of_beq h
    simp [← h]
  · simp

/-- Putting two cliques in order does not change which ones they are. -/
theorem mem_cliques_normalized {a b x : Int} :
    x ∈ (normalized a (some b)).cliques ↔ x = a ∨ x = b := by
  rw [mem_cliques]
  simp only [normalized, Option.getD_some]
  omega

/-- The cliques of a pair in order are in order. -/
theorem increasing_cliques {p : CliquePair} (h : p.first ≤ p.second) :
    p.cliques.Pairwise (· < ·) := by
  unfold cliques isSelfPair
  split
  · exact List.pairwise_singleton _ _
  · rename_i hne
    have hne : p.first ≠ p.second := fun heq => hne (beq_iff_eq.mpr heq)
    simp only [List.pairwise_cons, List.mem_singleton, forall_eq, List.not_mem_nil, false_implies,
      implies_true, List.Pairwise.nil, and_true]
    omega

end CliquePair

/-! ## Graphs

The reduction as the program does it goes through a table and may fail at each clique. On a graph
whose clusters name its cliques it does not, and is equal to `canonical`, where numbers are places
in the scan. -/

namespace ClusterGraph

variable {K : Type} {g g' : ClusterGraph}

/-- The cliques of every cluster are cliques of the graph. -/
def InRange (g : ClusterGraph) : Prop :=
  ∀ c ∈ g.clusters, ∀ x ∈ c.cliques.cliques, 0 ≤ x ∧ x < g.cliqueCount

/-- A cluster whose cliques are replaced by their places in a list. -/
def renumberIn (L : List Int) (c : Cluster) : Cluster :=
  { c with cliques := .normalized (L.idxOf c.cliques.first)
                        (some (L.idxOf c.cliques.second : Int)) }

/-- The graph on the numbers of its cliques, where these are numbered by first occurrence. -/
def canonical (g : ClusterGraph) : ClusterGraph :=
  { g with
    cliqueCount := g.scan.eraseDups.length
    clusters := g.clusters.map (renumberIn g.scan.eraseDups) }

/-- A reduced graph has as many cliques as the scan meets. -/
theorem cliqueCount_canonical (g : ClusterGraph) :
    g.canonical.cliqueCount = g.scan.eraseDups.length := rfl

/-- The scan meets both cliques of every cluster. -/
theorem mem_scan_first {c : Cluster} (hc : c ∈ g.clusters) : c.cliques.first ∈ g.scan :=
  List.mem_flatMap.mpr ⟨c, hc, CliquePair.mem_cliques.mpr (Or.inl rfl)⟩

theorem mem_scan_second {c : Cluster} (hc : c ∈ g.clusters) : c.cliques.second ∈ g.scan :=
  List.mem_flatMap.mpr ⟨c, hc, CliquePair.mem_cliques.mpr (Or.inr rfl)⟩

/-- Cliques that lie on the graph are numbered by first occurrence. -/
theorem InRange.exists_numbering (h : g.InRange) :
    ∃ q, g.numbering (K := K) = .ok q ∧ q.Valid ∧ q.domainSize = g.cliqueCount ∧
      q.inverse.map Int.ofNat = g.scan.eraseDups := by
  have hdomain : (PartialPermutation.blank g.cliqueCount).domainSize = g.cliqueCount := by
    simp [PartialPermutation.domainSize, PartialPermutation.blank]
  obtain ⟨q, hq⟩ : ∃ q, g.numbering (K := K) = .ok q := by
    refine PartialPermutation.exists_pushAll fun x hx => ?_
    obtain ⟨c, hc, hx⟩ := List.mem_flatMap.mp hx
    rw [hdomain]
    exact h c hc x hx
  obtain ⟨hvalid, hsize, -⟩ := (PartialPermutation.valid_blank _).pushAll hq
  exact ⟨q, hq, hvalid, hsize.trans hdomain, PartialPermutation.inverse_pushAll_blank hq⟩

/-- A clique is numbered by its place among those that the scan meets. -/
theorem permutedIndex_of_mem_scan {q : PartialPermutation} (hq : q.Valid)
    (hinverse : q.inverse.map Int.ofNat = g.scan.eraseDups) {x : Int} (hx : x ∈ g.scan) :
    q.permutedIndex (K := K) x = .ok (g.scan.eraseDups.idxOf x) := by
  rw [← hinverse]
  exact hq.permutedIndex_eq (by rw [hinverse]; exact List.mem_eraseDups.mpr hx)

/-- The clusters on the numbers of their cliques. -/
theorem mapM_renumber {q : PartialPermutation} (hq : q.Valid)
    (hinverse : q.inverse.map Int.ofNat = g.scan.eraseDups) :
    g.clusters.mapM (renumber (K := K) q) = .ok (g.clusters.map (renumberIn g.scan.eraseDups)) := by
  refine Outcome.mapM_of_forall fun c hc => ?_
  rw [renumber, Outcome.bind_of_ok _ (permutedIndex_of_mem_scan hq hinverse (mem_scan_first hc)),
    Outcome.bind_of_ok _ (permutedIndex_of_mem_scan hq hinverse (mem_scan_second hc))]
  rfl

/-- Reducing a graph is numbering its cliques, unless their table cannot be held. -/
theorem InRange.reduce_eq (h : g.InRange) :
    g.reduce (K := K) = (fun _ => g.canonical) <$> PartialPermutation.empty g.cliqueCount := by
  obtain ⟨q, hq, hvalid, -, hinverse⟩ := h.exists_numbering (K := K)
  rw [reduce, participating_of_numbering hq]
  cases PartialPermutation.empty (K := K) g.cliqueCount with
  | error e => rfl
  | ok p =>
    have hsize : q.size = g.scan.eraseDups.length := by
      rw [← hinverse, List.length_map]
      rfl
    change (g.clusters.mapM (renumber q) >>= _) = _
    rw [Outcome.bind_of_ok _ (mapM_renumber hvalid hinverse), hsize]
    rfl

/-- However the numbers of a pair compare, they are put in order. -/
theorem first_le_second_renumberIn (L : List Int) (c : Cluster) :
    (renumberIn L c).cliques.first ≤ (renumberIn L c).cliques.second := by
  simp only [renumberIn, CliquePair.normalized]
  omega

/-- The cliques of a renumbered cluster are the numbers of its cliques. -/
theorem mem_cliques_renumberIn {L : List Int} {c : Cluster} {y : Int} :
    y ∈ (renumberIn L c).cliques.cliques ↔ ∃ x ∈ c.cliques.cliques, y = L.idxOf x := by
  rw [renumberIn, CliquePair.mem_cliques_normalized]
  simp only [CliquePair.mem_cliques, or_and_right, exists_or, exists_eq_left]

/-- The scan of the reduced graph meets the numbers in order. -/
theorem scan_canonical (g : ClusterGraph) :
    g.canonical.scan.eraseDups = (List.range g.scan.eraseDups.length).map Int.ofNat := by
  have hscan : g.canonical.scan =
      g.clusters.flatMap fun c => (renumberIn g.scan.eraseDups c).cliques.cliques := by
    rw [scan, canonical, List.flatMap_map]
  rw [hscan]
  exact eraseDups_flatMap_numbers _ _ (List.prefix_refl _)
    (fun c _ => CliquePair.increasing_cliques (first_le_second_renumberIn _ c))
    fun c _ y => mem_cliques_renumberIn

/-- Numbers are cliques of the reduced graph. -/
theorem inRange_canonical (g : ClusterGraph) : g.canonical.InRange := by
  intro c' hc' y hy
  obtain ⟨c, hc, rfl⟩ := List.mem_map.mp hc'
  obtain ⟨x, hx, rfl⟩ := mem_cliques_renumberIn.mp hy
  have hscan : x ∈ g.scan.eraseDups :=
    List.mem_eraseDups.mpr (List.mem_flatMap.mpr ⟨c, hc, hx⟩)
  exact ⟨Int.natCast_nonneg _, Int.ofNat_lt.mpr (List.idxOf_lt_length_of_mem hscan)⟩

/-- Numbers keep themselves as their numbers. -/
theorem idxOf_range {k : Nat} {x : Int} (h : 0 ≤ x ∧ x < k) :
    (((List.range k).map Int.ofNat).idxOf x : Int) = x := by
  obtain ⟨i, rfl⟩ := Int.eq_ofNat_of_zero_le h.1
  have hi : i < ((List.range k).map Int.ofNat).length := by
    rw [List.length_map, List.length_range]
    exact Int.ofNat_lt.mp h.2
  have hnodup : ((List.range k).map Int.ofNat).Nodup :=
    List.nodup_range.map fun a b hab => Int.ofNat.inj hab
  have hplace := hnodup.idxOf_getElem i hi
  rw [List.getElem_map, List.getElem_range] at hplace
  exact congrArg Int.ofNat hplace

/-- Reducing twice is reducing once. -/
theorem canonical_canonical (g : ClusterGraph) : g.canonical.canonical = g.canonical := by
  have hkeep : ∀ c ∈ g.canonical.clusters,
      renumberIn ((List.range g.scan.eraseDups.length).map Int.ofNat) c = c := by
    intro c hc
    have hfirst := g.inRange_canonical c hc _ (CliquePair.mem_cliques.mpr (Or.inl rfl))
    have hsecond := g.inRange_canonical c hc _ (CliquePair.mem_cliques.mpr (Or.inr rfl))
    have hle : c.cliques.first ≤ c.cliques.second := by
      obtain ⟨c, -, rfl⟩ := List.mem_map.mp hc
      exact first_le_second_renumberIn _ c
    rw [cliqueCount_canonical] at hfirst hsecond
    rw [renumberIn, idxOf_range hfirst, idxOf_range hsecond, CliquePair.normalized_of_le hle]
  have hclusters : g.canonical.canonical.clusters = g.canonical.clusters := by
    rw [canonical, scan_canonical]
    exact (List.map_congr_left hkeep).trans (List.map_id _)
  have hcount : g.canonical.canonical.cliqueCount = g.canonical.cliqueCount := by
    rw [cliqueCount_canonical, scan_canonical, List.length_map, List.length_range]
    rfl
  exact congrArg₂ (fun n cs => ClusterGraph.mk n cs g.constraintCount g.equationCount) hcount
    hclusters

/-- The numbering of the reduced graph sends every clique to itself. -/
theorem numbering_canonical (g : ClusterGraph) :
    g.canonical.numbering (K := K) = .ok ⟨(List.range g.canonical.cliqueCount).map some,
      List.range g.canonical.cliqueCount⟩ := by
  obtain ⟨q, hq, hvalid, hdomain, hscan⟩ := g.inRange_canonical.exists_numbering (K := K)
  rw [scan_canonical, ← cliqueCount_canonical] at hscan
  change q.forward.length = _ at hdomain
  have hinverse : q.inverse = List.range g.canonical.cliqueCount :=
    List.map_injective_iff.mpr (fun a b h => Int.ofNat.inj h) hscan
  have hforward : q.forward = (List.range g.canonical.cliqueCount).map some := by
    refine List.ext_getElem (by simpa using hdomain) fun i hi hi' => ?_
    have hlt : i < g.canonical.cliqueCount := hdomain ▸ hi
    have hnumber : q.number? i = some i := by
      rw [hvalid.number?_eq_some_iff, hinverse, List.getElem?_range hlt]
    rw [PartialPermutation.number?, List.getElem?_eq_getElem hi, Option.join_some] at hnumber
    simp [hnumber]
  rw [hq, ← hforward, ← hinverse]

/-! ## Reachable graphs -/

/-- The graphs that calls and reductions lead to from graphs without constraints. -/
inductive Reachable (K : Type) : ClusterGraph → Prop where
  | empty {n : Int} {g : ClusterGraph} (h : ClusterGraph.empty (K := K) n = .ok g) : Reachable K g
  | add {g g' : ClusterGraph} {cliques : CliqueArgument} {n : Int} {i : Nat}
      (hg : Reachable K g) (h : g.add (K := K) cliques n = .ok (g', i)) : Reachable K g'
  | reduce {g g' : ClusterGraph} (hg : Reachable K g) (h : g.reduce (K := K) = .ok g') :
      Reachable K g'

/-- A constraint whose cliques are cliques of the graph leaves all clusters on the graph. -/
theorem InRange.join (h : g.InRange) {p : CliquePair} (n : Int)
    (hp : ∀ x ∈ p.cliques, 0 ≤ x ∧ x < g.cliqueCount) : (g.join p n).InRange := by
  -- every pair is an old one or the one that is joined
  have hpairs : ∀ c ∈ (g.join p n).clusters, (∃ d ∈ g.clusters, c.cliques = d.cliques) ∨
      c.cliques = p := by
    intro c hc
    simp only [ClusterGraph.join] at hc
    cases hk : g.clusterOf? p with
    | none =>
      rw [hk] at hc
      rcases List.mem_append.mp hc with hc | hc
      · exact Or.inl ⟨c, hc, rfl⟩
      · rw [List.mem_singleton.mp hc]
        exact Or.inr rfl
    | some k =>
      rw [hk] at hc
      have hmem : c.cliques ∈ g.clusters.map (·.cliques) := by
        rw [← map_cliques_modify g.clusters k g.constraintCount n]
        exact List.mem_map_of_mem hc
      obtain ⟨d, hd, hdc⟩ := List.mem_map.mp hmem
      exact Or.inl ⟨d, hd, hdc.symm⟩
  intro c hc x hx
  rcases hpairs c hc with ⟨d, hd, hcd⟩ | hcp
  · rw [hcd] at hx
    exact h d hd x hx
  · rw [hcp] at hx
    exact hp x hx

/-- **Run.** Reachable graphs have their clusters on their cliques. -/
theorem Reachable.inRange (h : g.Reachable K) : g.InRange := by
  induction h with
  | empty h =>
    unfold ClusterGraph.empty at h
    split at h
    · cases h
    · obtain rfl := Except.ok.inj h
      exact fun c hc => absurd hc List.not_mem_nil
  -- a pair is read only when both of its cliques are in range
  | @add g g' cliques n i _ h ih =>
    obtain ⟨p, hp, h⟩ := Outcome.bind_eq_ok.mp h
    obtain ⟨-, hfirst, hsecond⟩ := readPair_eq_ok.mp hp
    split at h
    · cases h
    · obtain ⟨rfl, -⟩ := Prod.mk.inj (Outcome.pure_eq_ok.mp h)
      refine ih.join n fun x hx => ?_
      rcases CliquePair.mem_cliques.mp hx with rfl | rfl
      · exact hfirst
      · exact hsecond
  | @reduce g g' _ h ih =>
    rw [ih.reduce_eq] at h
    obtain ⟨-, -, rfl⟩ := Outcome.map_eq_ok.mp h
    exact g.inRange_canonical

/-! ## What a reduction gives -/

/-- A graph `g'` is `g` on the numbers that `q` gives to its cliques: the same clusters in the same
order, each on the numbers of its cliques, which are numbered by first occurrence already. -/
structure Reduces (K : Type) (g : ClusterGraph) (q : PartialPermutation) (g' : ClusterGraph) :
    Prop where
  cliqueCount : g'.cliqueCount = q.size
  clusters : List.Forall₂ (fun c c' => c'.members = c.members ∧ c'.equations = c.equations ∧
    ∃ m n : Nat, q.permutedIndex (K := K) c.cliques.first = .ok m ∧
      q.permutedIndex (K := K) c.cliques.second = .ok n ∧
      c'.cliques = .normalized m (some (n : Int))) g.clusters g'.clusters
  counts : g'.clusterCount = g.clusterCount ∧ g'.constraintCount = g.constraintCount ∧
    g'.equationCount = g.equationCount
  order : g'.order = g.order
  /-- every clique of the reduced graph takes part, with itself as its number -/
  participating : g'.participating (K := K) =
    .ok ⟨(List.range q.size).map some, List.range q.size⟩
  again : g'.reduce (K := K) = .ok g'

/-- The table of `n` cliques can be held when `n` is below `2 ^ 33`. The bound on the length of an
axis is wider, and is never what decides. -/
theorem empty_eq_ok {n : Nat} {p : PartialPermutation} :
    PartialPermutation.empty (K := K) n = .ok p ↔ n < Nat.pow 2 33 ∧ .blank n = p := by
  have hwide : Nat.pow 2 33 ≤ Nat.pow 2 63 := Nat.pow_le_pow_right (by omega) (by omega)
  rw [PartialPermutation.empty, if_neg (by omega)]
  by_cases hn : n < Nat.pow 2 33
  · rw [if_neg (by omega), if_neg (by omega), Except.ok.injEq, Int.toNat_natCast]
    exact (and_iff_right hn).symm
  · refine iff_of_false ?_ fun h => hn h.1
    split
    · exact fun h => by cases h
    · rw [if_pos (by omega)]
      exact fun h => by cases h

/-- **A reduced graph is canonical.** -/
theorem InRange.exists_reduces (h : g.InRange) {p : PartialPermutation}
    (hp : PartialPermutation.empty (K := K) g.cliqueCount = .ok p) :
    ∃ q, g.participating (K := K) = .ok q ∧ g.reduce (K := K) = .ok g.canonical ∧
      g.Reduces K q g.canonical := by
  obtain ⟨q, hq, hvalid, hdomain, hscan⟩ := h.exists_numbering (K := K)
  have hsize : g.canonical.cliqueCount = q.size := by
    rw [cliqueCount_canonical, ← hscan, List.length_map]
    rfl
  -- the reduced graph has no more cliques than the graph, so its table can be held as well
  have hle : q.size ≤ g.cliqueCount := by
    have hsub : q.inverse ⊆ List.range g.cliqueCount := fun i hi =>
      List.mem_range.mpr (hdomain ▸ hvalid.lt_of_mem hi)
    simpa [PartialPermutation.size] using (List.subperm_of_subset hvalid.nodup hsub).length_le
  have hempty : PartialPermutation.empty (K := K) g.canonical.cliqueCount =
      .ok (.blank g.canonical.cliqueCount) :=
    empty_eq_ok.mpr ⟨by rw [hsize]; exact hle.trans_lt (empty_eq_ok.mp hp).1, rfl⟩
  refine ⟨q, by rw [participating_of_numbering hq, hp]; rfl, by rw [h.reduce_eq, hp]; rfl, ?_⟩
  exact {
    cliqueCount := hsize
    clusters := by
      rw [canonical, List.forall₂_map_right_iff, List.forall₂_same]
      exact fun c hc => ⟨rfl, rfl, _, _,
        permutedIndex_of_mem_scan hvalid hscan (mem_scan_first hc),
        permutedIndex_of_mem_scan hvalid hscan (mem_scan_second hc), rfl⟩
    counts := ⟨List.length_map _, rfl, rfl⟩
    order := by
      rw [order, order, canonical, List.flatMap_map]
      rfl
    participating := by
      rw [participating_of_numbering (numbering_canonical g), hempty, hsize]
      rfl
    again := by
      rw [g.inRange_canonical.reduce_eq, canonical_canonical, hempty]
      rfl }

end ClusterGraph

end ConvexContact
