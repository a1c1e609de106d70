import ConvexContact.Proofs.Linear.GridEntries
import ConvexContact.Proofs.Model.Formulas
import ConvexContact.Proofs.Model.Reduction

/-!
# Assembled stacks

The stack of a model has one row for each constraint, in the order of the constraints, and one
column for each clique that takes part. Assembling the Jacobian stores each block of a constraint in
the row of the constraint and the column of its clique (`placed`), and the regularization and the
bias are the answers of the laws, joined.

Proof shape: `BlockGrid.Lists.insert` says what one step of the assembling loop does, and
`Stack.assemble_eq_ok` runs it, so that afterwards the Jacobian is known by the list `placed` alone.
The blocks of that list are scattered (`ContactProblem.Arranged.scattered`), which is why no step
finds its place taken (`exists_assemble`). `Stack.Parts` collects what a stack that was built comes
from, and everything after it reads off these parts.

Main statement: `Model.Steps.wellFormed`. The parts of a model that was built from a well-formed
problem fit together.
-/

namespace ConvexContact

variable {K : Type} [Arith K]

/-- The entries of a matrix in a row, read back. -/
theorem Mat.ofEntries_toTensor (A : Mat K) :
    ofEntries A.format A.rows A.cols A.toTensor.data = A := by
  refine ext_get rfl rfl rfl fun i j hi hj => ?_
  have hi : i < A.rows := hi
  have hj : j < A.cols := hj
  have hi' : i < A.entries.length := by rw [A.length_entries]; exact hi
  have hlengths : A.entries.map List.length = List.replicate A.rows A.cols := by
    refine List.eq_replicate_iff.mpr ⟨by rw [List.length_map, A.length_entries], fun n hn => ?_⟩
    obtain ⟨row, hrow, rfl⟩ := List.mem_map.mp hn
    exact A.length_row row hrow
  have hoffset : offset (A.entries.map List.length) i = i * A.cols := by
    rw [hlengths, offset, List.take_replicate, total_eq_sum, List.sum_replicate, smul_eq_mul,
      Nat.min_eq_left (Nat.le_of_lt hi)]
  have hrow : (A.entries.getD i []).length = A.cols := by
    rw [List.getD_eq_getElem _ _ hi']
    exact A.length_row _ (List.getElem_mem hi')
  have hentry : A.entries.flatten.getD (offset (A.entries.map List.length) i + j) 0 =
      (A.entries.getD i []).getD j 0 := getD_flatten (by rw [hrow]; exact hj) 0
  rw [hoffset] at hentry
  rw [ofEntries, get_ofFn _ _ hi hj]
  exact hentry

/-- Rounding a matrix rounds the tensor that it becomes. -/
theorem Mat.toTensor_cast (A : Mat K) (f : Format) : (A.cast f).toTensor = A.toTensor.cast f := by
  simp [toTensor, cast, map, Tensor.cast, Tensor.map, List.map_flatten, shape]

/-! ## The Jacobian

The list `placed` is written down from the constraints without a loop. The loop of the program is
shown to store exactly these blocks, and from then on only the list is used. -/

/-- The place of a block of the constraint at place `i`. -/
def placeOf (cliques : PartialPermutation) (i : Nat) (b : CliqueBlock K) : PlacedBlock K :=
  ⟨i, (cliques.number? b.clique).getD 0, b.jacobian⟩

/-- The blocks of constraints with their places, constraint by constraint. -/
def placed (cliques : PartialPermutation) (cs : List (Constraint K)) : List (PlacedBlock K) :=
  cs.zipIdx.flatMap fun (c, i) => c.blocks.map (placeOf cliques i)

omit [Arith K] in
/-- The blocks with their places are found by walking the constraints. -/
theorem map_placeOf (cliques : PartialPermutation) (cs : List (Constraint K)) :
    ((cs.zipIdx.flatMap fun (c, i) => c.blocks.map (i, ·)).map
      fun ib => placeOf cliques ib.1 ib.2) = placed cliques cs := by
  rw [List.map_flatMap, placed]
  simp only [List.map_map]
  rfl

/-- **Step.** A block that is taken in is stored at its place. -/
theorem BlockGrid.Lists.insert {J J' : BlockGrid K} {ts : List (PlacedBlock K)} (h : J.Lists ts)
    {cliques : PartialPermutation} {i j : Nat} {b : CliqueBlock K}
    (hj : cliques.number? b.clique = some j)
    (hinsert : J.insert i j (.tensor b.jacobian.toTensor) = .ok J') :
    J'.heights = J.heights ∧ J'.widths = J.widths ∧ J'.format = J.format ∧
      J'.Lists (ts ++ [placeOf cliques i b]) := by
  obtain ⟨⟨hi, hjlt⟩, hshape, -, rfl⟩ := insert_eq_ok.mp hinsert
  obtain ⟨hrows, hcols⟩ : b.jacobian.rows = J.heights.getD i 0 ∧
      b.jacobian.cols = J.widths.getD j 0 := by
    simpa [Mat.toTensor, Mat.shape] using hshape
  have hblock : Mat.ofEntries b.jacobian.toTensor.format (J.heights.getD i 0) (J.widths.getD j 0)
      b.jacobian.toTensor.data = b.jacobian := by
    rw [← hrows, ← hcols]
    exact b.jacobian.ofEntries_toTensor
  have hplace : placeOf cliques i b = ⟨i, j, b.jacobian⟩ := by
    rw [placeOf, hj]
    rfl
  rw [hblock, hplace]
  exact ⟨rfl, rfl, rfl, h.store hi hjlt hrows hcols⟩

/-- **Loop.** Assembling stores every block at its place. -/
theorem Stack.assemble_eq_ok {f : Format} {cliques : PartialPermutation} {widths : List Nat}
    {cs : List (Constraint K)} {J : BlockGrid K} (h : assemble f cliques widths cs = .ok J) :
    J.heights = cs.map (·.equations) ∧ J.widths = widths ∧ J.format = f ∧
      J.Lists (placed cliques cs) := by
  rw [← map_placeOf]
  refine Outcome.foldlM_induction (fun done J => J.heights = cs.map (·.equations) ∧
    J.widths = widths ∧ J.format = f ∧ J.Lists (done.map fun ib => placeOf cliques ib.1 ib.2))
    ⟨rfl, rfl, rfl, BlockGrid.lists_blank _ _ _⟩ ?_ h
  rintro done ⟨i, b⟩ J J' - ⟨hheights, hwidths, hformat, hlists⟩ hstep
  obtain ⟨j, hj, hinsert⟩ := Outcome.bind_eq_ok.mp hstep
  obtain ⟨hheights', hwidths', hformat', hlists'⟩ :=
    hlists.insert (PartialPermutation.permutedIndex_eq_ok.mp hj) hinsert
  refine ⟨hheights'.trans hheights, hwidths'.trans hwidths, hformat'.trans hformat, ?_⟩
  rw [List.map_append]
  exact hlists'

omit [Arith K] in
/-- The blocks in a row are those of the constraint there. -/
theorem filter_row_placed {cliques : PartialPermutation} {cs : List (Constraint K)} {k : Nat}
    {c : Constraint K} (hk : cs[k]? = some c) :
    (placed cliques cs).filter (fun t => t.row = k) = c.blocks.map (placeOf cliques k) := by
  -- the places count on from any start
  suffices ∀ (cs : List (Constraint K)) n k c, cs[k]? = some c →
      ((cs.zipIdx n).flatMap fun (c, i) => c.blocks.map (placeOf cliques i)).filter
        (fun t => t.row = n + k) = c.blocks.map (placeOf cliques (n + k)) by
    have hzero := this cs 0 k c hk
    rwa [Nat.zero_add] at hzero
  clear hk c k cs
  intro cs
  induction cs with
  | nil =>
    intro n k c hk
    cases hk
  | cons d cs ih =>
    intro n k c hk
    rw [List.zipIdx_cons, List.flatMap_cons, List.filter_append]
    -- the constraint at the start has its blocks in this row, and the later ones have theirs below
    cases k with
    | zero =>
      obtain rfl : d = c := Option.some.inj hk
      have hfirst : (d.blocks.map (placeOf cliques n)).filter (fun t => t.row = n + 0) =
          d.blocks.map (placeOf cliques n) := by
        rw [List.filter_eq_self]
        intro t ht
        obtain ⟨b, -, rfl⟩ := List.mem_map.mp ht
        exact decide_eq_true rfl
      have hrest : ((cs.zipIdx (n + 1)).flatMap fun (c, i) =>
          c.blocks.map (placeOf cliques i)).filter (fun t => t.row = n + 0) = [] := by
        rw [List.filter_eq_nil_iff]
        intro t ht hrow
        obtain ⟨⟨c, i⟩, hci, ht⟩ := List.mem_flatMap.mp ht
        obtain ⟨b, -, rfl⟩ := List.mem_map.mp ht
        have hle := List.le_snd_of_mem_zipIdx hci
        have hi : i = n := of_decide_eq_true hrow
        simp only at hle
        omega
      rw [hfirst, hrest, List.append_nil]
      rfl
    -- in a later row it has none, and the rest counts on from the next place
    | succ k =>
      have hfirst : (d.blocks.map (placeOf cliques n)).filter (fun t => t.row = n + (k + 1)) =
          [] := by
        rw [List.filter_eq_nil_iff]
        intro t ht hrow
        obtain ⟨b, -, rfl⟩ := List.mem_map.mp ht
        have hn : n = n + (k + 1) := of_decide_eq_true hrow
        omega
      have hrest := ih (n + 1) k c hk
      rw [Nat.add_assoc, Nat.add_comm 1 k] at hrest
      rw [hfirst, List.nil_append]
      exact hrest

omit [Arith K] in
/-- A block with a place is a block of the constraint in its row. -/
theorem exists_of_mem_placed {cliques : PartialPermutation} {cs : List (Constraint K)}
    {t : PlacedBlock K} (ht : t ∈ placed cliques cs) :
    ∃ i c, cs[i]? = some c ∧ ∃ b ∈ c.blocks, t = placeOf cliques i b := by
  obtain ⟨⟨c, i⟩, hci, ht⟩ := List.mem_flatMap.mp ht
  obtain ⟨b, hb, rfl⟩ := List.mem_map.mp ht
  exact ⟨i, c, List.mem_zipIdx_iff_getElem?.mp hci, b, hb, rfl⟩

namespace ContactProblem.Arranged

variable {p : ContactProblem K} {g : ClusterGraph} {q : PartialPermutation}

omit [Arith K] in
/-- What stands in the order of the clusters is a constraint of the problem. -/
theorem mem_of_getElem?_pick (h : p.Arranged g q) {k : Nat} {c : Constraint K}
    (hc : (pick p.constraints g.places)[k]? = some c) : c ∈ p.constraints :=
  (pick_perm h.places_perm).mem_iff.mp (List.mem_of_getElem? hc)

omit [Arith K] in
/-- A block with a place is what the constraint in its row has for the clique of its column. -/
theorem clique_of_mem_placed (h : p.Arranged g q) {t : PlacedBlock K}
    (ht : t ∈ placed q (pick p.constraints g.places)) :
    ∃ c, (pick p.constraints g.places)[t.row]? = some c ∧ ∃ b ∈ c.blocks,
      q.inverse[t.col]? = some b.clique ∧ t.block = b.jacobian := by
  obtain ⟨k, c, hc, b, hb, rfl⟩ := exists_of_mem_placed ht
  obtain ⟨j, hj, hinverse⟩ := h.number?_of_mem (h.mem_of_getElem?_pick hc) hb
  have hcol : (placeOf q k b).col = j := by
    rw [placeOf, hj]
    rfl
  exact ⟨c, hc, b, hb, hcol ▸ hinverse, rfl⟩

omit [Arith K] in
/-- No two blocks of a constraint stand in one column: a constraint names each of its cliques once,
and cliques have numbers of their own. -/
theorem scattered (hp : p.WellFormed) (h : p.Arranged g q) :
    BlockGrid.Scattered (placed q (pick p.constraints g.places)) := by
  intro i
  cases hc : (pick p.constraints g.places)[i]? with
  -- a row that no constraint has is empty
  | none =>
    have hrow : (placed q (pick p.constraints g.places)).filter (fun t => t.row = i) = [] := by
      rw [List.filter_eq_nil_iff]
      intro t ht hti
      obtain ⟨j, c, hj, b, -, rfl⟩ := exists_of_mem_placed ht
      obtain rfl : j = i := of_decide_eq_true hti
      rw [hc] at hj
      cases hj
    rw [hrow]
    exact List.nodup_nil
  | some c =>
    have hmem := h.mem_of_getElem?_pick hc
    have hcols : (c.blocks.map (placeOf q i)).map PlacedBlock.col =
        c.cliques.map fun x => (q.number? x).getD 0 := by
      rw [List.map_map, Constraint.cliques, List.map_map]
      rfl
    rw [filter_row_placed hc, hcols]
    -- cliques that are named once are told apart by their numbers
    apply List.Nodup.map_on ?_ (hp.constraint c hmem).nodup
    intro x hx y hy hxy
    obtain ⟨b, hb, rfl⟩ := List.mem_map.mp hx
    obtain ⟨d, hd, rfl⟩ := List.mem_map.mp hy
    obtain ⟨k, hk, hkb⟩ := h.number?_of_mem hmem hb
    obtain ⟨l, hl, hld⟩ := h.number?_of_mem hmem hd
    simp only [hk, hl, Option.getD_some] at hxy
    rw [hxy, hld] at hkb
    exact (Option.some.inj hkb).symm

/-- **Success of the loop.** The blocks of the constraints can be stored: each has the size of its
place, and the places are different. -/
theorem exists_assemble (hp : p.WellFormed) (h : p.Arranged g q) :
    ∃ J, Stack.assemble p.format q (q.inverse.map fun c => p.sizes.getD c 0)
      (pick p.constraints g.places) = .ok J := by
  generalize hcs : pick p.constraints g.places = cs
  generalize hwidths : (q.inverse.map fun c => p.sizes.getD c 0) = widths
  have hstep : ∀ (done : List (Nat × CliqueBlock K)) (ib : Nat × CliqueBlock K) (J : BlockGrid K),
      (∃ rest, done ++ ib :: rest = cs.zipIdx.flatMap fun (c, i) => c.blocks.map (i, ·)) →
      (J.heights = cs.map (·.equations) ∧ J.widths = widths ∧
        J.Lists (done.map fun ib => placeOf q ib.1 ib.2)) →
      ∃ J', (q.permutedIndex ib.2.clique >>= fun j =>
          J.insert ib.1 j (.tensor ib.2.jacobian.toTensor)) = .ok J' ∧
        (J'.heights = cs.map (·.equations) ∧ J'.widths = widths ∧
          J'.Lists ((done ++ [ib]).map fun ib => placeOf q ib.1 ib.2)) := by
    rintro done ⟨i, d⟩ J ⟨rest, hsplit⟩ ⟨hJheights, hJwidths, hlists⟩
    have hmem : (i, d) ∈ cs.zipIdx.flatMap fun (c, i) => c.blocks.map (i, ·) := by
      rw [← hsplit]
      simp
    obtain ⟨⟨c, k⟩, hck, hd⟩ := List.mem_flatMap.mp hmem
    obtain ⟨b, hb, heq⟩ := List.mem_map.mp hd
    obtain ⟨rfl, rfl⟩ := Prod.mk.inj heq
    have hc : cs[k]? = some c := List.mem_zipIdx_iff_getElem?.mp hck
    have hcmem : c ∈ p.constraints := h.mem_of_getElem?_pick (by rw [hcs]; exact hc)
    obtain ⟨j, hj, hjb⟩ := h.number?_of_mem hcmem hb
    -- the block has the size of its place
    have hheight : J.heights[k]? = some b.jacobian.rows := by
      rw [hJheights, List.getElem?_map, hc, (hp.constraint c hcmem).rows b hb]
      rfl
    have hwidth : J.widths[j]? = some b.jacobian.cols := by
      rw [hJwidths, ← hwidths, List.getElem?_map, hjb, Option.map_some, hp.getD_sizes hcmem hb]
    have hcol : (placeOf q k b).col = j := by
      rw [placeOf, hj]
      rfl
    -- the blocks so far and this one are scattered, so its place is free
    have hfree : ∀ x ∈ J.row k, x.1 ≠ j := by
      have hscattered := h.scattered hp
      rw [hcs, ← map_placeOf, ← hsplit, List.map_append, List.map_cons] at hscattered
      rw [← hcol]
      exact hlists.free_of_scattered hscattered
    have hshape : b.jacobian.toTensor.shape = [J.heights.getD k 0, J.widths.getD j 0] := by
      rw [List.getD_eq_getElem?_getD, hheight, List.getD_eq_getElem?_getD, hwidth]
      rfl
    have hinsert := BlockGrid.insert_eq_ok.mpr ⟨⟨(List.getElem?_eq_some_iff.mp hheight).1,
      (List.getElem?_eq_some_iff.mp hwidth).1⟩, hshape, hfree, rfl⟩
    obtain ⟨hheights', hwidths', -, hlists'⟩ := hlists.insert hj hinsert
    refine ⟨_, ?_, hheights'.trans hJheights, hwidths'.trans hJwidths, ?_⟩
    · rw [Outcome.bind_of_ok _ (PartialPermutation.permutedIndex_eq_ok.mpr hj)]
      exact hinsert
    · rw [List.map_append]
      exact hlists'
  obtain ⟨J, hJ, -⟩ := Outcome.exists_foldlM _
    ⟨rfl, rfl, BlockGrid.lists_blank p.format _ _⟩ hstep
  exact ⟨J, hJ⟩

end ContactProblem.Arranged

/-! ## The laws -/

/-- The estimate at a place is the entry there. -/
theorem Stack.estimateAt_toTensor {w : Vec K} {i : Nat} (hi : i < w.size) :
    estimateAt w.toTensor i = .ok (Tensor.scalar w.format (w.get i)) := by
  have hslabs : i < w.toTensor.slabs.length := by
    simpa [Tensor.slabs, Vec.toTensor, Vec.shape] using hi
  have hslab : w.toTensor.slabs[i]? = some [w.get i] := by
    rw [List.getElem?_eq_getElem hslabs, ← PartialPermutation.getD_slabs_toTensor hi,
      List.getD_eq_getElem _ _ hslabs]
  rw [estimateAt]
  simp only [Tensor.slab?, Vec.toTensor, Vec.shape] at hslab ⊢
  rw [hslab]
  rfl

/-- The bias and the regularization fit the constraint, and the regularization is positive. -/
theorem Stack.of_lawOf {step : K} {w : Tensor K} {i : Nat} {c : Constraint K} {R vHat : Vec K}
    (h : lawOf step w i c = .ok (R, vHat)) :
    (R.size = c.equations ∧ R.format = c.g.format) ∧
      (vHat.size = c.equations ∧ vHat.format = c.g.format) ∧
        ∀ x ∈ R.entries, Arith.lt 0 x = true := by
  obtain ⟨wi, -, h⟩ := Outcome.bind_eq_ok.mp h
  obtain ⟨R', hR, h⟩ := Outcome.bind_eq_ok.mp h
  obtain ⟨vHat', hvHat, h⟩ := Outcome.bind_eq_ok.mp h
  obtain ⟨rfl, rfl⟩ := Prod.mk.inj (Outcome.pure_eq_ok.mp h)
  obtain ⟨answer, -, hbias⟩ := Outcome.bind_eq_ok.mp hvHat
  obtain ⟨hRfits, hRpos⟩ := Constraint.of_regularization hR
  exact ⟨hRfits, Constraint.of_checkSide hbias, hRpos⟩

/-! ## Stacks

`Stack.Parts` has a field for each result of the construction. What follows are its consequences, in
the form in which the formulas of the model ask for them. -/

/-- The parts of a stack that was built for estimates `w`, with the constraints at the given places
and the numbered cliques. -/
structure Stack.Parts (p : ContactProblem K) (places : List Nat) (q : PartialPermutation)
    (w : Tensor K) (s : Stack K) (laws : List (Vec K × Vec K)) : Prop where
  perm : places.Perm (List.range p.constraints.length)
  members : s.members = List.zipWith (fun i c => ⟨i, c.cliques, c.equations, c.projection⟩)
    places (pick p.constraints places)
  jacobian : Stack.assemble p.format q (q.inverse.map fun c => p.sizes.getD c 0)
    (pick p.constraints places) = .ok s.J
  mapM_lawOf : (pick p.constraints places).zipIdx.mapM
    (fun (c, i) => Stack.lawOf p.timeStep w i c) = .ok laws
  R : s.R = Vec.concat p.format (laws.map (·.1))
  vHat : s.vHat = Vec.concat p.format (laws.map (·.2))
  Rinv : s.Rinv = s.R.inverse

/-- A stack of a problem that has been arranged is built from its parts. -/
theorem ContactProblem.Arranged.exists_parts {p : ContactProblem K} {g : ClusterGraph}
    {q : PartialPermutation} {w : Tensor K} {s : Stack K} (h : p.Arranged g q)
    (hs : Stack.build? p w = .ok s) : ∃ laws, Stack.Parts p g.places q w s laws := by
  obtain ⟨graph, hgraph, hs⟩ := Outcome.bind_eq_ok.mp hs
  rw [h.graph] at hgraph
  obtain rfl := Except.ok.inj hgraph
  obtain ⟨cliques, hcliques, hs⟩ := Outcome.bind_eq_ok.mp hs
  rw [h.cliques] at hcliques
  obtain rfl := Except.ok.inj hcliques
  obtain ⟨n, -, hs⟩ := Outcome.bind_eq_ok.mp hs
  dsimp only at hs
  split at hs
  · cases hs
  obtain ⟨cs, hcs, hs⟩ := Outcome.bind_eq_ok.mp hs
  rw [h.mapM_constraintAt] at hcs
  obtain rfl := Except.ok.inj hcs
  obtain ⟨widths, hwidths, hs⟩ := Outcome.bind_eq_ok.mp hs
  rw [h.mapM_sizeAt] at hwidths
  obtain rfl := Except.ok.inj hwidths
  obtain ⟨J, hJ, hs⟩ := Outcome.bind_eq_ok.mp hs
  obtain ⟨laws, hlaws, hs⟩ := Outcome.bind_eq_ok.mp hs
  have heq := Outcome.pure_eq_ok.mp hs
  refine ⟨laws, h.places_perm, ?_, ?_, hlaws, ?_, ?_, ?_⟩
  · rw [← heq, h.graph_order, List.zipWith_map_left]
    rfl
  · rw [← heq]
    exact hJ
  all_goals rw [← heq]

namespace Stack.Parts

variable {p : ContactProblem K} {places : List Nat} {q : PartialPermutation} {w : Tensor K}
  {s : Stack K} {laws : List (Vec K × Vec K)} {k : Nat} {c : Constraint K}

/-- The places are those of constraints. -/
theorem lt_of_mem (h : Parts p places q w s laws) : ∀ i ∈ places, i < p.constraints.length :=
  fun _ hi => List.mem_range.mp (h.perm.mem_iff.mp hi)

/-- A block row is as high as its constraint has equations, -/
theorem heights_eq (h : Parts p places q w s laws) :
    s.J.heights = (pick p.constraints places).map (·.equations) :=
  (assemble_eq_ok h.jacobian).1

/-- and a block column as wide as its clique. -/
theorem widths_eq (h : Parts p places q w s laws) :
    s.J.widths = q.inverse.map fun c => p.sizes.getD c 0 :=
  (assemble_eq_ok h.jacobian).2.1

/-- The blocks of the Jacobian are those of the constraints, each at the number of its clique. -/
theorem lists (h : Parts p places q w s laws) : s.J.Lists (placed q (pick p.constraints places)) :=
  (assemble_eq_ok h.jacobian).2.2.2

/-- The Jacobian is stored in the format of the problem. -/
theorem format_eq (h : Parts p places q w s laws) : s.J.format = p.format :=
  (assemble_eq_ok h.jacobian).2.2.1

/-- The height of a row, from the constraint in it. -/
theorem getD_heights (h : Parts p places q w s laws)
    (hk : (pick p.constraints places)[k]? = some c) :
    s.J.heights.getD k 0 = c.equations := by
  rw [h.heights_eq, List.getD_eq_getElem?_getD, List.getElem?_map, hk]
  rfl

/-- The stack has the offset of each constraint. -/
theorem getElem?_offsets (h : Parts p places q w s laws)
    (hk : (pick p.constraints places)[k]? = some c) :
    s.offsets[k]? = some (offset s.J.heights k) := by
  have hlt : k < s.members.length := by
    rw [h.members, List.length_zipWith, length_pick h.lt_of_mem, Nat.min_self,
      ← length_pick h.lt_of_mem]
    exact (List.getElem?_eq_some_iff.mp hk).1
  rw [offsets, List.getElem?_map, size, List.getElem?_range hlt]
  rfl

/-- The law of each constraint has been asked. -/
theorem exists_law (h : Parts p places q w s laws)
    (hk : (pick p.constraints places)[k]? = some c) :
    ∃ law, laws[k]? = some law ∧ lawOf p.timeStep w k c = .ok law :=
  Outcome.getElem?_of_mapM h.mapM_lawOf (getElem?_zipIdx_of_eq hk)

/-- What a law has answered fits its constraint. -/
theorem fits_law (hp : p.WellFormed) (h : Parts p places q w s laws) {law : Vec K × Vec K}
    (hk : laws[k]? = some law) :
    ∃ c ∈ p.constraints, (pick p.constraints places)[k]? = some c ∧
      lawOf p.timeStep w k c = .ok law ∧
      (law.1.size = c.equations ∧ law.1.format = p.format) ∧
        law.2.size = c.equations ∧ law.2.format = p.format := by
  have hlen := Outcome.length_of_mapM h.mapM_lawOf
  rw [List.length_zipIdx] at hlen
  have hlt : k < (pick p.constraints places).length := by
    rw [← hlen]
    exact (List.getElem?_eq_some_iff.mp hk).1
  have hc : (pick p.constraints places)[k]? = some _ := List.getElem?_eq_getElem hlt
  have hmem := (pick_perm h.perm).mem_iff.mp (List.getElem_mem hlt)
  obtain ⟨law', hk', hlaw⟩ := h.exists_law hc
  rw [hk] at hk'
  obtain rfl := Option.some.inj hk'
  obtain ⟨hR, hvHat, -⟩ := of_lawOf hlaw
  rw [hp.constraint_format _ hmem] at hR hvHat
  exact ⟨_, hmem, hc, hlaw, hR, hvHat⟩

/-- The answers of one side of all laws fit the stack when they are joined. -/
theorem fits_side (hp : p.WellFormed) (h : Parts p places q w s laws)
    {side : Vec K × Vec K → Vec K} (hside : side = Prod.fst ∨ side = Prod.snd) :
    (laws.map side).map Vec.size = (pick p.constraints places).map (·.equations) ∧
      ∀ v ∈ laws.map side, v.format = p.format := by
  -- both sides of a law fit in the same way, so the side is left open
  have hfits : ∀ (k : Nat) law, laws[k]? = some law → ∃ c : Constraint K,
      (pick p.constraints places)[k]? = some c ∧
      (side law).size = c.equations ∧ (side law).format = p.format := by
    intro k law hk
    obtain ⟨c, -, hc, -, hR, hvHat⟩ := h.fits_law hp hk
    rcases hside with rfl | rfl
    · exact ⟨c, hc, hR⟩
    · exact ⟨c, hc, hvHat⟩
  have hlen := Outcome.length_of_mapM h.mapM_lawOf
  rw [List.length_zipIdx] at hlen
  constructor
  · apply List.ext_getElem (by simp [hlen])
    intro k hk hk'
    have hlt : k < laws.length := by simpa using hk
    obtain ⟨c, hc, hsize, -⟩ := hfits k _ (List.getElem?_eq_getElem hlt)
    simp [hsize, (List.getElem?_eq_some_iff.mp hc).2]
  · intro v hv
    obtain ⟨law, hlaw, rfl⟩ := List.mem_map.mp hv
    obtain ⟨k, hk⟩ := List.mem_iff_getElem?.mp hlaw
    obtain ⟨c, -, -, hformat⟩ := hfits k law hk
    exact hformat

/-- The regularization and the bias of a constraint are blocks of those of the stack. -/
theorem block_law (hp : p.WellFormed) (h : Parts p places q w s laws) {R vHat : Vec K}
    (hk : laws[k]? = some (R, vHat)) :
    s.R.block s.J.heights k = R ∧ s.vHat.block s.J.heights k = vHat := by
  have hside : ∀ side : Vec K × Vec K → Vec K, side = Prod.fst ∨ side = Prod.snd →
      (Vec.concat p.format (laws.map side)).block s.J.heights k = side (R, vHat) := by
    intro side hside
    obtain ⟨hsizes, hformats⟩ := h.fits_side hp hside
    rw [h.heights_eq, ← hsizes]
    exact Vec.block_concat hformats (by rw [List.getElem?_map, hk]; rfl)
  rw [h.R, h.vHat]
  exact ⟨hside _ (Or.inl rfl), hside _ (Or.inr rfl)⟩

end Stack.Parts

/-- The parts of the stack of a model. -/
abbrev Model.Parts (m : Model K) (p : ContactProblem K) (laws : List (Vec K × Vec K)) : Prop :=
  Stack.Parts p m.order m.cliques m.delassus.toTensor m.stack laws

namespace Model.Steps

variable {p : ContactProblem K} {m : Model K} {Ls : List (CholeskyFactor K)}

/-- A model that was built has a stack that was built. -/
theorem exists_parts (h : Steps p m Ls) : ∃ laws, m.Parts p laws :=
  h.toArranged.exists_parts h.stack

/-- The members of the stack project as the constraints of the problem do. -/
theorem forall_members (h : Steps p m Ls) {P : Projection K → Nat → Prop}
    (hP : ∀ c ∈ p.constraints, P c.projection c.equations) :
    ∀ c ∈ m.stack.members, P c.projection c.equations := by
  obtain ⟨laws, hparts⟩ := h.exists_parts
  intro c hc
  rw [hparts.members] at hc
  obtain ⟨k, hk, rfl⟩ := List.getElem_of_mem hc
  rw [List.getElem_zipWith]
  exact hP _ ((pick_perm h.order_perm).mem_iff.mp (List.getElem_mem _))

/-- There is a member for each constraint. -/
theorem length_members (h : Steps p m Ls) : m.stack.members.length = p.constraints.length := by
  obtain ⟨laws, hparts⟩ := h.exists_parts
  have horder : m.order.length = p.constraints.length := by
    rw [h.order_perm.length_eq, List.length_range]
  rw [hparts.members, List.length_zipWith, length_pick h.lt_of_mem_order, Nat.min_self, horder]

/-- The blocks of a stack are blocks of constraints. -/
theorem mem_placed (h : Steps p m Ls) {t : PlacedBlock K}
    (ht : t ∈ placed m.cliques (pick p.constraints m.order)) :
    ∃ c ∈ p.constraints, ∃ b ∈ c.blocks, t.block = b.jacobian := by
  obtain ⟨i, c, hc, b, hb, rfl⟩ := exists_of_mem_placed ht
  exact ⟨c, (pick_perm h.order_perm).mem_iff.mp (List.mem_of_getElem? hc), b, hb, rfl⟩

/-- The momenta of free motion are the product of the dynamics with the velocities of free motion.
-/
theorem pStar_spec (h : Steps p m Ls) (hp : p.WellFormed) (hf : p.format.isFloating = true) :
    m.pStar.size = m.velocityCount ∧ m.pStar.format = m.format ∧
      ∀ (R : Type) [CommRing R] (φ : Reading K R) (k i : Nat), i < m.sizes.getD k 0 →
        m.pStar.coord φ m.sizes k i = ∑ j ∈ Finset.range (m.sizes.getD k 0),
          φ (entryOf m.dynamics k i j) * m.vStar.coord φ m.sizes k j := by
  have hvStar : m.vStar.size = m.velocityCount ∧ m.vStar.format = p.format := by
    rw [h.vStar_eq, h.size_reduced]
    exact ⟨rfl, rfl⟩
  have hne : m.vStar.format ≠ .boolean := by
    rw [hvStar.2]
    exact ne_boolean_of_floating hf
  have hproduct : ∀ (R : Type) [CommRing R] (φ : Reading K R), m.pStar.size = m.vStar.size ∧
      m.pStar.format = m.vStar.format ∧ ∀ k i, i < m.sizes.getD k 0 →
        m.pStar.coord φ m.sizes k i = ∑ j ∈ Finset.range (m.sizes.getD k 0),
          φ (entryOf m.dynamics k i j) * m.vStar.coord φ m.sizes k j := by
    intro R _ φ
    obtain ⟨w, hw, hspec⟩ := multiplyBlocks_of_fits φ (fun A hA => hp.square A (h.mem_dynamics hA))
      (fun A hA => (hp.dynamics_format A (h.mem_dynamics hA)).trans hvStar.2.symm) hne hvStar.1
    rw [h.pStar] at hw
    obtain rfl := Except.ok.inj hw
    exact hspec
  obtain ⟨hsize, hformat, -⟩ := hproduct PUnit (Reading.trivial K)
  refine ⟨hsize.trans hvStar.1, ?_, fun R _ φ => (hproduct R φ).2.2⟩
  rw [hformat, hvStar.2, h.format]

/-- A model of a problem with constraints holds fractions, since its matrices have been factored. -/
theorem floating (hp : p.WellFormed) (h : Steps p m Ls)
    (hf : p.constraints = [] → p.format.isFloating = true) : p.format.isFloating = true := by
  by_cases hnone : p.constraints = []
  · exact hf hnone
  · obtain ⟨c, hc⟩ := List.exists_mem_of_ne_nil _ hnone
    -- some clique takes part, and its matrix has been factored
    have hfirst : c.first.clique ∈ m.cliques.inverse := by
      refine h.mem_cliques.mpr ⟨c, hc, ?_⟩
      simp [Constraint.cliques, Constraint.blocks]
    obtain ⟨k, hk⟩ := List.mem_iff_getElem?.mp hfirst
    have hlt := h.lt_of_mem_cliques _ hfirst
    have hA := h.getElem?_dynamics hk
    rw [List.getElem?_eq_getElem hlt] at hA
    obtain ⟨L, -, -, hfloating, -⟩ := h.exists_factor hA
    rw [← hp.dynamics_format _ (List.getElem_mem hlt)]
    exact hfloating

/-- **Models of problems.** The parts of a model that was built fit together. -/
theorem wellFormed (hp : p.WellFormed) (hf : p.format.isFloating = true) (h : Steps p m Ls) :
    m.WellFormed (placed m.cliques (pick p.constraints m.order)) := by
  obtain ⟨laws, hparts⟩ := h.exists_parts
  obtain ⟨hRsizes, hRformats⟩ := hparts.fits_side hp (Or.inl rfl)
  obtain ⟨hvsizes, hvformats⟩ := hparts.fits_side hp (Or.inr rfl)
  have hRformat := Vec.format_concat hRformats
  obtain ⟨hpsize, hpformat, hpcoord⟩ := h.pStar_spec hp hf
  have hreal : p.format.real = p.format := if_pos hf
  -- the heights of the Jacobian are the sizes of the members
  have hmembers : m.stack.members.map (·.equations) =
      (pick p.constraints m.order).map (·.equations) := by
    rw [hparts.members, List.map_zipWith]
    refine List.ext_getElem ?_ fun k hk hk' => ?_
    · simp [length_pick h.lt_of_mem_order]
    · simp
  have hRsize : m.stack.R.size = total m.stack.J.heights := by
    rw [hparts.R, Vec.size_concat, hRsizes, hparts.heights_eq]
  exact {
    floating := by rw [h.format]; exact hf
    square := fun A hA => hp.square A (h.mem_dynamics hA)
    dynamics_format := fun A hA => by rw [h.format]; exact hp.dynamics_format A (h.mem_dynamics hA)
    vStar_size := by rw [h.vStar_eq, h.size_reduced]
    vStar_format := by rw [h.vStar_eq, h.format]; rfl
    pStar_size := hpsize
    pStar_format := hpformat
    pStar_coord := hpcoord
    lists := hparts.lists
    heights := by rw [hparts.heights_eq, hmembers]
    widths := hparts.widths_eq.trans h.sizes_eq.symm
    block_format := fun t ht => by
      obtain ⟨c, hc, b, hb, htb⟩ := h.mem_placed ht
      rw [htb, (hp.constraint c hc).format b hb, hp.constraint_format c hc, h.format]
    R_size := hRsize
    R_format := by rw [hparts.R, hRformat, h.format]
    vHat_size := by rw [hparts.vHat, Vec.size_concat, hvsizes, hparts.heights_eq]
    vHat_format := by rw [hparts.vHat, Vec.format_concat hvformats, h.format]
    Rinv_size := by
      rw [hparts.Rinv, ← hRsize]
      exact List.length_map _
    Rinv_format := by
      rw [hparts.Rinv, h.format, ← hreal, ← hRformat, ← hparts.R]
      rfl }

/-- Full velocities of a problem fit the model once they are reduced. -/
theorem fits_reduced (h : Steps p m Ls) {V : Vec K} (hV : V.format = p.format) :
    m.Fits (reduced m V) :=
  ⟨h.size_reduced V, hV.trans h.format.symm⟩

end Model.Steps

end ConvexContact
