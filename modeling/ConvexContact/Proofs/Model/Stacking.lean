import ConvexContact.Proofs.Model.Assembly

/-!
# What a stack holds

A stack that was built for estimates `w` holds every constraint of its problem once. Block row `k`
belongs to the constraint at place `k` of the order of the clusters (`Stack.HoldsAt`):

* the dense Jacobian has in its rows, under the columns of each clique that takes part, the Jacobian
  that the constraint has for the clique, and zeros where it does not couple the clique;
* the regularization and the bias have in its rows what the law of the constraint answers for
  estimate `k`.

A block that has the format of the problem is joined as it is, so the entries are those that the
constraints have and that the laws have answered, also where numbers are rounded.

Proof shape: `Stack.Parts.block?_eq` says which block stands where, and `get_toDense` reads it entry
by entry. The laws are read by their blocks. `Stack.Parts.holdsAt` puts both together for one row.

Main statement: `Stack.holds_of_build`.
-/

namespace ConvexContact

variable {K : Type} [Arith K]

/-! ## Rows of a stack -/

/-- The Jacobian of a constraint for a clique, if it couples the clique. -/
def Constraint.jacobianFor (c : Constraint K) (clique : Nat) : Option (Mat K) :=
  (c.blocks.find? (·.clique = clique)).map (·.jacobian)

/-- Block row `k` of a stack that was built for estimates `w` is constraint `c`, and begins at row
`first`; `q` numbers the cliques that take part. -/
structure Stack.HoldsAt (p : ContactProblem K) (q : PartialPermutation) (w : Tensor K)
    (s : Stack K) (k : Nat) (c : Constraint K) (first : Nat) : Prop where
  offset : s.offsets[k]? = some first
  jacobian : ∀ j x : Nat, q.inverse[j]? = some x → ∃ left right,
    BlockGrid.sliceAt s.J.widths j = (.ok (left, right) : Except (Error K) _) ∧
      right = left + p.sizes.getD x 0 ∧
      ∀ l < c.equations, ∀ a < p.sizes.getD x 0, s.J.toDense.get (first + l) (left + a) =
        (c.jacobianFor x).elim 0 fun A => A.get l a
  law : ∃ wk R vHat, Stack.estimateAt w k = .ok wk ∧ c.regularization p.timeStep wk = .ok R ∧
    c.bias p.timeStep wk = .ok vHat ∧
      ∀ l < c.equations, s.R.get (first + l) = R.get l ∧ s.vHat.get (first + l) = vHat.get l

namespace Stack.Parts

variable {p : ContactProblem K} {g : ClusterGraph} {q : PartialPermutation} {w : Tensor K}
  {s : Stack K} {laws : List (Vec K × Vec K)} {k j x : Nat} {c : Constraint K}

/-- A block row has, in the column of each clique, the Jacobian of the constraint for the clique. -/
theorem block?_eq (hp : p.WellFormed) (h : p.Arranged g q)
    (hparts : Parts p g.places q w s laws) (hk : (pick p.constraints g.places)[k]? = some c)
    (hj : q.inverse[j]? = some x) : s.J.block? k j = c.jacobianFor x := by
  have hnumber : q.number? x = some j := (h.cliques_valid.number?_eq_some_iff x j).mpr hj
  rw [Constraint.jacobianFor]
  cases hfind : c.blocks.find? (·.clique = x) with
  | none =>
    -- a block in this place would be one that the constraint has for the clique
    cases hB : s.J.block? k j with
    | none => rfl
    | some B =>
      obtain ⟨c', hc', b, hb, hclique, -⟩ :=
        h.clique_of_mem_placed (hparts.lists.mem_of_block? hB)
      obtain rfl := Option.some.inj (hk.symm.trans hc')
      obtain rfl := Option.some.inj (hj.symm.trans hclique)
      exact absurd (decide_eq_true rfl) (List.find?_eq_none.mp hfind b hb)
  | some b =>
    have hb := List.mem_of_find?_eq_some hfind
    -- the block that the constraint has was stored here
    have hclique : b.clique = x := by simpa using List.find?_some hfind
    have hplace : placeOf q k b = ⟨k, j, b.jacobian⟩ := by
      rw [placeOf, hclique, hnumber]
      rfl
    refine hparts.lists.block?_of_mem (h.scattered hp) ?_
    rw [← hplace]
    exact List.mem_flatMap.mpr
      ⟨(c, k), List.mem_zipIdx_iff_getElem?.mpr hk, List.mem_map_of_mem hb⟩

/-- The dense Jacobian has in the rows of a constraint the Jacobians of the constraint. -/
theorem get_toDense (hp : p.WellFormed) (h : p.Arranged g q)
    (hparts : Parts p g.places q w s laws) (hk : (pick p.constraints g.places)[k]? = some c)
    (hj : q.inverse[j]? = some x) {l a : Nat} (hl : l < c.equations) (ha : a < p.sizes.getD x 0) :
    s.J.toDense.get (offset s.J.heights k + l) (offset s.J.widths j + a) =
      (c.jacobianFor x).elim 0 fun A => A.get l a := by
  have hformat : ∀ t ∈ placed q (pick p.constraints g.places), t.block.format = s.J.format := by
    intro t ht
    obtain ⟨i, d, hd, b, hb, rfl⟩ := exists_of_mem_placed ht
    have hdmem := h.mem_of_getElem?_pick hd
    rw [hparts.format_eq, ← hp.constraint_format d hdmem]
    exact (hp.constraint d hdmem).format b hb
  have hwidth : s.J.widths.getD j 0 = p.sizes.getD x 0 := by
    rw [hparts.widths_eq, List.getD_eq_getElem?_getD, List.getElem?_map, hj]
    rfl
  rw [hparts.lists.get_toDense hformat (by rw [hparts.getD_heights hk]; exact hl)
    (by rw [hwidth]; exact ha), BlockGrid.entry, hparts.block?_eq hp h hk hj]

/-- The regularization is positive. -/
theorem regularization_pos (hp : p.WellFormed) (hparts : Parts p g.places q w s laws) :
    ∀ x ∈ s.R.entries, Arith.lt 0 x = true := by
  obtain ⟨-, hformats⟩ := hparts.fits_side hp (Or.inl rfl)
  intro x hx
  rw [hparts.R, Vec.entries_concat, Vec.format_concat hformats] at hx
  obtain ⟨R, hR, hx⟩ := List.mem_flatMap.mp hx
  rw [← hformats R hR, Vec.entriesIn_self] at hx
  obtain ⟨law, hlaw, rfl⟩ := List.mem_map.mp hR
  obtain ⟨k, hk⟩ := List.mem_iff_getElem?.mp hlaw
  obtain ⟨c, -, -, hlawOf, -⟩ := hparts.fits_law hp hk
  exact (of_lawOf hlawOf).2.2 x hx

/-- As many blocks are stored as the constraints have cliques. -/
theorem count_eq (hparts : Parts p g.places q w s laws) :
    s.J.count = (p.constraints.map fun c => c.cliques.length).sum := by
  have hplaced : (placed q (pick p.constraints g.places)).length =
      ((pick p.constraints g.places).map fun c => c.cliques.length).sum := by
    rw [placed, List.length_flatMap, ← List.zipIdx_map_fst 0 (pick p.constraints g.places),
      List.map_map, List.zipIdx_map_fst]
    refine congrArg List.sum (List.map_congr_left fun ck _ => ?_)
    simp [Constraint.cliques]
  rw [hparts.lists.count, hplaced]
  exact ((pick_perm hparts.perm).map _).sum_eq

/-- **Rows.** A block row holds its constraint. -/
theorem holdsAt (hp : p.WellFormed) (h : p.Arranged g q)
    (hparts : Parts p g.places q w s laws) (hk : (pick p.constraints g.places)[k]? = some c) :
    s.HoldsAt p q w k c (ConvexContact.offset s.J.heights k) := by
  constructor
  case offset => exact hparts.getElem?_offsets hk
  case jacobian =>
    intro j x hj
    have hwidth : s.J.widths[j]? = some (p.sizes.getD x 0) := by
      rw [hparts.widths_eq, List.getElem?_map, hj]
      rfl
    exact ⟨_, _, BlockGrid.sliceAt_of_lt (List.getElem?_eq_some_iff.mp hwidth).1,
      offset_succ hwidth, fun l hl a ha => hparts.get_toDense hp h hk hj hl ha⟩
  case law =>
    obtain ⟨⟨R, vHat⟩, hlaw, hlawOf⟩ := hparts.exists_law hk
    obtain ⟨hR, hvHat⟩ := hparts.block_law hp hlaw
    -- the law was asked for this estimate, and its answers are blocks of the joined vectors
    obtain ⟨wk, hwk, hlawOf⟩ := Outcome.bind_eq_ok.mp hlawOf
    obtain ⟨R', hregularization, hlawOf⟩ := Outcome.bind_eq_ok.mp hlawOf
    obtain ⟨vHat', hbias, hlawOf⟩ := Outcome.bind_eq_ok.mp hlawOf
    obtain ⟨rfl, rfl⟩ := Prod.mk.inj (Outcome.pure_eq_ok.mp hlawOf)
    refine ⟨wk, R', vHat', hwk, hregularization, hbias, fun l hl => ?_⟩
    have hheight : l < s.J.heights.getD k 0 := by
      rw [hparts.getD_heights hk]
      exact hl
    rw [← Vec.get_block hheight, hR, ← Vec.get_block hheight, hvHat]
    exact ⟨rfl, rfl⟩

end Stack.Parts

/-- **Stacks.** A stack that was built for estimates of a problem that can be met holds the
constraints of the problem, each once and in the order of the clusters. -/
theorem Stack.holds_of_build {p : ContactProblem K} (hp : p.Constructed) {w : Tensor K}
    {s : Stack K} (hs : build? p w = .ok s) :
    ∃ g q cs, p.graph = .ok g ∧ g.numbering = (.ok q : Except (Error K) _) ∧
      g.order.Perm ((List.range p.constraints.length).map Int.ofNat) ∧
      g.order.mapM p.constraintAt = .ok cs ∧
      s.members =
        List.zipWith (fun i c => ⟨i.toNat, c.cliques, c.equations, c.projection⟩) g.order cs ∧
      (∀ k c, cs[k]? = some c → ∃ first, s.HoldsAt p q w k c first) ∧
      (s.J.toDense.rows = p.equationCount ∧
        s.J.toDense.cols = total (q.inverse.map fun x => p.sizes.getD x 0) ∧
        s.R.size = p.equationCount ∧ s.vHat.size = p.equationCount) ∧
      (∀ x ∈ s.R.entries, Arith.lt 0 x = true) ∧
      s.J.count = (p.constraints.map fun c => c.cliques.length).sum := by
  have hwf := hp.wellFormed
  obtain ⟨g, q, h⟩ := hwf.exists_arranged
  obtain ⟨laws, hparts⟩ := h.exists_parts hs
  have hmembers : s.members = List.zipWith
      (fun i c => ⟨i.toNat, c.cliques, c.equations, c.projection⟩) g.order
        (pick p.constraints g.places) := by
    rw [hparts.members, h.graph_order, List.zipWith_map_left]
    rfl
  have horder : g.order.Perm ((List.range p.constraints.length).map Int.ofNat) := by
    rw [h.graph_order]
    exact h.places_perm.map _
  have hequations : total ((pick p.constraints g.places).map (·.equations)) = p.equationCount := by
    rw [hp.equationCount_eq, total_eq_sum, total_eq_sum]
    exact ((pick_perm h.places_perm).map _).sum_eq
  have hheights : total s.J.heights = p.equationCount := by
    rw [hparts.heights_eq, hequations]
  have hRsize : s.R.size = p.equationCount := by
    rw [hparts.R, Vec.size_concat, (hparts.fits_side hwf (Or.inl rfl)).1, hequations]
  have hvHatsize : s.vHat.size = p.equationCount := by
    rw [hparts.vHat, Vec.size_concat, (hparts.fits_side hwf (Or.inr rfl)).1, hequations]
  exact ⟨g, q, pick p.constraints g.places, h.graph, h.cliques, horder, h.mapM_constraintAt,
    hmembers, fun k c hk => ⟨_, hparts.holdsAt hwf h hk⟩,
    ⟨hheights, congrArg total hparts.widths_eq, hRsize, hvHatsize⟩,
    hparts.regularization_pos hwf, hparts.count_eq⟩

/-- The stack of constraints that name their cliques in either order, one of them added twice. -/
theorem Stack.holds_of_build_sample :
    ∃ (p : ContactProblem ℚ) (s : Stack ℚ) (g : ClusterGraph) (q : PartialPermutation)
      (cs : List (Constraint ℚ)), ContactProblem.interleavedSample? = .ok p ∧
      build? p (Vec.mk .double [1, 2, 3, 4, 5]).toTensor = .ok s ∧
      p.graph = .ok g ∧ g.numbering = (.ok q : Except (Error ℚ) _) ∧
      g.order.mapM p.constraintAt = .ok cs ∧
      (∀ k c, cs[k]? = some c → ∃ first,
        s.HoldsAt p q (Vec.mk .double [1, 2, 3, 4, 5]).toTensor k c first) ∧ s.J.count = 8 := by
  obtain ⟨p, hp, h⟩ := Outcome.exists_of_check (x := ContactProblem.interleavedSample?)
    (P := fun p => p.constraints.map (fun c => c.cliques.length) == [1, 2, 1, 2, 2] &&
      (build? p (Vec.mk .double [1, 2, 3, 4, 5]).toTensor).toOption.any fun _ => true)
    (by decide +kernel)
  simp only [Bool.and_eq_true, beq_iff_eq] at h
  obtain ⟨hcliques, h⟩ := h
  obtain ⟨s, hs, -⟩ := Outcome.exists_of_check h
  obtain ⟨g, q, cs, hg, hq, -, hcs, -, hrows, -, -, hcount⟩ :=
    holds_of_build (ContactProblem.constructed_interleavedSample hp) hs
  rw [hcliques] at hcount
  exact ⟨p, s, g, q, cs, hp, hs, hg, hq, hcs, hrows, hcount⟩

end ConvexContact
