import Mathlib.Algebra.Order.Field.Basic
import Mathlib.Algebra.BigOperators.Group.List.Basic
import ConvexContact.Proofs.Evaluation.Session
import ConvexContact.Proofs.Model.Responses
import ConvexContact.Proofs.Rearrangement

/-!
# Reduced models and unreduced problems

At velocities that are gathered from full velocities `V`, a model that was built from a problem says
what the problem says without it (`ConvexContact.Proofs.Unreduced`):

* its impulses, put back in their places, are the responses of the constraints, joined in the order
  in which these were added;
* its cost is the cost of the problem;
* its gradient, put back in its place, is the gradient of the problem, which is zero for the cliques
  that are not coupled.

Three orders meet here, those of the cliques, of the constraints and of the equations. The order of
the stack is undone by `pick`: sums over picked lists are sums over the whole lists.

Proof shape: `impulses_eq_ok` from the module on responses says what the impulses are in the order
of the stack. Each quantity is then an equation between a sum over numbers and a sum over cliques or
constraints: `sum_cliques` for the momentum, `sum_regularizer_eq` for the responses,
`sum_backward_eq` for what they push back.
-/

namespace ConvexContact

/-! ## Joined in another order

The stack joins the responses in its own order and the statement in that of the problem. Entries
move, but the common format does not depend on the order. -/

namespace Vec

variable {K : Type} [Arith K] {vs ws : List (Vec K)}

/-- The format of joined vectors is the widest of theirs. -/
theorem format_concat_eq_foldl (f : Format) (hne : vs ≠ []) :
    (concat f vs).format = (vs.map (·.format)).foldl Format.join .boolean := by
  cases vs with
  | nil => exact absurd rfl hne
  | cons v vs =>
    -- the narrowest format is neutral
    have hstart : Format.join .boolean v.format = v.format := by cases v.format <;> rfl
    rw [List.map_cons, List.foldl_cons, hstart, List.foldl_map]
    rfl

/-- The format of joined vectors does not depend on their order. -/
theorem format_concat_perm (f : Format) (h : vs.Perm ws) :
    (concat f vs).format = (concat f ws).format := by
  by_cases hne : vs = []
  · subst hne
    rw [h.symm.eq_nil]
  · have hne' : ws ≠ [] := fun hws => hne (by rw [hws] at h; exact h.eq_nil)
    rw [format_concat_eq_foldl f hne, format_concat_eq_foldl f hne']
    refine (h.map _).foldl_eq' (fun a _ b _ c => ?_) _
    rw [Format.join_assoc, Format.join_comm a b, ← Format.join_assoc]

end Vec

variable {K : Type} [ExactField K]

namespace Model.Steps

variable {p : ContactProblem K} {m : Model K} {Ls : List (CholeskyFactor K)} {V : Vec K}
  {rs : List (Response K)}

/-! ## Impulses -/

/-- The model has impulses when every constraint responds. -/
theorem exists_impulses_iff (hp : p.WellFormed) (hf : p.format.isFloating = true)
    (h : Steps p m Ls) (hV : V.format = p.format) :
    (∃ γ, m.valueAt (reduced m V) .impulses = .ok γ) ↔
      ∃ rs, List.Forall₂ (p.Responds V) p.constraints rs := by
  constructor
  -- a response is not unique a priori, so one is chosen for each constraint of the problem
  · rintro ⟨γ, hγ⟩
    obtain ⟨rs, hrs, -⟩ := (impulses_eq_ok hp hf h hV).mp hγ
    apply exists_forall₂
    intro c hc
    obtain ⟨r, -, hr⟩ := exists_of_forall₂ hrs ((pick_perm h.order_perm).mem_iff.mpr hc)
    exact ⟨r, hr⟩
  · rintro ⟨rs, hrs⟩
    exact ⟨_, (impulses_eq_ok hp hf h hV).mpr ⟨_, forall₂_pick_pick hrs m.order, rfl⟩⟩

/-- The impulses of the model, where the responses are known. -/
theorem impulses_of_responds (hp : p.WellFormed) (hf : p.format.isFloating = true)
    (h : Steps p m Ls) (hV : V.format = p.format)
    (hrs : List.Forall₂ (p.Responds V) p.constraints rs) :
    m.valueAt (reduced m V) .impulses =
      .ok (Vec.concat p.format ((pick rs m.order).map (·.γ))) :=
  (impulses_eq_ok hp hf h hV).mpr ⟨_, forall₂_pick_pick hrs m.order, rfl⟩

/-- Putting responses in the order of the stack neither drops nor repeats one. -/
theorem pick_responses_perm (h : Steps p m Ls)
    (hrs : List.Forall₂ (p.Responds V) p.constraints rs) : (pick rs m.order).Perm rs :=
  pick_perm (by rw [← hrs.length_eq]; exact h.order_perm)

/-- The impulses go back to the equations of their constraints. -/
theorem scatter_impulses (h : Steps p m Ls)
    (hrs : List.Forall₂ (p.Responds V) p.constraints rs) :
    m.impulses.scatterTensorOntoZeros
      (Vec.concat p.format ((pick rs m.order).map (·.γ))).toTensor =
        .ok (Vec.concat p.format (rs.map (·.γ))).toTensor := by
  obtain ⟨hvalid, hdomain, hinverse⟩ := h.impulses_spec
  generalize hw : Vec.concat p.format ((pick rs m.order).map (·.γ)) = w
  generalize hfull : Vec.concat p.format (rs.map (·.γ)) = full
  obtain ⟨hsizes, -⟩ := ContactProblem.map_size_of_responds hrs
  have hfullsize : full.size = m.impulses.domainSize := by
    rw [← hfull, hdomain, ← hsizes, Vec.size_concat]
  have hformat : w.format = full.format := by
    rw [← hw, ← hfull]
    exact Vec.format_concat_perm _ ((h.pick_responses_perm hrs).map _)
  -- the entries are those of all responses, joined, at the indices of the chosen blocks
  have hentries : w = ⟨full.format, m.impulses.inverse.map full.get⟩ := by
    have hlengths : ((rs.map (·.γ)).map (·.entries)).map List.length =
        p.constraints.map (·.equations) := by
      rw [← hsizes, List.map_map]
      rfl
    have hinside : ∀ i ∈ m.order, i < ((rs.map (·.γ)).map (·.entries)).length := by
      intro i hi
      rw [List.length_map, List.length_map, ← hrs.length_eq]
      exact h.lt_of_mem_order i hi
    have hflat := flatten_pick hinside 0
    rw [hlengths, ← Vec.entries_concat_exact p.format, hfull, ← map_pick, ← map_pick,
      ← Vec.entries_concat_exact p.format, hw, ← hinverse] at hflat
    rw [← hformat]
    exact congrArg (Vec.mk w.format) hflat
  -- no equation is left blank
  have hall : ∀ i, i < m.impulses.domainSize → i ∈ m.impulses.inverse := by
    intro i hi
    refine h.impulses_spec.mem_inverse (fun k hk => ?_) hi
    rw [List.length_map] at hk
    exact h.order_perm.mem_iff.mpr (List.mem_range.mpr hk)
  have hsize : w.size = m.impulses.size := by
    rw [hentries]
    exact List.length_map _
  rw [hvalid.scatterTensorOntoZeros_toTensor hsize, hentries,
    PartialPermutation.spread_map hvalid]
  refine congrArg (fun v : Vec K => Except.ok v.toTensor) (congrArg (Vec.mk full.format) ?_)
  refine List.ext_getElem (by rw [List.length_map, List.length_range]; exact hfullsize.symm)
    fun i hi hi' => ?_
  have hi'' : i < m.impulses.domainSize := by simpa using hi
  rw [List.getElem_map, List.getElem_range, if_pos (hall i hi''), Vec.get,
    List.getD_eq_getElem _ _ hi']

/-! ## Cost

Both terms are sums over numbers in the model and sums over cliques or constraints in the problem.
The numbering makes one sum a rearrangement of the other. -/

/-- Sums over the numbers of cliques are sums over the coupled cliques. -/
theorem sum_cliques (h : Steps p m Ls) (F : Nat → K) :
    ∑ k ∈ Finset.range m.sizes.length, F (m.cliques.inverse.getD k 0) = ∑ c ∈ p.coupled, F c := by
  have hcoupled : m.cliques.inverse.toFinset = p.coupled := by
    ext c
    rw [List.mem_toFinset, h.mem_cliques, ContactProblem.mem_coupled]
  rw [h.sizes_eq, List.length_map, ← sum_map_eq_sum_range, ← hcoupled,
    List.sum_toFinset _ h.cliques_valid.nodup]

/-- A number of a clique names a clique. -/
theorem getElem?_inverse (h : Steps p m Ls) {k : Nat} (hk : k < m.sizes.length) :
    m.cliques.inverse[k]? = some (m.cliques.inverse.getD k 0) := by
  rw [h.sizes_eq, List.length_map] at hk
  rw [List.getElem?_eq_getElem hk, List.getD_eq_getElem _ _ hk]

/-- The differences of the velocities are those of the clique. -/
theorem coord_sub_vStar (h : Steps p m Ls) {k c l : Nat} (hk : m.cliques.inverse[k]? = some c)
    (hl : l < p.cliqueSize c) :
    (reduced m V).coord Reading.exact m.sizes k l - m.vStar.coord Reading.exact m.sizes k l =
      p.velocity V c l - p.velocity p.vStar c l := by
  rw [h.vStar_eq, h.coord_reduced Reading.exact V hk hl,
    h.coord_reduced Reading.exact p.vStar hk hl]
  rfl

/-- The gain of momentum of a clique. -/
theorem sum_dynamics_eq (h : Steps p m Ls) {k c : Nat} (hk : m.cliques.inverse[k]? = some c)
    (i : Nat) :
    ∑ j ∈ Finset.range (m.sizes.getD k 0), Reading.exact (entryOf m.dynamics k i j) *
        ((reduced m V).coord Reading.exact m.sizes k j -
          m.vStar.coord Reading.exact m.sizes k j) = p.gain V c i := by
  rw [h.getD_sizes hk]
  apply Finset.sum_congr rfl
  intro j hj
  rw [coord_sub_vStar h hk (Finset.mem_range.mp hj), entryOf, h.getElem?_dynamics hk]
  rfl

/-- The blocks of joined responses are the responses. -/
theorem coord_responses (h : Steps p m Ls) {rs : List (Response K)}
    (hrs : List.Forall₂ (p.Responds V) (pick p.constraints m.order) rs) {k l : Nat}
    {c : Constraint K} {r : Response K} (hk : rs[k]? = some r) (hr : p.Responds V c r)
    (hl : l < c.equations) :
    (Vec.concat p.format (rs.map (·.γ))).coord Reading.exact m.stack.J.heights k l = r.γ.get l ∧
      (Vec.concat p.format (rs.map (·.R))).coord Reading.exact m.stack.J.heights k l =
        r.R.get l := by
  obtain ⟨laws, hparts⟩ := h.exists_parts
  obtain ⟨hγsizes, hRsizes⟩ := ContactProblem.map_size_of_responds hrs
  rw [← hparts.heights_eq] at hγsizes hRsizes
  constructor
  · rw [← hγsizes]
    exact Vec.coord_concat Reading.exact (by rw [List.getElem?_map, hk]; rfl)
      (by rw [hr.size]; exact hl)
  · rw [← hRsizes]
    exact Vec.coord_concat Reading.exact (by rw [List.getElem?_map, hk]; rfl)
      (by rw [hr.size_R]; exact hl)

/-- The regularizer term, response by response in the order of the stack. -/
theorem sum_regularizer_eq (hp : p.WellFormed) (h : Steps p m Ls) {rs : List (Response K)}
    (hrs : List.Forall₂ (p.Responds V) (pick p.constraints m.order) rs) {γ : Vec K}
    (hγ : γ = Vec.concat p.format (rs.map (·.γ))) :
    ∑ i ∈ Finset.range m.stack.J.heights.length,
      ∑ l ∈ Finset.range (m.stack.J.heights.getD i 0),
        γ.coord Reading.exact m.stack.J.heights i l *
          m.stack.R.coord Reading.exact m.stack.J.heights i l *
            γ.coord Reading.exact m.stack.J.heights i l =
      (rs.map fun r => ∑ l ∈ Finset.range r.γ.size, r.γ.get l * r.R.get l * r.γ.get l).sum := by
  obtain ⟨laws, hparts⟩ := h.exists_parts
  have hlen : m.stack.J.heights.length = rs.length := by
    rw [hparts.heights_eq, List.length_map, hrs.length_eq]
  rw [hlen, sum_map_eq_sum_range _ rs ⟨⟨p.format, []⟩, ⟨p.format, []⟩, ⟨p.format, []⟩⟩]
  apply Finset.sum_congr rfl
  intro k hk
  have hkr : k < rs.length := Finset.mem_range.mp hk
  have hkc : k < (pick p.constraints m.order).length := by rw [hrs.length_eq]; exact hkr
  have hr : p.Responds V _ rs[k] := List.forall₂_iff_get.mp hrs |>.2 k hkc hkr
  have hheight := hparts.getD_heights (List.getElem?_eq_getElem hkc)
  rw [List.getD_eq_getElem _ _ hkr, hheight, hr.size]
  apply Finset.sum_congr rfl
  intro l hl
  obtain ⟨hγcoord, hRcoord⟩ := h.coord_responses hrs (List.getElem?_eq_getElem hkr) hr
    (Finset.mem_range.mp hl)
  rw [← hγ] at hγcoord
  rw [← R_eq_of_responds hp h hrs] at hRcoord
  rw [hγcoord, hRcoord]

/-- **Cost.** The cost of the model is the cost of the problem. -/
theorem cost_of_responds (hp : p.WellFormed) (hf : p.format.isFloating = true) (h : Steps p m Ls)
    (hV : V.format = p.format) (hrs : List.Forall₂ (p.Responds V) p.constraints rs) :
    ∃ x, m.valueAt (reduced m V) .cost = .ok x ∧ x.value = p.cost V rs := by
  have hwf := wellFormed hp hf h
  have hfits := h.fits_reduced hV
  obtain ⟨x, hx, hvalue⟩ :=
    hwf.exists_cost Reading.exact hfits (impulses_of_responds hp hf h hV hrs)
  refine ⟨x, hx, ?_⟩
  have hmomentum : ∑ k ∈ Finset.range m.sizes.length, ∑ i ∈ Finset.range (m.sizes.getD k 0),
      ((reduced m V).coord Reading.exact m.sizes k i - m.vStar.coord Reading.exact m.sizes k i) *
        ∑ j ∈ Finset.range (m.sizes.getD k 0), Reading.exact (entryOf m.dynamics k i j) *
          ((reduced m V).coord Reading.exact m.sizes k j -
            m.vStar.coord Reading.exact m.sizes k j) =
      ∑ c ∈ p.coupled, ∑ a ∈ Finset.range (p.cliqueSize c),
        (p.velocity V c a - p.velocity p.vStar c a) * p.gain V c a := by
    rw [← h.sum_cliques]
    apply Finset.sum_congr rfl
    intro k hk
    have hk := h.getElem?_inverse (Finset.mem_range.mp hk)
    apply Finset.sum_congr (by rw [h.getD_sizes hk]; rfl)
    intro i hi
    rw [sum_dynamics_eq h hk, coord_sub_vStar h hk (Finset.mem_range.mp hi)]
  have hregularizer := sum_regularizer_eq hp h (forall₂_pick_pick hrs m.order) rfl
  -- a sum over responses does not see the order of the stack
  have hperm := ((h.pick_responses_perm hrs).map fun r =>
    ∑ l ∈ Finset.range r.γ.size, r.γ.get l * r.R.get l * r.γ.get l).sum_eq
  rw [hmomentum, hregularizer, hperm, Reading.exact_apply, Reading.exact_apply,
    Arith.half_exact] at hvalue
  exact hvalue

/-! ## Gradient

Cliques that take part are compared by their numbers. The others have no number, so scattering
leaves a zero there, and the gradient of the problem is zero by definition. -/

/-- The blocks in the column of a clique are the blocks that name the clique. -/
theorem filter_col_placed (h : Steps p m Ls) {k c : Nat} (hk : m.cliques.inverse[k]? = some c) :
    (placed m.cliques (pick p.constraints m.order)).filter (fun t => t.col = k) =
      (pick p.constraints m.order).zipIdx.flatMap fun (con, i) =>
        (con.blocks.filter fun b => b.clique = c).map (placeOf m.cliques i) := by
  rw [placed, List.filter_flatMap, List.flatMap, List.flatMap]
  refine congrArg List.flatten (List.map_congr_left ?_)
  rintro ⟨con, i⟩ hcon
  have hmem : con ∈ p.constraints :=
    (pick_perm h.order_perm).mem_iff.mp (List.fst_mem_of_mem_zipIdx hcon)
  rw [List.filter_map]
  refine congrArg _ (List.filter_congr fun b hb => ?_)
  obtain ⟨j, hj, hinverse⟩ := h.number?_of_mem hmem hb
  -- a clique has one number, and a number one clique
  have hcol : (placeOf m.cliques i b).col = k ↔ b.clique = c := by
    rw [placeOf, hj, Option.getD_some]
    constructor
    · rintro rfl
      rw [hinverse] at hk
      exact Option.some.inj hk
    · rintro rfl
      rw [(h.cliques_valid.number?_eq_some_iff _ _).mpr hk] at hj
      exact (Option.some.inj hj).symm
  exact decide_eq_decide.mpr hcol

/-- What the blocks in the column of a clique add up to is the momentum that the constraints give to
the clique. -/
theorem sum_backward_eq (hp : p.WellFormed) (h : Steps p m Ls)
    (hrs : List.Forall₂ (p.Responds V) p.constraints rs) {γ : Vec K}
    (hγ : γ = Vec.concat p.format ((pick rs m.order).map (·.γ))) {k c : Nat}
    (hk : m.cliques.inverse[k]? = some c) (a : Nat) :
    (((placed m.cliques (pick p.constraints m.order)).filter fun t => t.col = k).map
      (PlacedBlock.backward Reading.exact m.stack.J.heights γ a)).sum = p.push rs c a := by
  have hpicked := forall₂_pick_pick hrs m.order
  -- place by place: the block of the impulses that belongs to a constraint is its response
  have hstack : (pick p.constraints m.order).zipIdx.map (fun ci : Constraint K × Nat =>
      (((ci.1.blocks.filter fun b => b.clique = c).map (placeOf m.cliques ci.2)).map
        (PlacedBlock.backward Reading.exact m.stack.J.heights γ a)).sum) =
      ((pick p.constraints m.order).zip (pick rs m.order)).map fun cr : Constraint K × Response K =>
        ((cr.1.blocks.filter fun b => b.clique = c).map fun b =>
          ∑ l ∈ Finset.range cr.1.equations, b.jacobian.get l a * cr.2.γ.get l).sum := by
    apply List.ext_getElem (by simp [hpicked.length_eq])
    intro i hi hi'
    have hic : i < (pick p.constraints m.order).length := by simpa using hi
    have hir : i < (pick rs m.order).length := by rw [← hpicked.length_eq]; exact hic
    have hr : p.Responds V _ (pick rs m.order)[i] :=
      List.forall₂_iff_get.mp hpicked |>.2 i hic hir
    have hcon := (pick_perm h.order_perm).mem_iff.mp (List.getElem_mem hic)
    simp only [List.getElem_map, List.getElem_zipIdx, List.getElem_zip, Nat.zero_add, List.map_map]
    refine congrArg List.sum (List.map_congr_left fun b hb => ?_)
    have hrows := (hp.constraint _ hcon).rows b (List.mem_filter.mp hb).1
    rw [Function.comp_apply, PlacedBlock.backward]
    apply Finset.sum_congr (congrArg Finset.range hrows)
    intro l hl
    obtain ⟨hcoord, -⟩ := h.coord_responses hpicked (List.getElem?_eq_getElem hir) hr
      (Finset.mem_range.mp hl)
    rw [← hγ] at hcoord
    exact congrArg _ hcoord
  rw [filter_col_placed h hk, List.map_flatMap, List.flatMap, List.sum_flatten, List.map_map]
  have hperm :
      ((pick p.constraints m.order).zip (pick rs m.order)).Perm (p.constraints.zip rs) := by
    rw [zip_pick hrs.length_eq]
    refine pick_perm ?_
    rw [List.length_zip, ← hrs.length_eq, Nat.min_self]
    exact h.order_perm
  exact (congrArg List.sum hstack).trans (hperm.map _).sum_eq

/-- **Gradient.** The gradient of the model, put back in its place, is that of the problem. -/
theorem scatter_gradient (hp : p.WellFormed) (hf : p.format.isFloating = true)
    (h : Steps p m Ls) (hV : V.format = p.format)
    (hrs : List.Forall₂ (p.Responds V) p.constraints rs) {g : Vec K}
    (hg : m.valueAt (reduced m V) .costGradient = .ok g) :
    ∃ G : Vec K, m.velocities.scatterTensorOntoZeros g.toTensor = .ok G.toTensor ∧
      G.size = p.velocityCount ∧
        ∀ c a, a < p.cliqueSize c → p.velocity G c a = p.slope V rs c a := by
  have hwf := wellFormed hp hf h
  have hfits := h.fits_reduced hV
  obtain ⟨hvalid, hdomain, hinverse⟩ := h.velocities_spec
  obtain ⟨hsize, hcoord⟩ := hwf.coord_gradient Reading.exact hfits
    (impulses_of_responds hp hf h hV hrs) hg
  have hgsize : g.size = m.velocities.size := by
    rw [hsize, ← h.size_reduced V]
    exact List.length_map _
  refine ⟨m.velocities.spread g,
    hvalid.scatterTensorOntoZeros_toTensor hgsize, ?_, ?_⟩
  · rw [Vec.size, PartialPermutation.spread, List.length_map, List.length_range, hdomain,
      ContactProblem.velocityCount]
  · intro c a ha
    have hlt : offset p.sizes c + a < m.velocities.domainSize := by
      rw [hdomain]
      exact offset_add_lt ha
    rw [ContactProblem.velocity, PartialPermutation.get_spread g hlt, ContactProblem.slope]
    -- a coupled clique has a number; the others stay at the zeros that are scattered onto
    by_cases hc : c ∈ p.coupled
    · obtain ⟨k, hk⟩ := List.mem_iff_getElem?.mp
        (h.mem_cliques.mpr (ContactProblem.mem_coupled.mp hc))
      rw [h.number?_velocity hk ha, if_pos hc]
      have hentry := hcoord k a (by rw [h.getD_sizes hk]; exact ha)
      rw [sum_dynamics_eq h hk, sum_backward_eq hp h hrs rfl hk] at hentry
      exact hentry
    · have hout : c ∉ m.cliques.inverse :=
        fun hmem => hc (ContactProblem.mem_coupled.mpr (h.mem_cliques.mp hmem))
      rw [h.velocities_spec.number?_eq_none hout ha, if_neg hc]

end Model.Steps

/-! ## At full velocities -/

/-- A quantity of a model at full velocities of the problem, evaluated on state `s`: the velocities
of the model are gathered, the state is set to them, and the quantity is evaluated there. -/
def Model.evalFull {K : Type} [Arith K] (m : Model K) (s : ModelState K (Quantity.Value K))
    (q : Quantity) (V : Vec K) : Except (Error K) (Quantity.Value K q) := do
  let v ← m.velocities.gatherTensor V.toTensor
  m.evalAt s q (.tensor v)

namespace Model

variable {p : ContactProblem K} {m : Model K} {V : Vec K} {s : ModelState K (Quantity.Value K)}

/-- At full velocities a quantity has its value at the reduced ones, whatever the state. -/
theorem Steps.evalFull_eq {Ls : List (CholeskyFactor K)} (h : Steps p m Ls)
    (hs : s.size = m.velocityCount) (hV : V.size = p.velocityCount) {q : Quantity}
    (hq : m.Follows (reduced m V) (m.eval q) (m.trace (reduced m V) q)) :
    m.evalFull s q V = m.valueAt (reduced m V) q := by
  rw [evalFull, Outcome.bind_of_ok _ (h.gather_velocities hV)]
  exact evalAt_eq hs (h.size_reduced V) hq

/-- **Impulses and cost.** Let a problem be constructed by adding constraints, and let a model be
built from it. At full velocities `V`, from any state of the model:

* the impulses have a value when every constraint of the problem responds to `V`, and scattered to
  the equations of the problem they are the responses, joined in the order of the constraints;
* the cost has a value then, and it is the cost of the problem;
* it is the cost of every model of a rearranged problem, too.

That numbers are fractions is assumed where there are no constraints. Otherwise the dynamics
matrices that were factored hold them. -/
theorem impulses_cost_refine (hp : p.Constructed) (hm : build? p = .ok m)
    (hf : p.constraints = [] → p.format.isFloating = true) (hs : s.size = m.velocityCount)
    (hV : V.size = p.velocityCount) (hformat : V.format = p.format) :
    ((∃ γ, m.evalFull s .impulses V = .ok γ) ↔
      ∃ rs, List.Forall₂ (p.Responds V) p.constraints rs) ∧
    ∀ rs, List.Forall₂ (p.Responds V) p.constraints rs →
      (∃ γ : Vec K, m.evalFull s .impulses V = .ok γ ∧
        m.impulses.scatterTensorOntoZeros γ.toTensor =
          .ok (Vec.concat p.format (rs.map (·.γ))).toTensor) ∧
      ∃ x : Scalar K, m.evalFull s .cost V = .ok x ∧ x.value = p.cost V rs ∧
        ∀ (π : Equiv.Perm Nat) (q : ContactProblem K) (n : Model K) (W : Vec K)
          (t : ModelState K (Quantity.Value K)), q.Constructed → build? q = .ok n →
          p.Rearranged π V q W → t.size = n.velocityCount → W.size = q.velocityCount →
          W.format = q.format →
            ∃ y : Scalar K, n.evalFull t .cost W = .ok y ∧ y.value = x.value := by
  obtain ⟨Ls, h⟩ := exists_steps hm
  have hwf := hp.wellFormed
  have hf := h.floating hwf hf
  have himpulses := h.evalFull_eq hs hV (q := .impulses) follows_impulses
  have hcost := h.evalFull_eq hs hV (q := .cost) follows_cost
  refine ⟨?_, fun rs hrs => ⟨⟨_, ?_, h.scatter_impulses hrs⟩, ?_⟩⟩
  · rw [himpulses]
    exact Steps.exists_impulses_iff hwf hf h hformat
  · rw [himpulses]
    exact Steps.impulses_of_responds hwf hf h hformat hrs
  · obtain ⟨x, hx, hvalue⟩ := Steps.cost_of_responds hwf hf h hformat hrs
    refine ⟨x, hcost.trans hx, hvalue, ?_⟩
    intro π q n W t hq hn hrearranged ht hW hWformat
    obtain ⟨Ls', h'⟩ := exists_steps hn
    -- both models are compared with their problems, whose costs are equal sums
    obtain ⟨rs', hrs', hsame⟩ := hrearranged.cost_eq hwf hrs
    have hqf : q.format.isFloating = true := by rw [hrearranged.format]; exact hf
    obtain ⟨y, hy, hyvalue⟩ := Steps.cost_of_responds hq.wellFormed hqf h' hWformat hrs'
    refine ⟨y, (h'.evalFull_eq ht hW (q := .cost) follows_cost).trans hy, ?_⟩
    rw [hyvalue, hsame, hvalue]

/-- Velocities of all cliques of the small problem. -/
def sampleVelocities : Vec ℚ := ⟨.double, [1, 7, -2, 3]⟩

/-- At velocities where every constraint of the small problem responds. -/
theorem impulses_cost_refine_sample :
    ∃ p m, ContactProblem.sample? = .ok p ∧ build? p = .ok m ∧
      ∃ rs, List.Forall₂ (p.Responds sampleVelocities) p.constraints rs ∧
        ∃ x : Scalar ℚ, m.evalFull m.makeState .cost sampleVelocities = .ok x ∧
          x.value = p.cost sampleVelocities rs := by
  obtain ⟨p, hp, h⟩ := Outcome.exists_of_check (x := ContactProblem.sample?)
    (P := fun p => p.format == .double && p.velocityCount == 4 &&
      (build? p).toOption.any fun m =>
        (m.evalFull m.makeState .impulses sampleVelocities).toOption.any fun _ => true)
    (by decide +kernel)
  simp only [Bool.and_eq_true, beq_iff_eq] at h
  obtain ⟨⟨hformat, hcount⟩, h⟩ := h
  obtain ⟨m, hm, h⟩ := Outcome.exists_of_check h
  obtain ⟨γ, hγ, -⟩ := Outcome.exists_of_check h
  obtain ⟨hiff, hcost⟩ := impulses_cost_refine (V := sampleVelocities)
    (ContactProblem.constructed_sample hp) hm (fun _ => by rw [hformat]; rfl) (s := m.makeState) rfl
    hcount.symm hformat.symm
  obtain ⟨rs, hrs⟩ := hiff.mp ⟨γ, hγ⟩
  obtain ⟨-, x, hx, hvalue, -⟩ := hcost rs hrs
  exact ⟨p, m, hp, hm, rs, hrs, x, hx, hvalue⟩

/-- **Gradient.** Let a problem be constructed by adding constraints, and let a model be built from
it. At full velocities `V`, from any state of the model: where the gradient has a value, every
constraint responds, and scattered to the velocities of the problem the gradient is that of the
problem. It has a value when every constraint responds with impulses in the format of the problem.
The assumption about the format is the one for impulses and cost. -/
theorem gradient_refines (hp : p.Constructed) (hm : build? p = .ok m)
    (hf : p.constraints = [] → p.format.isFloating = true) (hs : s.size = m.velocityCount)
    (hV : V.size = p.velocityCount) (hformat : V.format = p.format) :
    (∀ g : Vec K, m.evalFull s .costGradient V = .ok g →
      ∃ rs, List.Forall₂ (p.Responds V) p.constraints rs ∧
        ∃ G : Vec K, m.velocities.scatterTensorOntoZeros g.toTensor = .ok G.toTensor ∧
          G.size = p.velocityCount ∧
          ∀ c a, a < p.cliqueSize c → p.velocity G c a = p.slope V rs c a) ∧
    ∀ rs, List.Forall₂ (p.Responds V) p.constraints rs → (∀ r ∈ rs, r.γ.format = p.format) →
      ∃ g : Vec K, m.evalFull s .costGradient V = .ok g := by
  obtain ⟨Ls, h⟩ := exists_steps hm
  have hwf := hp.wellFormed
  have hf := h.floating hwf hf
  have hgradient := h.evalFull_eq hs hV (q := .costGradient) follows_costGradient
  have hmodel := Steps.wellFormed hwf hf h
  have hfits := h.fits_reduced hformat
  constructor
  · intro g hg
    rw [hgradient] at hg
    obtain ⟨γ, hγ⟩ := exists_impulses_of_gradient hg
    obtain ⟨rs, hrs⟩ := (Steps.exists_impulses_iff hwf hf h hformat).mp ⟨γ, hγ⟩
    exact ⟨rs, hrs, Steps.scatter_gradient hwf hf h hformat hrs hg⟩
  · intro rs hrs hformats
    rw [hgradient]
    refine hmodel.exists_gradient hfits (Steps.impulses_of_responds hwf hf h hformat hrs) ?_
    rw [h.format]
    apply Vec.format_concat
    intro γ hγ
    obtain ⟨r, hr, rfl⟩ := List.mem_map.mp hγ
    exact hformats r ((h.pick_responses_perm hrs).mem_iff.mp hr)

/-- The gradient of the small problem at the same velocities. -/
theorem gradient_refines_sample :
    ∃ p m, ContactProblem.sample? = .ok p ∧ build? p = .ok m ∧
      ∃ g : Vec ℚ, m.evalFull m.makeState .costGradient sampleVelocities = .ok g ∧
        ∃ rs, List.Forall₂ (p.Responds sampleVelocities) p.constraints rs ∧
          ∃ G : Vec ℚ, m.velocities.scatterTensorOntoZeros g.toTensor = .ok G.toTensor ∧
            ∀ c a, a < p.cliqueSize c →
              p.velocity G c a = p.slope sampleVelocities rs c a := by
  obtain ⟨p, hp, h⟩ := Outcome.exists_of_check (x := ContactProblem.sample?)
    (P := fun p => p.format == .double && p.velocityCount == 4 &&
      (build? p).toOption.any fun m =>
        (m.evalFull m.makeState .costGradient sampleVelocities).toOption.any fun _ => true)
    (by decide +kernel)
  simp only [Bool.and_eq_true, beq_iff_eq] at h
  obtain ⟨⟨hformat, hcount⟩, h⟩ := h
  obtain ⟨m, hm, h⟩ := Outcome.exists_of_check h
  obtain ⟨g, hg, -⟩ := Outcome.exists_of_check h
  obtain ⟨hgradient, -⟩ := gradient_refines (V := sampleVelocities)
    (ContactProblem.constructed_sample hp) hm (fun _ => by rw [hformat]; rfl) (s := m.makeState) rfl
    hcount.symm hformat.symm
  obtain ⟨rs, hrs, G, hG, -, hslope⟩ := hgradient g hg
  exact ⟨p, m, hp, hm, g, hg, rs, hrs, G, hG, hslope⟩

end Model

end ConvexContact
