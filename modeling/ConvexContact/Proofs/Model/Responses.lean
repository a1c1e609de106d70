import Mathlib.Algebra.Order.Field.Basic
import ConvexContact.Proofs.Model.Delassus

/-!
# Responses of a stack

At velocities that are gathered from full velocities `V`, the members of a stack answer what the
constraints of the problem respond to `V` (`ContactProblem.Responds`). Each row of the Jacobian adds
up to the velocity of one constraint, since the numberings keep blocks together; the unprojected
impulses of the constraint are a block of those of the model; and its law is a block of the
regularization and of the bias.

Proof shape: `answers_iff` compares one member of the stack with one constraint. The run over the
stack compares two lists place by place, so nothing is said about orders before the end.

Main statement: `Model.Steps.impulses_eq_ok`. The impulses of the model are the responses of the
constraints, joined in the order of the stack.
-/

namespace ConvexContact

variable {K : Type} [ExactField K]

/-! ## Exact vectors -/

namespace Vec

variable {v w : Vec K}

/-- The reciprocals are those of the field. -/
theorem get_inverse {i : Nat} (hi : i < v.size) : v.inverse.get i = (v.get i)⁻¹ := by
  have hi' : i < v.entries.length := hi
  simp [inverse, get, List.getD_eq_getElem?_getD, hi']

/-- Exact vectors are joined entry by entry. -/
theorem entries_concat_exact (f : Format) (vs : List (Vec K)) :
    (concat f vs).entries = (vs.map (·.entries)).flatten := by
  -- in exact arithmetic a change of format leaves numbers as they are
  have hentries : entriesIn (concat f vs).format = fun w : Vec K => w.entries := by
    apply funext
    intro w
    unfold entriesIn
    split
    · rfl
    · exact (List.map_congr_left fun x _ => Arith.cast_exact _ x).trans (List.map_id' _)
  rw [entries_concat, hentries, List.flatMap]

end Vec

namespace Model.Steps

variable {p : ContactProblem K} {m : Model K} {Ls : List (CholeskyFactor K)} {V : Vec K}

/-! ## Impulses

Each part of the formula `-R⁻¹·(J·v - v̂)` is compared with the part of the response: the row of the
Jacobian, the regularization, the bias. What a member answers is then a matter of equal
arguments. -/

section Impulses

variable {laws : List (Vec K × Vec K)} {k : Nat} {c : Constraint K} {R vHat : Vec K}

/-- The blocks of the row of a constraint add up to the velocity of the constraint. -/
theorem sum_forward_eq (hp : p.WellFormed) (h : Steps p m Ls)
    (hk : (pick p.constraints m.order)[k]? = some c) (l : Nat) :
    (((placed m.cliques (pick p.constraints m.order)).filter fun t => t.row = k).map
      (PlacedBlock.forward Reading.exact m.sizes (reduced m V) l)).sum =
      p.constraintVelocity V c l := by
  have hc : c ∈ p.constraints := (pick_perm h.order_perm).mem_iff.mp (List.mem_of_getElem? hk)
  -- one constraint fills one row, so the row is a sum over the blocks of the constraint
  rw [filter_row_placed hk, List.map_map, ContactProblem.constraintVelocity]
  refine congrArg List.sum (List.map_congr_left fun b hb => ?_)
  obtain ⟨j, hj, hinverse⟩ := h.number?_of_mem hc hb
  rw [Function.comp_apply, PlacedBlock.forward]
  apply Finset.sum_congr rfl
  intro a ha
  rw [placeOf, hj, Option.getD_some,
    h.coord_reduced Reading.exact V hinverse
      (by rw [hp.getD_sizes hc hb]; exact Finset.mem_range.mp ha)]
  rfl

/-- The regularization is positive, as each constraint has been asked to make sure of. -/
theorem R_pos_of_mem (h : Steps p m Ls) {x : K} (hx : x ∈ m.stack.R.entries) : 0 < x := by
  obtain ⟨laws, hparts⟩ := h.exists_parts
  rw [hparts.R, Vec.entries_concat_exact] at hx
  obtain ⟨xs, hxs, hx⟩ := List.mem_flatten.mp hx
  obtain ⟨R, hR, rfl⟩ := List.mem_map.mp hxs
  obtain ⟨law, hlaw, rfl⟩ := List.mem_map.mp hR
  obtain ⟨⟨c, i⟩, -, hlaw⟩ := Outcome.mem_of_mapM hparts.mapM_lawOf hlaw
  obtain ⟨-, -, hpos⟩ := Stack.of_lawOf hlaw
  exact Arith.lt_eq_true_iff.mp (hpos x hx)

/-- So it is in each coordinate. -/
theorem R_pos (hp : p.WellFormed) (hf : p.format.isFloating = true) (h : Steps p m Ls) {k l : Nat}
    (hl : l < m.stack.J.heights.getD k 0) :
    0 < m.stack.R.coord Reading.exact m.stack.J.heights k l := by
  have hplace : offset m.stack.J.heights k + l < m.stack.R.size := by
    rw [(wellFormed hp hf h).R_size]
    exact offset_add_lt hl
  rw [Vec.coord, Reading.exact_apply, Vec.get, List.getD_eq_getElem _ _ hplace]
  exact h.R_pos_of_mem (List.getElem_mem hplace)

/-- It cancels against its inverse. -/
theorem R_mul_Rinv (hp : p.WellFormed) (hf : p.format.isFloating = true) (h : Steps p m Ls)
    {k l : Nat} (hl : l < m.stack.J.heights.getD k 0) :
    m.stack.R.coord Reading.exact m.stack.J.heights k l *
      m.stack.Rinv.coord Reading.exact m.stack.J.heights k l = 1 := by
  obtain ⟨laws, hparts⟩ := h.exists_parts
  have hplace : offset m.stack.J.heights k + l < m.stack.R.size := by
    rw [(wellFormed hp hf h).R_size]
    exact offset_add_lt hl
  have hinverse : m.stack.Rinv.coord Reading.exact m.stack.J.heights k l =
      (m.stack.R.coord Reading.exact m.stack.J.heights k l)⁻¹ := by
    rw [Vec.coord, hparts.Rinv, Reading.exact_apply, Vec.get_inverse hplace]
    rfl
  rw [hinverse]
  exact mul_inv_cancel₀ (R_pos hp hf h hl).ne'

/-- The unprojected impulses of each constraint are a block of those of the model. -/
theorem exists_unprojected (hp : p.WellFormed) (hf : p.format.isFloating = true)
    (h : Steps p m Ls) (hparts : m.Parts p laws) (hV : V.format = p.format) :
    ∃ y, m.valueAt (reduced m V) .unprojectedImpulses = .ok y ∧
      y.size = total m.stack.J.heights ∧ y.format = p.format ∧
      ∀ k c R vHat, (pick p.constraints m.order)[k]? = some c → laws[k]? = some (R, vHat) →
        y.block m.stack.J.heights k = p.unprojected V c R vHat := by
  have hwf := wellFormed hp hf h
  have hfits := h.fits_reduced hV
  obtain ⟨y, hy, hsize, hformat, hcoord⟩ := hwf.exists_unprojectedImpulses Reading.exact hfits
  rw [h.format] at hformat
  refine ⟨y, hy, hsize, hformat, fun k c R vHat hk hlaw => ?_⟩
  obtain ⟨hR, hvHat⟩ := hparts.block_law hp hlaw
  have hheight := hparts.getD_heights hk
  have hblock : (y.block m.stack.J.heights k).size = c.equations := by
    rw [Vec.size_block hsize, hheight]
  -- entry by entry: regularization and bias of the stack against those of the law
  refine Vec.ext_get hformat ?_ fun l hl => ?_
  · rw [hblock, ContactProblem.unprojected, Vec.size, List.length_map, List.length_range]
  · rw [hblock] at hl
    have hl' : l < m.stack.J.heights.getD k 0 := by rw [hheight]; exact hl
    have hRinv : m.stack.Rinv.coord Reading.exact m.stack.J.heights k l = (R.get l)⁻¹ := by
      rw [hparts.Rinv, Vec.coord, Reading.exact_apply, Vec.get_inverse, ← hR, Vec.get_block hl']
      rw [hwf.R_size]
      exact offset_add_lt hl'
    have hbias : m.stack.vHat.coord Reading.exact m.stack.J.heights k l = vHat.get l := by
      rw [← hvHat, Vec.get_block hl']
      rfl
    have hentry : (p.unprojected V c R vHat).get l =
        -(R.get l)⁻¹ * (p.constraintVelocity V c l - vHat.get l) := by
      simp [ContactProblem.unprojected, Vec.get, List.getD_eq_getElem?_getD, hl]
    have hy := Vec.map_get_block Reading.exact hl' y
    rw [hcoord k l hl', hRinv, hbias, sum_forward_eq hp h hk] at hy
    rw [hentry]
    exact hy

/-- A member of the stack answers what the constraint responds. -/
theorem answers_iff (hp : p.WellFormed) (h : Steps p m Ls) (hparts : m.Parts p laws)
    (hk : (pick p.constraints m.order)[k]? = some c) (hlaw : laws[k]? = some (R, vHat))
    {y γ : Vec K} (hy : y.block m.stack.J.heights k = p.unprojected V c R vHat) (i : Nat) :
    m.stack.Answers y k ⟨i, c.cliques, c.equations, c.projection⟩ γ ↔
      p.Responds V c ⟨R, vHat, γ⟩ := by
  obtain ⟨c', -, hk', hlawOf, -⟩ := hparts.fits_law hp hlaw
  rw [hk] at hk'
  obtain rfl := Option.some.inj hk'
  obtain ⟨hregularization, hbias⟩ := law_eq hp h hk hlawOf
  obtain ⟨hR, -⟩ := hparts.block_law hp hlaw
  rw [Stack.Answers, hy, hR]
  constructor
  -- the Jacobian of the projection is carried along, though neither side looks at it
  · rintro ⟨hsize, D, hD⟩
    exact ⟨hregularization, hbias, ⟨D, hD⟩, hsize⟩
  · rintro ⟨-, -, ⟨D, hD⟩, hsize⟩
    exact ⟨hsize, D, hD⟩

/-- A response is given for the law of the constraint. -/
theorem law_of_responds (hp : p.WellFormed) (h : Steps p m Ls) (hparts : m.Parts p laws)
    (hk : (pick p.constraints m.order)[k]? = some c) (hlaw : laws[k]? = some (R, vHat))
    {r : Response K} (hr : p.Responds V c r) : r.R = R ∧ r.vHat = vHat := by
  obtain ⟨c', -, hk', hlawOf, -⟩ := hparts.fits_law hp hlaw
  rw [hk] at hk'
  obtain rfl := Option.some.inj hk'
  obtain ⟨hregularization, hbias⟩ := law_eq hp h hk hlawOf
  rw [hr.regularization] at hregularization
  rw [hr.bias] at hbias
  exact ⟨Except.ok.inj hregularization, Except.ok.inj hbias⟩

/-- The impulses of the model are the responses of the constraints in the order of the stack. -/
theorem impulses_eq_ok (hp : p.WellFormed) (hf : p.format.isFloating = true) (h : Steps p m Ls)
    (hV : V.format = p.format) {γ : Vec K} :
    m.valueAt (reduced m V) .impulses = .ok γ ↔ ∃ rs,
      List.Forall₂ (p.Responds V) (pick p.constraints m.order) rs ∧
        γ = Vec.concat p.format (rs.map (·.γ)) := by
  obtain ⟨laws, hparts⟩ := h.exists_parts
  obtain ⟨y, hy, hsize, hformat, hblock⟩ := exists_unprojected hp hf h hparts hV
  generalize hcs : pick p.constraints m.order = cs at *
  have hlaws : laws.length = cs.length := by
    rw [Outcome.length_of_mapM hparts.mapM_lawOf, List.length_zipIdx, hcs]
  have horder : m.order.length = cs.length := by rw [← hcs, length_pick h.lt_of_mem_order]
  have hmembers : m.stack.members.zipIdx.length = cs.length := by
    rw [List.length_zipIdx, hparts.members, List.length_zipWith, hcs, horder, Nat.min_self]
  -- the members answer what the constraints respond, place by place
  have hpoint : ∀ k (hk : k < cs.length) (hk' : k < m.stack.members.zipIdx.length) (γi : Vec K),
      m.stack.Answers y m.stack.members.zipIdx[k].2 m.stack.members.zipIdx[k].1 γi ↔
        p.Responds V cs[k] ⟨laws[k].1, laws[k].2, γi⟩ := by
    intro k hk hk' γi
    have hc : cs[k]? = some cs[k] := List.getElem?_eq_getElem hk
    have hlaw : laws[k]? = some (laws[k].1, laws[k].2) := List.getElem?_eq_getElem _
    have hmember : m.stack.members.zipIdx[k] =
        (⟨m.order[k], cs[k].cliques, cs[k].equations, cs[k].projection⟩, k) := by
      simp [hparts.members, hcs]
    rw [hmember]
    exact answers_iff hp h hparts (by rw [hcs]; exact hc) hlaw (hblock k _ _ _ hc hlaw) _
  rw [valueAt_impulses, hy, Outcome.bind_of_ok _ rfl, Stack.project_eq_ok hsize, hformat]
  constructor
  -- from answers to responses each answer gets its law; back, the law is forgotten
  · rintro ⟨γs, hγs, rfl⟩
    have hlen : γs.length = cs.length := hγs.length_eq.symm.trans hmembers
    refine ⟨List.zipWith (fun law γi => ⟨law.1, law.2, γi⟩) laws γs, ?_, ?_⟩
    · refine List.forall₂_iff_get.mpr ⟨by simp [hlaws, hlen], fun k hk hk' => ?_⟩
      have hk'' : k < γs.length := by omega
      have hanswer := List.forall₂_iff_get.mp hγs |>.2 k (by omega) hk''
      have hresponds := (hpoint k hk (by omega) γs[k]).mp hanswer
      simpa using hresponds
    · rw [List.map_zipWith]
      refine congrArg _ (List.ext_getElem (by simp [hlaws, hlen]) fun k hk hk' => by simp)
  · rintro ⟨rs, hrs, rfl⟩
    have hlen : rs.length = cs.length := hrs.length_eq.symm
    refine ⟨rs.map (·.γ), ?_, rfl⟩
    refine List.forall₂_iff_get.mpr ⟨by simp [hmembers, hlen], fun k hk hk' => ?_⟩
    have hkc : k < cs.length := by omega
    have hkr : k < rs.length := by omega
    have hr : p.Responds V cs[k] rs[k] := List.forall₂_iff_get.mp hrs |>.2 k hkc hkr
    have hlaw : laws[k]? = some (laws[k].1, laws[k].2) := List.getElem?_eq_getElem _
    have hc : (pick p.constraints m.order)[k]? = some cs[k] := by
      rw [hcs, List.getElem?_eq_getElem hkc]
    obtain ⟨hR, hvHat⟩ := law_of_responds hp h hparts hc hlaw hr
    have hwhole : rs[k] = ⟨laws[k].1, laws[k].2, rs[k].γ⟩ := by rw [← hR, ← hvHat]
    rw [hwhole] at hr
    have hanswer := (hpoint k hkc hk rs[k].γ).mpr hr
    simpa using hanswer

/-- The regularization of the stack is that of the responses. -/
theorem R_eq_of_responds (hp : p.WellFormed) (h : Steps p m Ls) {rs : List (Response K)}
    (hrs : List.Forall₂ (p.Responds V) (pick p.constraints m.order) rs) :
    m.stack.R = Vec.concat p.format (rs.map (·.R)) := by
  obtain ⟨laws, hparts⟩ := h.exists_parts
  have hlaws : laws.length = (pick p.constraints m.order).length := by
    rw [Outcome.length_of_mapM hparts.mapM_lawOf, List.length_zipIdx]
  rw [hparts.R]
  refine congrArg _ (List.ext_getElem (by simp [hlaws, hrs.length_eq]) fun k hk hk' => ?_)
  have hkl : k < laws.length := by simpa using hk
  have hkc : k < (pick p.constraints m.order).length := by omega
  have hkr : k < rs.length := by simpa using hk'
  have hr : p.Responds V _ rs[k] := List.forall₂_iff_get.mp hrs |>.2 k hkc hkr
  obtain ⟨hR, -⟩ := law_of_responds hp h hparts (List.getElem?_eq_getElem hkc)
    (List.getElem?_eq_getElem hkl) hr
  simp [hR]

end Impulses

end Model.Steps

end ConvexContact
