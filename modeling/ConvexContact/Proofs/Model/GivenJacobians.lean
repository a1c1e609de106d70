import ConvexContact.Numeric.Number
import ConvexContact.Proofs.Index.Slabs
import ConvexContact.Proofs.Model.Stacking

/-!
# Jacobians as they are given

The Jacobians that a caller hands over for a constraint are stored twice: in the format of the
constraint function when the constraint is built, and in the format of the problem when it is added.
The stack has them as the problem has. So a Jacobian arrives with each of its entries stored in the
one format and from there in the other, which leaves it as it is just when it does so for every
entry (`Constraint.Receives`). It does when the constraint function has the format of the problem;
when it is of whole numbers, a half does not arrive (`exists_jacobian_changed`).

Main statement: `Constraint.receives_of_add`.
-/

namespace ConvexContact

/-- A list is left as it is when each of its elements is. -/
theorem map_eq_self_iff {α : Type} {f : α → α} {xs : List α} :
    xs.map f = xs ↔ ∀ x ∈ xs, f x = x := by
  have h := List.map_inj_left (l := xs) (f := f) (g := id)
  rwa [List.map_id] at h

variable {K : Type} [Arith K]

/-! ## Matrices and tensors

A Jacobian is given as a tensor and stored as a matrix. Nothing is lost on the way, so what may
change an entry is the format alone. -/

/-- The entries of a tensor of rank two, read back. -/
theorem Mat.toTensor_ofEntries {t : Tensor K} {m n : Nat} (h : t.shape = [m, n]) :
    (ofEntries t.format m n t.data).toTensor = t := by
  have hlength : t.data.length = m * n := by
    rw [t.length_data, h]
    simp
  refine Tensor.ext_parts rfl h.symm ?_
  -- the rows are stretches of the data, one after the other
  have hrow : ∀ i ∈ List.range m, (List.range n).map (fun j => t.data.getD (i * n + j) 0) =
      (t.data.drop (i * n)).take n := by
    intro i hi
    refine List.ext_getElem ?_ fun j _ hj => ?_
    · rw [List.length_map, List.length_range, length_take_drop hlength (List.mem_range.mp hi)]
    · have hin : i * n + j < t.data.length := by
        rw [List.length_take, List.length_drop] at hj
        omega
      simp [List.getD_eq_getElem?_getD, List.getElem?_eq_getElem hin]
  exact (congrArg List.flatten (List.map_congr_left hrow)).trans (flatten_map_take_drop hlength)

/-- A tensor comes back from a format when each of its entries does. -/
theorem Tensor.cast_cast_eq_iff {t : Tensor K} {f g : Format} :
    (t.cast f).cast g = t ↔
      g = t.format ∧ ∀ x ∈ t.data, Arith.cast g (Arith.cast f x) = x := by
  have hdata : ((t.cast f).cast g).data = t.data ↔
      ∀ x ∈ t.data, Arith.cast g (Arith.cast f x) = x := by
    change (t.data.map _).map _ = _ ↔ _
    rw [List.map_map]
    exact map_eq_self_iff
  constructor
  · intro h
    exact ⟨congrArg Tensor.format h, hdata.mp (congrArg Tensor.data h)⟩
  · rintro ⟨hformat, h⟩
    exact ext_parts hformat rfl (hdata.mpr h)

/-- A tensor whose entries are in its format. -/
def Tensor.Stored (t : Tensor K) : Prop := ∀ x ∈ t.data, Arith.cast t.format x = x

namespace Constraint

/-! ## Construction -/

/-- A constraint function keeps its format when it is read. -/
theorem format_of_readFunction {g : Given K} {v : Vec K} (h : readFunction g = .ok v) :
    v.format = g.toTensor.format := by
  obtain ⟨u, hu, h⟩ := Outcome.bind_eq_ok.mp h
  split at h
  · cases h
  · rw [← Outcome.pure_eq_ok.mp h]
    exact format_of_readVector hu

/-- A Jacobian that is read is the tensor in the format it is read for. -/
theorem toTensor_of_readJacobian {f : Format} {height : Nat} {T : Tensor K} {A : Mat K}
    (h : readJacobian f height (.tensor T) = .ok A) : A.toTensor = T.cast f := by
  obtain ⟨t, ht, h⟩ := Outcome.bind_eq_ok.mp h
  obtain rfl : T.cast f = t := Except.ok.inj ht
  split at h
  · rename_i m n hshape
    split at h
    · cases h
    · rw [← Outcome.pure_eq_ok.mp h]
      exact Mat.toTensor_ofEntries hshape
  · cases h

/-- The Jacobians of a constraint that is built are the given ones in the format of the constraint
function. -/
theorem jacobians_of_build {law : Law K} {projection : Projection K} {g : Given K} {first : Int}
    {T₁ : Tensor K} {second : Option Int} {T₂ : Option (Tensor K)} {c : Constraint K}
    (h : build? law projection g first (.tensor T₁) second (T₂.map .tensor) = .ok c) :
    c.jacobians.map Mat.toTensor = (T₁ :: T₂.toList).map (·.cast g.toTensor.format) := by
  obtain ⟨v, hv, h⟩ := Outcome.bind_eq_ok.mp h
  obtain ⟨k, -, h⟩ := Outcome.bind_eq_ok.mp h
  obtain ⟨A, hA, h⟩ := Outcome.bind_eq_ok.mp h
  obtain ⟨other, hother, h⟩ := Outcome.bind_eq_ok.mp h
  obtain rfl := Outcome.pure_eq_ok.mp h
  rw [← format_of_readFunction hv]
  have hfirst := toTensor_of_readJacobian hA
  -- with one clique there is one Jacobian, with two there are both
  cases other with
  | none =>
    obtain ⟨-, hnone⟩ := readSecond_eq_none hother
    obtain rfl := Option.map_eq_none_iff.mp hnone
    exact congrArg (fun t => [t]) hfirst
  | some b =>
    obtain ⟨l, J, -, hJ, -, -, hB⟩ := readSecond_eq_some hother
    obtain ⟨T, rfl, rfl⟩ := Option.map_eq_some_iff.mp hJ
    exact congrArg₂ (fun t u => [t, u]) hfirst (toTensor_of_readJacobian hB)

/-- A constraint is stored in another format Jacobian by Jacobian. -/
theorem jacobians_cast (f : Format) (c : Constraint K) :
    (c.cast f).jacobians = c.jacobians.map (·.cast f) := by
  rw [jacobians, blocks_cast, List.map_map, jacobians, List.map_map]
  rfl

omit [Arith K] in
/-- A constraint names each of its cliques for one block only. -/
theorem WellFormed.jacobianFor_of_mem {c : Constraint K} (h : c.WellFormed) {b : CliqueBlock K}
    (hb : b ∈ c.blocks) : c.jacobianFor b.clique = some b.jacobian := by
  rw [jacobianFor]
  cases hfind : c.blocks.find? (·.clique = b.clique) with
  | none => exact absurd (decide_eq_true rfl) (List.find?_eq_none.mp hfind b hb)
  | some b' =>
    have hclique : b'.clique = b.clique := by simpa using List.find?_some hfind
    rw [List.inj_on_of_nodup_map h.nodup (List.mem_of_find?_eq_some hfind) hb hclique]
    rfl

end Constraint

/-! ## The stack -/

/-- The stack of a problem has the Jacobians of the constraint at place `i` as they are: block row
`k` belongs to the constraint, and the block of each of its cliques is the Jacobian for it. -/
def Stack.HasJacobians (p : ContactProblem K) (s : Stack K) (i : Nat) (c : Constraint K) : Prop :=
  ∃ g q, ∃ k : Nat, p.graph = .ok g ∧ g.numbering = (.ok q : Except (Error K) _) ∧
    g.order[k]? = some (i : Int) ∧ ∀ b ∈ c.blocks, ∃ j,
      q.permutedIndex b.clique = (.ok j : Except (Error K) _) ∧ s.J.block? k j = some b.jacobian

/-- A stack that was built has the Jacobians of every constraint of its problem. -/
theorem Stack.hasJacobians_of_build {p : ContactProblem K} (hp : p.Constructed) {w : Tensor K}
    {s : Stack K} (hs : build? p w = .ok s) {i : Nat} {c : Constraint K}
    (hc : p.constraints[i]? = some c) : s.HasJacobians p i c := by
  have hwf := hp.wellFormed
  obtain ⟨g, q, h⟩ := hwf.exists_arranged
  obtain ⟨laws, hparts⟩ := h.exists_parts hs
  have hmem : i ∈ g.places := h.places_perm.mem_iff.mpr
    (List.mem_range.mpr (List.getElem?_eq_some_iff.mp hc).1)
  obtain ⟨k, hk⟩ := List.mem_iff_getElem?.mp hmem
  have hpick : (pick p.constraints g.places)[k]? = some c := by
    rw [getElem?_pick h.lt_of_mem_places hk, hc]
  refine ⟨g, q, k, h.graph, h.cliques, ?_, fun b hb => ?_⟩
  · rw [h.graph_order, List.getElem?_map, hk]
    rfl
  · have hcmem := List.mem_of_getElem? hc
    obtain ⟨j, hnumber, hj⟩ := h.number?_of_mem hcmem hb
    refine ⟨j, PartialPermutation.permutedIndex_eq_ok.mpr hnumber, ?_⟩
    rw [hparts.block?_eq hwf h hpick hj, (hwf.constraint c hcmem).jacobianFor_of_mem hb]

namespace Constraint

/-- What a constraint in double precision has received of the Jacobians that were given for it, with
a constraint function in format `f`. -/
structure Receives (c : Constraint K) (f : Format) (given : List (Tensor K)) : Prop where
  /-- the given ones, stored in the format of the constraint function first -/
  jacobians : c.jacobians.map Mat.toTensor = given.map fun T => (T.cast f).cast .double
  unchanged_iff : c.jacobians.map Mat.toTensor = given ↔
    ∀ T ∈ given, ∀ x ∈ T.data, Arith.cast .double (Arith.cast f x) = x
  unchanged_of_double : f = .double → c.jacobians.map Mat.toTensor = given

/-- **Given Jacobians.** A constraint is built with Jacobians in double precision and is added to a
problem in double precision. What the problem stores are these Jacobians, each entry stored in the
format of the constraint function and from there in double precision; they are the given ones just
when this leaves every entry as it is, and always when the constraint function is in double
precision. The stack of every problem that has this constraint has its Jacobians as they are. -/
theorem receives_of_add {law : Law K} {projection : Projection K} {g : Given K} {first : Int}
    {T₁ : Tensor K} {second : Option Int} {T₂ : Option (Tensor K)} {c : Constraint K}
    {p p' : ContactProblem K} {i : Nat} (hp : p.format = .double)
    (hT : ∀ T ∈ T₁ :: T₂.toList, T.format = .double ∧ T.Stored)
    (hc : build? law projection g first (.tensor T₁) second (T₂.map .tensor) = .ok c)
    (hadd : p.add c = .ok (p', i)) :
    ∃ stored, p'.constraints[i]? = some stored ∧
      stored.Receives g.toTensor.format (T₁ :: T₂.toList) ∧
      ∀ (P : ContactProblem K) (w : Tensor K) (s : Stack K), P.Constructed →
        P.constraints[i]? = some stored → Stack.build? P w = .ok s →
          s.HasJacobians P i stored := by
  obtain ⟨⟨⟩, -, hadd⟩ := Outcome.bind_eq_ok.mp hadd
  obtain ⟨rfl, rfl⟩ := Prod.mk.inj (Outcome.pure_eq_ok.mp hadd)
  -- stored once when the constraint is built, and once more when it is added
  have hjacobians : (c.cast p.format).jacobians.map Mat.toTensor =
      (T₁ :: T₂.toList).map fun T => (T.cast g.toTensor.format).cast .double := by
    have htensors : ∀ A ∈ c.jacobians, (A.cast .double).toTensor = A.toTensor.cast .double :=
      fun A _ => A.toTensor_cast .double
    rw [hp, jacobians_cast, List.map_map]
    refine (List.map_congr_left htensors).trans ?_
    have hbuilt := congrArg (List.map (Tensor.cast .double)) (jacobians_of_build hc)
    rw [List.map_map, List.map_map] at hbuilt
    exact hbuilt
  have hunchanged : (c.cast p.format).jacobians.map Mat.toTensor = T₁ :: T₂.toList ↔
      ∀ T ∈ T₁ :: T₂.toList, ∀ x ∈ T.data,
        Arith.cast .double (Arith.cast g.toTensor.format x) = x := by
    rw [hjacobians]
    refine map_eq_self_iff.trans (forall₂_congr fun T hmem => ?_)
    exact Tensor.cast_cast_eq_iff.trans (and_iff_right (hT T hmem).1.symm)
  refine ⟨c.cast p.format, List.getElem?_concat_length, ⟨hjacobians, hunchanged, fun hf => ?_⟩,
    fun P w s hP hi hs => Stack.hasJacobians_of_build hP hs hi⟩
  -- an entry that is in double precision is left alone each time
  refine hunchanged.mpr fun T hmem x hx => ?_
  obtain ⟨hformat, hstored⟩ := hT T hmem
  have hx' := hstored x hx
  rw [hformat] at hx'
  rw [hf, hx', hx']

end Constraint

/-! ## Jacobians that arrive and one that does not -/

deriving instance DecidableEq for Number, Tensor

/-- A Jacobian of one equation for a clique of one velocity. -/
def Tensor.entrySample (x : Float) : Tensor Number := ⟨.double, [1, 1], [.float x], rfl⟩

/-- In double precision every float is stored. -/
theorem Tensor.stored_entrySample (x : Float) : (entrySample x).Stored := by
  rintro y hy
  obtain rfl := List.mem_singleton.mp hy
  rfl

/-- Two cliques of one velocity each. -/
def ContactProblem.pairSample? : Except (Error Number) (ContactProblem Number) :=
  build? ⟨.double, .float 0.5⟩ [.tensor (.entrySample 4), .tensor (.entrySample 9)]
    (.tensor (Vec.mk .double [.float 0, .float 0]).toTensor)

namespace Constraint

/-- A constraint between two cliques, whose constraint function is a whole number. -/
def wholeSample? (x y : Float) : Except (Error Number) (Constraint Number) :=
  build?
    { bias := (Term.fixed (.tensor (Vec.mk .double [.float 0]).toTensor)).side
      regularization := (Term.fixed (.tensor (Vec.mk .double [.float 1]).toTensor)).side }
    .nonneg (.tensor (Vec.mk .integer [.int 0]).toTensor) 0 (.tensor (.entrySample x)) (some 1)
    (some (.tensor (.entrySample y)))

/-- With a whole number as the constraint function nothing is left of a half in the Jacobian, and
this is what the stack has. -/
theorem exists_jacobian_changed :
    ∃ (p p' : ContactProblem Number) (c stored : Constraint Number) (s : Stack Number),
      ContactProblem.pairSample? = .ok p ∧ p.format = .double ∧
      wholeSample? 0.5 (-3) = .ok c ∧ p.add c = .ok (p', 0) ∧ p'.constraints[0]? = some stored ∧
      stored.jacobians.map Mat.toTensor = [.entrySample 0, .entrySample (-3)] ∧
      Stack.build? p' (Vec.mk .double [.float 1]).toTensor = .ok s ∧
      (s.J.block? 0 0).map Mat.toTensor = some (.entrySample 0) ∧
      Tensor.entrySample 0 ≠ .entrySample 0.5 := by
  obtain ⟨p, hp, h⟩ := Outcome.exists_of_check (x := ContactProblem.pairSample?)
    (P := fun p => (wholeSample? 0.5 (-3)).toOption.any fun c => (p.add c).toOption.any fun a =>
      (Stack.build? a.1 (Vec.mk .double [.float 1]).toTensor).toOption.any fun s =>
        p.format = .double ∧ a.2 = 0 ∧
        a.1.constraints[0]?.map (·.jacobians.map Mat.toTensor) =
          some [.entrySample 0, .entrySample (-3)] ∧
        (s.J.block? 0 0).map Mat.toTensor = some (.entrySample 0)) (by decide +kernel)
  obtain ⟨c, hc, h⟩ := Outcome.exists_of_check h
  obtain ⟨⟨p', i⟩, hadd, h⟩ := Outcome.exists_of_check h
  obtain ⟨s, hs, h⟩ := Outcome.exists_of_check h
  obtain ⟨hformat, rfl, hjacobians, hblock⟩ := of_decide_eq_true h
  obtain ⟨stored, hstored, hjacobians⟩ := Option.map_eq_some_iff.mp hjacobians
  exact ⟨p, p', c, stored, s, hp, hformat, hc, hadd, hstored, hjacobians, hs, hblock,
    by decide +kernel⟩

/-- Whole numbers arrive. -/
theorem receives_of_add_sample :
    ∃ (p p' : ContactProblem Number) (c stored : Constraint Number),
      ContactProblem.pairSample? = .ok p ∧ wholeSample? 2 (-3) = .ok c ∧ p.add c = .ok (p', 0) ∧
      p'.constraints[0]? = some stored ∧
      stored.jacobians.map Mat.toTensor = [.entrySample 2, .entrySample (-3)] ∧
      ∀ w s, Stack.build? p' w = .ok s → s.HasJacobians p' 0 stored := by
  obtain ⟨p, hp, h⟩ := Outcome.exists_of_check (x := ContactProblem.pairSample?)
    (P := fun p => (wholeSample? 2 (-3)).toOption.any fun c => (p.add c).toOption.any fun a =>
      p.format = .double ∧ a.2 = 0) (by decide +kernel)
  obtain ⟨c, hc, h⟩ := Outcome.exists_of_check h
  obtain ⟨⟨p', i⟩, hadd, h⟩ := Outcome.exists_of_check h
  obtain ⟨hformat, rfl⟩ := of_decide_eq_true h
  have hp' : p'.Constructed := .add (.build hp) (.build hc) hadd
  have hgiven : ∀ T ∈ Tensor.entrySample 2 :: (some (Tensor.entrySample (-3))).toList,
      T.format = .double ∧ T.Stored := by
    intro T hT
    rcases List.mem_cons.mp hT with rfl | hT
    · exact ⟨rfl, Tensor.stored_entrySample 2⟩
    · obtain rfl := List.mem_singleton.mp hT
      exact ⟨rfl, Tensor.stored_entrySample (-3)⟩
  have hwhole : ∀ T ∈ [Tensor.entrySample 2, .entrySample (-3)], ∀ x ∈ T.data,
      Number.cast .double (Number.cast .integer x) = x := by decide +kernel
  obtain ⟨stored, hstored, hreceives, hstack⟩ :=
    receives_of_add hformat hgiven hc hadd
  exact ⟨p, p', c, stored, hp, hc, hadd, hstored, hreceives.unchanged_iff.mpr hwhole,
    fun w s hs => hstack p' w s hp' hstored hs⟩

end Constraint

end ConvexContact
