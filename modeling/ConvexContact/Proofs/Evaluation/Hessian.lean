import ConvexContact.Proofs.Evaluation.Session

/-!
# The Hessian where velocities have just been set

The list of blocks of the Hessian is the one quantity whose computation fills a second cell, that of
the impulses, and what it leaves there is right only for projections that make the same impulses
with and without their Jacobian. What it answers needs no such assumption where the velocities have
just been set: nothing is up to date there, and the blocks, the dense Hessian and products with the
Hessian have the outcomes they have without memory.
-/

namespace ConvexContact.Model

variable {K : Type} [Arith K] {m : Model K} {v : Vec K} {s : ModelState K (Quantity.Value K)}

/-- The product of the Hessian with `w` at state `s`, once the velocities there have been set. -/
def productAt (m : Model K) (s : ModelState K (Quantity.Value K)) (g w : Given K) :
    Except (Error K) (Vec K) :=
  ((do m.setVelocities g; m.multiplyHessian w : Evaluation K (Vec K)).runAt s).1

/-- The blocks have the outcome they have without memory. -/
theorem exists_runAt_blocks (hs : s.size = m.velocityCount) :
    ∃ t, m.evalConstraintsHessian.runAt (s.replace v) =
      (m.valueAt v .constraintsHessian, t) := by
  have hcoherent := coherent_replace hs v
  have hy := follows_unprojectedImpulses.runs _ hcoherent
  rw [evalConstraintsHessian, memoized_miss hcoherent (valid_replace s v _),
    valueAt_constraintsHessian]
  change ∃ t, _ = ((m.trace v .unprojectedImpulses).outcome >>= _, t)
  cases hout : (m.trace v .unprojectedImpulses).outcome with
  | error e =>
    rw [hout] at hy
    rw [Evaluation.runAt_bind_of_error _ hy]
    exact ⟨_, rfl⟩
  | ok y =>
    rw [hout] at hy
    rw [Evaluation.runAt_bind_of_ok _ hy]
    -- what is stored for the impulses here may be wrong, so nothing is said of the state that is
    -- left
    cases hjoint : m.stack.projectWithHessian y with
    | error e =>
      rw [Evaluation.runAt_bind_of_error _ (Evaluation.runAt_lift _ _)]
      exact ⟨_, congrArg (·, _) (by rw [Outcome.bind_of_ok _ rfl, hjoint]; rfl)⟩
    | ok answer =>
      rw [Evaluation.runAt_bind_of_ok _ (Evaluation.runAt_lift _ _)]
      exact ⟨_, congrArg (·, _) (by rw [Outcome.bind_of_ok _ rfl, hjoint]; rfl)⟩

/-- What goes on from the blocks by a computation that leaves the state alone. -/
theorem runAt_blocks_bind {α : Type} (hs : s.size = m.velocityCount)
    (f : List (Mat K) → Except (Error K) α) :
    ((m.evalConstraintsHessian >>= fun G => Evaluation.lift (f G)).runAt (s.replace v)).1 =
      m.valueAt v .constraintsHessian >>= f := by
  obtain ⟨t, ht⟩ := exists_runAt_blocks (v := v) hs
  cases hG : m.valueAt v .constraintsHessian with
  | error e =>
    rw [hG] at ht
    rw [Evaluation.runAt_bind_of_error _ ht]
    rfl
  | ok G =>
    rw [hG] at ht
    rw [Evaluation.runAt_bind_of_ok _ ht]
    rfl

/-- The blocks at given velocities are those of the trace, whatever the projections are. -/
theorem evalAt_constraintsHessian (hs : s.size = m.velocityCount) (hv : v.size = m.velocityCount) :
    m.evalAt s .constraintsHessian (.tensor v.toTensor) = m.valueAt v .constraintsHessian := by
  have hset := runAt_setVelocities_of_ok hs (Given.velocities_toTensor hv)
  obtain ⟨t, ht⟩ := exists_runAt_blocks (v := v) hs
  rw [evalAt, Evaluation.runAt_bind_of_ok _ hset]
  exact congrArg Prod.fst ht

/-- The dense Hessian is assembled from the blocks, and the cell it fills is its own. -/
theorem evalAt_hessian (hs : s.size = m.velocityCount) (hv : v.size = m.velocityCount) :
    m.evalAt s .hessian (.tensor v.toTensor) = m.valueAt v .hessian := by
  have hset := runAt_setVelocities_of_ok hs (Given.velocities_toTensor hv)
  have hcompute := runAt_blocks_bind (v := v) hs m.hessianOf
  rw [evalAt, Evaluation.runAt_bind_of_ok _ hset, valueAt_hessian, ← hcompute]
  change (m.evalHessian.runAt (s.replace v)).1 = _
  rw [evalHessian, memoized_miss (coherent_replace hs v) (valid_replace s v _)]
  rcases (m.evalConstraintsHessian >>= fun G => Evaluation.lift (m.hessianOf G)).runAt
    (s.replace v) with ⟨e | H, t⟩ <;> rfl

/-- A product with the Hessian is computed from the blocks. -/
theorem productAt_eq (hs : s.size = m.velocityCount) (hv : v.size = m.velocityCount) (w : Vec K) :
    m.productAt s (.tensor v.toTensor) (.tensor w.toTensor) =
      m.valueAt v .constraintsHessian >>= fun G => m.multiplyHessianOf G w := by
  have hset := runAt_setVelocities_of_ok hs (Given.velocities_toTensor hv)
  rw [productAt, Evaluation.runAt_bind_of_ok _ hset]
  exact runAt_blocks_bind hs fun G => m.multiplyHessianOf G w

end ConvexContact.Model
