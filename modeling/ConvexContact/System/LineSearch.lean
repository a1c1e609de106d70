import ConvexContact.Model.Summary

/-!
# Line search

A model is sampled along the line `v(s) = v* + s·d`. Every sample is a row: the summary of the model
there, the slope `∇ℓ·d` and the curvature `dᵀ·H·d`. One state serves all samples, so each row
depends on the velocities of its own sample only because setting them puts every quantity out of
date.
-/

namespace ConvexContact.LineSearch

variable {K : Type} [Arith K]

/-! ## Samples -/

/-- The `i`-th of `n` evenly spaced numbers from `lo` to `hi`: the lower half is counted up from
`lo`, the upper half down from `hi`. -/
def sample (f : Format) (lo hi : K) (n i : Nat) : K :=
  let lo := Arith.cast f lo
  let hi := Arith.cast f hi
  let step := Arith.divIn f (Arith.subIn f hi lo) (Arith.cast f ((n - 1 : Nat) : K))
  if n = 1 then lo
  else if i < n / 2 then Arith.addIn f lo (Arith.mulIn f step (Arith.cast f (i : K)))
  else Arith.subIn f hi (Arith.mulIn f step (Arith.cast f ((n - 1 - i : Nat) : K)))

/-- `n` evenly spaced numbers from `lo` to `hi`. -/
def samples (f : Format) (lo hi : K) (n : Nat) : List K := (List.range n).map (sample f lo hi n)

/-- Whether there can be a given number of samples. -/
def checkCount (count : Int) : Except (Error K) Unit :=
  if count < -(Int.pow 2 63) ∨ Int.pow 2 63 ≤ count then .error .wideEntry
  else if count < 0 then .error .negativeSampleCount
  else checkShape [count.toNat]

/-- `count` evenly spaced numbers from `lo` to `hi`, if they can be stored in format `f`. An end
that no sample is counted from is not looked at. -/
def samples? (f : Format) (lo hi : K) (count : Int) : Except (Error K) (List K) := do
  checkCount count
  let ends := [lo, hi].take count.toNat
  if ends.all (Arith.fits f) then return samples f lo hi count.toNat else .error .outOfFormat

/-! ## Rows -/

/-- The model at one sample. -/
structure Row (K : Type) where
  s : K
  summary : Summary K
  slope : Scalar K
  curvature : Scalar K

/-- The row of the sample `s` along the direction `d`. -/
def row (m : Model K) (d : Vec K) (s : K) : Evaluation K (Row K) := do
  m.setVelocities (.tensor (m.vStar.add (d.scale s)).toTensor)
  let summary ← m.summarize
  let slope := (← m.evalCostGradient).dot d
  let curvature := d.dot (← m.multiplyHessian (.tensor d.toTensor))
  return ⟨s, summary, slope, curvature⟩

/-- The rows of all samples, one after the other on one state. -/
def rows (m : Model K) (d : Vec K) (points : List K) : Evaluation K (List (Row K)) :=
  points.mapM (row m d)

/-- The first row of least cost; a row whose cost is unordered with the rest is not passed by. -/
def least : List (Row K) → Option (Row K)
  | [] => none
  | r :: rest =>
    some (rest.foldl (fun best r =>
      if Arith.lt r.summary.total.value best.summary.total.value then r else best) r)

@[simp] theorem length_samples (f : Format) (lo hi : K) (n : Nat) :
    (samples f lo hi n).length = n := by
  simp [samples]

end ConvexContact.LineSearch
