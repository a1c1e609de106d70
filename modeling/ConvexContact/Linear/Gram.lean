import ConvexContact.Linear.Mat

/-!
# Positive definite matrices from a sample

Any square sample `M` yields the symmetric positive definite matrix `M·Mᵀ + n·I`.
-/

namespace ConvexContact

variable {K : Type} [Arith K]

/-- The matrix `M·Mᵀ + n·I` of the sample `M` with `n` rows and columns. -/
def shiftedGram (M : Mat K) : Mat K :=
  (M.product M.transpose).add ((Mat.identity M.format M.rows).scale ((M.rows : Nat) : K))

/-- The positive definite matrix of a sample given entry by entry, stored in format `f`. -/
def shiftedGram? (f : Format) (n : Int) (sample : List K) : Except (Error K) (Mat K) :=
  if n < 0 then .error .sampleSize
  else if sample.length = n.toNat * n.toNat then
    let n := n.toNat
    let M := Mat.ofFn .double n n fun i j => Arith.cast .double (sample.getD (i * n + j) 0)
    .ok ((shiftedGram M).cast f)
  else .error .sampleSize

end ConvexContact
