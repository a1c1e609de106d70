/-!
# Signed positions

A position in a list of `n` entries counted from the front by `0 … n - 1`, or from the back by
`-1 … -n`. Any other whole number is no position.
-/

namespace ConvexContact

/-- The place from the front that a signed position means in a list of `n` entries. -/
def signedPosition? (n : Nat) (i : Int) : Option Nat :=
  if 0 ≤ i then
    if i < n then some i.toNat else none
  else
    if -(n : Int) ≤ i then some (i + n).toNat else none

/-- The entry at a signed position. -/
def atSigned? {α : Type} (xs : List α) (i : Int) : Option α :=
  (signedPosition? xs.length i).bind fun k => xs[k]?

theorem signedPosition?_lt {n : Nat} {i : Int} {k : Nat} (h : signedPosition? n i = some k) :
    k < n := by
  unfold signedPosition? at h
  split at h
  · split at h
    · cases h
      omega
    · cases h
  · split at h
    · cases h
      omega
    · cases h

@[simp] theorem signedPosition?_natCast {n k : Nat} (h : k < n) :
    signedPosition? n (k : Int) = some k := by
  unfold signedPosition?
  rw [if_pos (by omega), if_pos (by omega)]
  simp

/-- Counted from the front, the entry at a position is the one there. -/
@[simp] theorem atSigned?_natCast {α : Type} (xs : List α) (k : Nat) :
    atSigned? xs (k : Int) = xs[k]? := by
  by_cases hk : k < xs.length
  · rw [atSigned?, signedPosition?_natCast hk, Option.bind_some]
  · rw [atSigned?, signedPosition?, if_pos (by omega), if_neg (by omega), Option.bind_none,
      List.getElem?_eq_none (by omega)]

/-- A signed position exists exactly between `-n` and `n - 1`. -/
theorem signedPosition?_eq_none_iff {n : Nat} {i : Int} :
    signedPosition? n i = none ↔ i < -(n : Int) ∨ (n : Int) ≤ i := by
  unfold signedPosition?
  split
  · split
    · constructor
      · intro h
        cases h
      · omega
    · exact ⟨fun _ => Or.inr (by omega), fun _ => rfl⟩
  · split
    · constructor
      · intro h
        cases h
      · omega
    · exact ⟨fun _ => Or.inl (by omega), fun _ => rfl⟩

end ConvexContact
