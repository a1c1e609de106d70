import Mathlib.Algebra.Order.Ring.Int
import ConvexContact.Proofs.Index.PartialPermutation

/-!
# Partial permutations read from vectors

A vector of numbers is read in one pass (`PartialPermutation.placeAll`). The pass keeps a table of
the numbers that have been given, and what it knows of the entries behind it is `Placed`: the table
inverts them, and as many numbers are given as entries are not negative. No step looks whether a
number is left over. None is: at the end as many numbers are given as there are, so all of them are
(`Placed.full`).

A vector that is accepted makes a permutation whose tables undo each other, with the entries of the
vector as numbers (`PartialPermutation.valid_of_ofVector`).
-/

namespace ConvexContact

variable {K : Type}

/-- Where an entry stands in a list with one more entry. -/
theorem getElem?_concat_eq_some {α : Type} {xs : List α} {x y : α} {i : Nat} :
    (xs ++ [x])[i]? = some y ↔ xs[i]? = some y ∨ i = xs.length ∧ x = y := by
  rcases Nat.lt_trichotomy i xs.length with hlt | rfl | hlt
  · rw [List.getElem?_append_left hlt]
    simp [Nat.ne_of_lt hlt]
  · simp
  · have hlength : (xs ++ [x]).length ≤ i := by
      rw [List.length_append, List.length_singleton]
      exact hlt
    rw [List.getElem?_eq_none_iff.mpr hlength, List.getElem?_eq_none_iff.mpr hlt.le]
    simp [Nat.ne_of_gt hlt]

namespace PartialPermutation

variable {p : PartialPermutation} {count : Nat} {table table' : List (Option Nat)}
  {entries done : List Int} {entry : Int}

/-! ## One entry

The state of the pass: what has been read, and the table of the numbers given so far. -/

/-- A step that succeeds passes over a negative entry, or gives a number that is still free. -/
theorem place_eq_ok {position : Nat} :
    place (K := K) count table position entry = .ok table' ↔
      entry < 0 ∧ table' = table ∨
        ∃ n : Nat, entry = n ∧ table[n]? = some none ∧ table' = table.set n (some position) := by
  unfold place
  split
  · rename_i hneg
    constructor
    · intro h
      exact Or.inl ⟨hneg, (Except.ok.inj h).symm⟩
    · rintro (⟨-, rfl⟩ | ⟨n, rfl, -⟩)
      · rfl
      · exact absurd hneg (Int.not_lt.mpr (Int.natCast_nonneg n))
  · rename_i hneg
    lift entry to ℕ using Int.not_lt.mp hneg
    rw [Int.toNat_natCast]
    constructor
    · intro h
      split at h
      · rename_i hfree
        exact Or.inr ⟨entry, rfl, hfree, (Except.ok.inj h).symm⟩
      · cases h
    · rintro (⟨hneg', -⟩ | ⟨n, hn, hfree, rfl⟩)
      · exact absurd hneg' hneg
      · obtain rfl := Int.ofNat.inj hn
        rw [hfree]

/-- What is known once the entries `done` have been read. -/
structure Placed (count : Nat) (done : List Int) (table : List (Option Nat)) : Prop where
  length : table.length = count
  /-- a number is given to the place where it stands -/
  getElem?_eq_some_iff : ∀ n i : Nat, table[n]? = some (some i) ↔ done[i]? = some (n : Int)
  /-- every entry that is not negative has taken a number -/
  taken : table.countP Option.isSome = (done.filter (0 ≤ ·)).length

/-- Before anything has been read no number is given. -/
theorem placed_nil (count : Nat) : Placed count [] (List.replicate count none) where
  length := List.length_replicate
  getElem?_eq_some_iff n i := by
    rw [List.getElem?_replicate]
    split <;> simp
  taken := by simp [List.countP_replicate]

/-- Giving a number that is free. -/
theorem Placed.set (h : Placed count done table) {n : Nat} (hfree : table[n]? = some none) :
    Placed count (done ++ [(n : Int)]) (table.set n (some done.length)) where
  length := by rw [List.length_set, h.length]
  getElem?_eq_some_iff m i := by
    obtain ⟨hn, hnone⟩ := List.getElem?_eq_some_iff.mp hfree
    rw [getElem?_concat_eq_some]
    by_cases hmn : n = m
    · subst hmn
      -- a free number stands nowhere yet
      have hnew : done[i]? ≠ some (n : Int) := by
        rw [Ne, ← h.getElem?_eq_some_iff, hfree]
        simp
      rw [List.getElem?_set_self hn]
      simp [hnew, eq_comm]
    · rw [List.getElem?_set_ne hmn, h.getElem?_eq_some_iff]
      simp [hmn]
  taken := by
    obtain ⟨hn, hnone⟩ := List.getElem?_eq_some_iff.mp hfree
    rw [List.countP_set hn, h.taken, hnone, List.filter_append]
    simp

/-- **Step.** What is known of the entries that have been read is known with the next one. -/
theorem Placed.place (h : Placed count done table)
    (hplace : PartialPermutation.place (K := K) count table done.length entry = .ok table') :
    Placed count (done ++ [entry]) table' := by
  rcases place_eq_ok.mp hplace with ⟨hneg, rfl⟩ | ⟨n, rfl, hfree, rfl⟩
  · refine ⟨h.length, fun n i => ?_, ?_⟩
    -- a negative entry takes no number, and stands for none
    · rw [h.getElem?_eq_some_iff, getElem?_concat_eq_some, or_iff_left]
      rintro ⟨-, rfl⟩
      exact absurd hneg (Int.not_lt.mpr (Int.natCast_nonneg n))
    · rw [h.taken, List.filter_append]
      simp [Int.not_le.mpr hneg]
  · exact h.set hfree

/-! ## All entries -/

/-- **Run.** It is known of all entries once they have been read. -/
theorem Placed.placeAll {rest : List Int} (h : Placed count done table)
    (hplace : PartialPermutation.placeAll (K := K) count table done.length rest = .ok table') :
    Placed count (done ++ rest) table' := by
  induction rest generalizing done table with
  | nil =>
    obtain rfl := Except.ok.inj hplace
    rwa [List.append_nil]
  | cons entry rest ih =>
    obtain ⟨next, hnext, hplace⟩ := Outcome.bind_eq_ok.mp hplace
    have hlength : (done ++ [entry]).length = done.length + 1 := by simp
    rw [← hlength] at hplace
    have hrest := ih (h.place hnext) hplace
    rwa [List.append_assoc] at hrest

/-- Where as many entries take a number as there are numbers, every number is given. -/
theorem Placed.full (h : Placed count done table) (hcount : (done.filter (0 ≤ ·)).length = count) :
    ∀ x ∈ table, x.isSome := by
  rw [← List.countP_eq_length, h.taken, hcount, h.length]

/-- A table in which every number is given has no gaps. -/
theorem map_some_filterMap_id (h : ∀ x ∈ table, x.isSome) :
    (table.filterMap id).map some = table := by
  rw [List.map_filterMap, List.filterMap_congr (g := some), List.filterMap_some]
  intro x hx
  obtain ⟨k, rfl⟩ := Option.isSome_iff_exists.mp (h x hx)
  rfl

/-- A table in which every number is given lists the places of the numbers. -/
theorem getElem?_filterMap_id (h : ∀ x ∈ table, x.isSome) (n i : Nat) :
    (table.filterMap id)[n]? = some i ↔ table[n]? = some (some i) := by
  conv_rhs => rw [← map_some_filterMap_id h]
  simp

/-- The number that stands in the vector. -/
theorem number?_map_entries (inverse : List Nat) (i n : Nat) :
    PartialPermutation.number?
      ⟨entries.map fun p => if p < 0 then none else some p.toNat, inverse⟩ i = some n ↔
      entries[i]? = some (n : Int) := by
  rw [number?, List.getElem?_map]
  cases entries[i]? with
  | none => simp
  | some entry =>
    simp only [Option.map_some, Option.join_some, Option.some.injEq]
    split
    · exact iff_of_false (fun h => by cases h) (by omega)
    · rw [Option.some.injEq]
      omega

/-- **Vectors.** A vector that is accepted makes a permutation of as many indices as it has entries,
whose tables undo each other, and the index at a place has the number that stands there. -/
theorem valid_of_ofVector (h : ofVector (K := K) entries = .ok p) :
    p.Valid ∧ p.domainSize = entries.length ∧
      ∀ i n : Nat, p.number? i = some n ↔ entries[i]? = some (n : Int) := by
  obtain ⟨table, htable, h⟩ := Outcome.bind_eq_ok.mp h
  obtain rfl := Outcome.pure_eq_ok.mp h
  have hplaced : Placed _ entries table := (placed_nil _).placeAll htable
  refine ⟨⟨fun i n => ?_⟩, List.length_map _, number?_map_entries _⟩
  rw [number?_map_entries, getElem?_filterMap_id (hplaced.full rfl), hplaced.getElem?_eq_some_iff]

end PartialPermutation

end ConvexContact
