import Mathlib.Algebra.Order.Ring.Int
import Mathlib.Data.List.Induction
import ConvexContact.Proofs.Index.PartialPermutation

/-!
# Distinct entries in the order in which they first occur

`List.eraseDups` keeps the first occurrence of every entry of a list. A list that grows by an entry
keeps its distinct entries in place, and gets one more when the entry is new
(`eraseDups_append_singleton`). A partial permutation that starts out blank numbers the distinct
ones among the indices that are pushed (`PartialPermutation.inverse_pushAll_blank`).

Everything about runs goes by induction from the end of the list, since that is where lists of
indices grow.
-/

namespace ConvexContact

section Distinct

variable {α β : Type} [BEq α] [LawfulBEq α] [BEq β] [LawfulBEq β]

/-- Nothing is left of entries that are all removed. -/
theorem removeAll_eq_nil {xs ys : List α} (h : ∀ x ∈ xs, x ∈ ys) : xs.removeAll ys = [] := by
  rw [List.removeAll, List.filter_eq_nil_iff]
  intro x hx
  simpa using h x hx

/-- What is removed is a matter of membership. -/
theorem removeAll_congr (xs : List α) {ys zs : List α} (h : ∀ x, x ∈ ys ↔ x ∈ zs) :
    xs.removeAll ys = xs.removeAll zs := by
  apply List.filter_congr
  intro x _
  simp [h x]

/-- Entries that are all there already add nothing. -/
theorem eraseDups_append_of_mem {xs ys : List α} (h : ∀ y ∈ ys, y ∈ xs) :
    (xs ++ ys).eraseDups = xs.eraseDups := by
  rw [List.eraseDups_append, removeAll_eq_nil h, List.eraseDups_nil, List.append_nil]

/-- A further entry stands at the end if it is new. -/
theorem eraseDups_append_singleton (xs : List α) (x : α) :
    (xs ++ [x]).eraseDups = if x ∈ xs then xs.eraseDups else xs.eraseDups ++ [x] := by
  split
  · rename_i hx
    exact eraseDups_append_of_mem (by simpa using hx)
  · rename_i hx
    have hnew : [x].removeAll xs = [x] := by simp [List.removeAll, hx]
    rw [List.eraseDups_append, hnew]
    simp [List.eraseDups_cons]

/-- Each entry is kept once. -/
theorem nodup_eraseDups (xs : List α) : xs.eraseDups.Nodup := by
  induction xs using List.reverseRecOn with
  | nil => simp
  | append_singleton xs x ih =>
    rw [eraseDups_append_singleton]
    split
    · exact ih
    · rename_i hx
      rw [List.nodup_append]
      refine ⟨ih, List.nodup_singleton x, ?_⟩
      rintro y hy z hz rfl
      obtain rfl := List.mem_singleton.mp hz
      exact hx (List.mem_eraseDups.mp hy)

/-- A list without repetitions is left as it is. -/
theorem eraseDups_of_nodup {xs : List α} (h : xs.Nodup) : xs.eraseDups = xs := by
  induction xs using List.reverseRecOn with
  | nil => rfl
  | append_singleton xs x ih =>
    obtain ⟨hxs, -, hx⟩ := List.nodup_append.mp h
    have hnew : x ∉ xs := fun hmem => hx x hmem x (by simp) rfl
    rw [eraseDups_append_singleton, if_neg hnew, ih hxs]

/-- Of what comes first, only the distinct entries matter. -/
theorem eraseDups_eraseDups_append (xs ys : List α) :
    (xs.eraseDups ++ ys).eraseDups = (xs ++ ys).eraseDups := by
  rw [List.eraseDups_append, List.eraseDups_append, eraseDups_of_nodup (nodup_eraseDups xs),
    removeAll_congr ys fun _ => List.mem_eraseDups]

/-- What the distinct entries of a list are sent to is met in the order in which the entries
themselves are sent to it. -/
theorem eraseDups_flatMap_eraseDups (xs : List α) (f : α → List β) :
    (xs.eraseDups.flatMap f).eraseDups = (xs.flatMap f).eraseDups := by
  induction xs using List.reverseRecOn with
  | nil => simp
  | append_singleton xs x ih =>
    have hmem : ∀ y, y ∈ xs.eraseDups.flatMap f ↔ y ∈ xs.flatMap f := by simp [List.mem_eraseDups]
    rw [eraseDups_append_singleton, List.flatMap_append, List.flatMap_singleton]
    split
    · rename_i hx
      rw [ih, eraseDups_append_of_mem]
      exact fun y hy => List.mem_flatMap.mpr ⟨x, hx, hy⟩
    · rw [List.flatMap_append, List.flatMap_singleton, List.eraseDups_append, ih,
        removeAll_congr (f x) hmem, ← List.eraseDups_append]

end Distinct

namespace PartialPermutation

variable {K : Type} {p q : PartialPermutation}

/-- Numbering an index lists it, if it is new. -/
theorem Valid.inverse_number (hp : p.Valid) (k : Nat) :
    (p.number k).1.inverse.map Int.ofNat = (p.inverse.map Int.ofNat ++ [(k : Int)]).eraseDups := by
  have hmem : (k : Int) ∈ p.inverse.map Int.ofNat ↔ k ∈ p.inverse := by simp
  rw [eraseDups_append_singleton, eraseDups_of_nodup hp.nodup_map]
  cases hn : p.number? k with
  | some n => rw [if_pos (hmem.mpr (hp.mem_of_number? hn)), number_of_some hn]
  | none =>
    rw [if_neg (mt hmem.mp (hp.number?_eq_none_iff.mp hn)), number_of_none hn, List.map_append]
    rfl

/-- Indices are numbered in the order in which they are pushed first. -/
theorem inverse_pushAll_blank {size : Nat} {is : List Int}
    (h : (blank size).pushAll (K := K) is = .ok q) : q.inverse.map Int.ofNat = is.eraseDups := by
  suffices q.Valid ∧ q.inverse.map Int.ofNat = is.eraseDups from this.2
  refine Outcome.foldlM_induction (fun done r => r.Valid ∧ r.inverse.map Int.ofNat = done.eraseDups)
    ⟨valid_blank size, rfl⟩ ?_ h
  rintro done x r r' - ⟨hr, hinverse⟩ hstep
  obtain ⟨answer, hpush, rfl⟩ := Outcome.map_eq_ok.mp hstep
  obtain ⟨k, rfl, hk, rfl⟩ := push_eq_ok hpush
  exact ⟨hr.number hk, by rw [hr.inverse_number, hinverse, eraseDups_eraseDups_append]⟩

end PartialPermutation

end ConvexContact
