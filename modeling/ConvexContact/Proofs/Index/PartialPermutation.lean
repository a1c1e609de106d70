import Mathlib.Data.List.Nodup
import ConvexContact.Proofs.Outcome
import ConvexContact.Index.PartialPermutation

/-!
# Partial permutations as bijections

The two tables of a partial permutation undo each other (`PartialPermutation.Valid`): this holds of
the blank one, and numbering a further index keeps it. What takes part after indices have been
pushed are these indices and what took part before; where they are all new they are numbered in
their order.

`PartialPermutation.Valid` is one equivalence, from which the rest is read off: that indices which
take part lie in the domain, that none takes part twice, and that having no number is not being
listed. The step lemma is `PartialPermutation.Valid.number`, the run
`PartialPermutation.Valid.pushAll`.
-/

namespace ConvexContact

variable {K : Type}

namespace PartialPermutation

/-- The tables undo each other. -/
structure Valid (p : PartialPermutation) : Prop where
  number?_eq_some_iff : ∀ i n, p.number? i = some n ↔ p.inverse[n]? = some i

section Valid

variable {p q : PartialPermutation} {i n : Nat}

/-- Only indices of the domain take part. -/
theorem lt_of_number? (h : p.number? i = some n) : i < p.domainSize := by
  by_contra hi
  have hnone : p.forward[i]? = none := List.getElem?_eq_none_iff.mpr (Nat.le_of_not_lt hi)
  rw [number?, hnone] at h
  cases h

/-- What is listed lies in the domain. -/
theorem Valid.lt_of_mem (hp : p.Valid) (h : i ∈ p.inverse) : i < p.domainSize := by
  obtain ⟨n, hn⟩ := List.mem_iff_getElem?.mp h
  exact lt_of_number? ((hp.number?_eq_some_iff i n).mpr hn)

/-- An index with a number takes part. -/
theorem Valid.mem_of_number? (hp : p.Valid) (h : p.number? i = some n) : i ∈ p.inverse :=
  List.mem_of_getElem? ((hp.number?_eq_some_iff i n).mp h)

/-- The number of an index of the domain is looked up. -/
theorem permutedIndex_eq_ok : p.permutedIndex (K := K) i = .ok n ↔ p.number? i = some n := by
  constructor
  · intro h
    obtain ⟨k, hk, h⟩ := Outcome.bind_eq_ok.mp h
    obtain rfl : i = k := Int.ofNat.inj (check_eq_ok_iff.mp hk).1
    cases hn : p.number? i with
    | none =>
      rw [hn] at h
      cases h
    | some n' =>
      rw [hn] at h
      exact congrArg some (Except.ok.inj h)
  · intro h
    rw [permutedIndex, Outcome.bind_of_ok _ (check_eq_ok_iff.mpr ⟨rfl, lt_of_number? h⟩)]
    simp only [h]

/-- Whether an index of the domain takes part is looked up. -/
theorem participates_of_lt (h : i < p.domainSize) :
    p.participates (K := K) i = .ok (p.number? i).isSome := by
  rw [participates, Outcome.bind_of_ok _ (check_eq_ok_iff.mpr ⟨rfl, h⟩)]
  rfl

/-- The index with a number is looked up. -/
theorem domainIndex_eq_ok : p.domainIndex (K := K) n = .ok i ↔ p.inverse[n]? = some i := by
  rw [domainIndex, if_neg (Int.not_lt.mpr (Int.natCast_nonneg n)), Int.toNat_natCast]
  cases p.inverse[n]? with
  | none => exact iff_of_false nofun nofun
  | some j => rw [Except.ok.injEq, Option.some.injEq]

/-- An index without a number does not take part. -/
theorem Valid.number?_eq_none_iff (hp : p.Valid) : p.number? i = none ↔ i ∉ p.inverse := by
  constructor
  · intro h hmem
    obtain ⟨n, hn⟩ := List.mem_iff_getElem?.mp hmem
    rw [(hp.number?_eq_some_iff i n).mpr hn] at h
    cases h
  · intro h
    cases hn : p.number? i with
    | none => rfl
    | some n => exact absurd (hp.mem_of_number? hn) h

/-- No index takes part twice. -/
theorem Valid.nodup (hp : p.Valid) : p.inverse.Nodup := by
  apply List.nodup_iff_injective_get.mpr
  intro a b hab
  have ha := (hp.number?_eq_some_iff (p.inverse.get a) a).mpr (by simp)
  have hb := (hp.number?_eq_some_iff (p.inverse.get a) b).mpr (by rw [hab]; simp)
  rw [ha] at hb
  exact Fin.ext (Option.some.inj hb)

/-- Nor does an index take part twice when indices are read as integers. -/
theorem Valid.nodup_map (hp : p.Valid) : (p.inverse.map Int.ofNat).Nodup :=
  hp.nodup.map fun _ _ => Int.ofNat.inj

/-- An index that takes part has its place among those that do as its number. -/
theorem Valid.permutedIndex_eq (hq : q.Valid) {x : Int} (hx : x ∈ q.inverse.map Int.ofNat) :
    q.permutedIndex (K := K) x = .ok ((q.inverse.map Int.ofNat).idxOf x) := by
  have hn : (q.inverse.map Int.ofNat).idxOf x < q.inverse.length := by
    rw [← List.length_map (f := Int.ofNat)]
    exact List.idxOf_lt_length_of_mem hx
  have hentry : (q.inverse[(q.inverse.map Int.ofNat).idxOf x] : Int) = x := by
    have hget := List.getElem_idxOf (List.idxOf_lt_length_of_mem hx)
    rwa [List.getElem_map] at hget
  generalize (q.inverse.map Int.ofNat).idxOf x = n at *
  rw [← hentry]
  exact permutedIndex_eq_ok.mpr
    ((hq.number?_eq_some_iff _ n).mpr (List.getElem?_eq_getElem hn))

/-- Where nothing takes part there is nothing to undo. -/
theorem valid_blank (size : Nat) : (blank size).Valid where
  number?_eq_some_iff i n := by
    simp only [blank, number?, List.getElem?_replicate]
    split <;> simp

/-- Numbering an index keeps the tables undoing each other. -/
theorem Valid.number (hp : p.Valid) (hi : i < p.domainSize) : (p.number i).1.Valid := by
  cases hn : p.number? i with
  | some n =>
    rw [number_of_some hn]
    exact hp
  | none =>
    rw [number_of_none hn]
    have hnew : i ∉ p.inverse := hp.number?_eq_none_iff.mp hn
    refine ⟨fun j k => ?_⟩
    by_cases hij : i = j
    · subst hij
      have hset : (p.forward.set i (some p.size))[i]? = some (some p.size) := by
        rw [List.getElem?_set_self hi]
      simp only [number?, hset, Option.join_some, Option.some.injEq]
      -- the index itself: its number is the next one, at the end of the other table
      constructor
      · rintro rfl
        simp [size]
      · intro hk
        by_contra hne
        rcases Nat.lt_or_ge k p.inverse.length with hlt | hge
        · rw [List.getElem?_append_left hlt] at hk
          exact hnew (List.mem_of_getElem? hk)
        · have hkne : k ≠ p.inverse.length := fun h => hne h.symm
          have hlen : (p.inverse ++ [i]).length ≤ k := by
            rw [List.length_append, List.length_singleton]
            omega
          rw [List.getElem?_eq_none_iff.mpr hlen] at hk
          cases hk
    -- any other index keeps its number, and the new entry is not it
    · have hold := hp.number?_eq_some_iff j k
      simp only [number?] at hold ⊢
      rw [List.getElem?_set_ne hij, hold]
      rcases Nat.lt_or_ge k p.inverse.length with hlt | hge
      · rw [List.getElem?_append_left hlt]
      · rw [List.getElem?_append_right hge, List.getElem?_eq_none_iff.mpr hge]
        rcases Nat.eq_or_lt_of_le hge with heq | hlt
        · simp [heq, hij]
        · have hnone : [i][k - p.inverse.length]? = none :=
            List.getElem?_eq_none_iff.mpr (by simp; omega)
          rw [hnone]

/-- What takes part after an index has been numbered. -/
theorem Valid.mem_inverse_number (hp : p.Valid) {j : Nat} :
    j ∈ (p.number i).1.inverse ↔ j ∈ p.inverse ∨ j = i := by
  cases hn : p.number? i with
  | some n =>
    rw [number_of_some hn]
    refine ⟨Or.inl, ?_⟩
    rintro (h | rfl)
    · exact h
    · exact hp.mem_of_number? hn
  | none =>
    rw [number_of_none hn]
    simp

end Valid

/-! ## Pushing -/

section Push

variable {p q : PartialPermutation}

/-- A push that succeeds is about an index of the domain, which is numbered. -/
theorem push_eq_ok {i : Int} {answer : PartialPermutation × Nat}
    (h : p.push (K := K) i = .ok answer) :
    ∃ k : Nat, i = k ∧ k < p.domainSize ∧ answer = p.number k := by
  obtain ⟨k, hk, h⟩ := Outcome.bind_eq_ok.mp h
  obtain ⟨hik, hlt⟩ := check_eq_ok_iff.mp hk
  exact ⟨k, hik, hlt, (Outcome.pure_eq_ok.mp h).symm⟩

/-- An index of the domain can be pushed. -/
theorem push_of_lt {k : Nat} (hk : k < p.domainSize) :
    p.push (K := K) k = .ok (p.number k) := by
  rw [push, Outcome.bind_of_ok _ (check_eq_ok_iff.mpr ⟨rfl, hk⟩)]
  rfl

/-- What takes part after indices have been pushed. -/
theorem Valid.pushAll (hp : p.Valid) {is : List Int} (h : p.pushAll (K := K) is = .ok q) :
    q.Valid ∧ q.domainSize = p.domainSize ∧
      ∀ j : Nat, j ∈ q.inverse ↔ j ∈ p.inverse ∨ (j : Int) ∈ is := by
  refine Outcome.foldlM_induction (fun done q => q.Valid ∧ q.domainSize = p.domainSize ∧
    ∀ j : Nat, j ∈ q.inverse ↔ j ∈ p.inverse ∨ (j : Int) ∈ done) ⟨hp, rfl, by simp⟩ ?_ h
  rintro done x r r' - ⟨hr, hdomain, hmem⟩ hstep
  obtain ⟨answer, hpush, rfl⟩ := Outcome.map_eq_ok.mp hstep
  obtain ⟨k, rfl, hk, rfl⟩ := push_eq_ok hpush
  refine ⟨hr.number hk, by rw [domainSize_number, hdomain], fun j => ?_⟩
  rw [hr.mem_inverse_number, hmem, or_assoc, List.mem_append, List.mem_singleton, Int.natCast_inj]

/-- Indices of the domain can be pushed. -/
theorem exists_pushAll {is : List Int} (h : ∀ i ∈ is, 0 ≤ i ∧ i < p.domainSize) :
    ∃ q, p.pushAll (K := K) is = .ok q := by
  have hpush : ∀ (done : List Int) (i : Int) (r : PartialPermutation),
      (∃ rest, done ++ i :: rest = is) → r.domainSize = p.domainSize →
      ∃ r', (·.1) <$> r.push (K := K) i = .ok r' ∧ r'.domainSize = p.domainSize := by
    rintro done i r ⟨rest, rfl⟩ hr
    obtain ⟨hnonneg, hlt⟩ := h i (by simp)
    obtain ⟨k, rfl⟩ := Int.eq_ofNat_of_zero_le hnonneg
    have hk : k < r.domainSize := by
      rw [hr]
      exact Int.ofNat_lt.mp hlt
    refine ⟨(r.number k).1, ?_, by rw [domainSize_number, hr]⟩
    rw [push_of_lt hk]
    rfl
  obtain ⟨q, hq, -⟩ := Outcome.exists_foldlM
    (fun _ (r : PartialPermutation) => r.domainSize = p.domainSize) rfl hpush
  exact ⟨q, hq⟩

/-- Indices that are all new are numbered in their order. -/
theorem Valid.inverse_pushAll (hp : p.Valid) {is : List Nat} (hnew : (p.inverse ++ is).Nodup)
    (h : p.pushAll (K := K) (is.map Int.ofNat) = .ok q) : q.inverse = p.inverse ++ is := by
  induction is generalizing p with
  | nil =>
    obtain rfl := Outcome.pure_eq_ok.mp h
    simp
  | cons i is ih =>
    obtain ⟨r, hr, h⟩ := Outcome.foldlM_cons_eq_ok.mp h
    obtain ⟨answer, hpush, rfl⟩ := Outcome.map_eq_ok.mp hr
    obtain ⟨k, hik, hk, rfl⟩ := push_eq_ok hpush
    obtain rfl : i = k := Int.ofNat.inj hik
    have hi : i ∉ p.inverse := fun hmem =>
      (List.nodup_append.mp hnew).2.2 i hmem i (by simp) rfl
    have hinverse : (p.number i).1.inverse = p.inverse ++ [i] := by
      rw [number_of_none (hp.number?_eq_none_iff.mpr hi)]
    have hrest := ih (hp.number hk) (by rw [hinverse]; simpa using hnew) h
    rw [hrest, hinverse]
    simp

end Push

end PartialPermutation

end ConvexContact
