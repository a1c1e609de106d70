import Mathlib.Data.List.Range
import Mathlib.Data.List.Perm.Subperm
import Mathlib.Data.Nat.Find
import ConvexContact.Error.Message
import ConvexContact.Proofs.Index.Vector

/-!
# Vectors that are accepted

A vector is read once from front to back, and given up at the first entry that is no number: one
that is not below their count, or that stands earlier already (`PartialPermutation.Misplaced`). That
all numbers have been given in the end is never looked at. It follows by counting: entries that are
distinct and below their own count are all of the numbers below it
(`PartialPermutation.perm_range_iff`).

The vector that is rebuilt from the numbers of the indices (`PartialPermutation.vector`) differs
from the one that was read only in its negative entries, and makes the same permutation.

Proof shape: being misplaced is said of a position in the whole vector, while the pass sees what it
has read so far. The two meet in `PartialPermutation.Placed.place_eq_error`, and the run is an
induction on what is left to read with the entries read so far as a parameter
(`PartialPermutation.Placed.placeAll_eq_error`). Everything else is about vectors only. Main
statement: `PartialPermutation.ofVector_accepts_bijections`.
-/

namespace ConvexContact

namespace PartialPermutation

variable {K : Type} {p q : PartialPermutation} {count : Nat} {table : List (Option Nat)}
  {entries done rest : List Int} {x : Int}

/-! ## Entries that are no numbers

The pass knows from the start how many numbers there are, and then the entries it has read. This is
enough to tell whether the next one is misplaced in the whole vector. -/

/-- The numbers in a vector. -/
def numbers (entries : List Int) : List Int := entries.filter (0 ≤ ·)

/-- The entry at a position cannot be given as a number: it is not below the count of the numbers,
or it stands earlier already. -/
def Misplaced (entries : List Int) (i : Nat) : Prop :=
  ∃ entry, entries[i]? = some entry ∧ 0 ≤ entry ∧
    ((numbers entries).length ≤ entry ∨ entry ∈ entries.take i)

/-- The first position whose entry is misplaced. -/
structure FirstMisplaced (entries : List Int) (i : Nat) (entry : Int) : Prop where
  getElem?_eq_some : entries[i]? = some entry
  misplaced : Misplaced entries i
  least : ∀ j < i, ¬ Misplaced entries j

/-- **Step.** A step fails at an entry that is not below the count, or that has been read before. -/
theorem Placed.place_eq_error (h : Placed count done table) {e : Error K} :
    PartialPermutation.place count table done.length x = .error e ↔
      (0 ≤ x ∧ (count ≤ x ∨ x ∈ done)) ∧ e = .notABijection count x done.length := by
  unfold PartialPermutation.place
  by_cases hneg : x < 0
  · rw [if_pos hneg]
    exact iff_of_false nofun fun hbad => absurd hneg (Int.not_lt.mpr hbad.1.1)
  rw [if_neg hneg]
  lift x to ℕ using Int.not_lt.mp hneg
  rw [Int.toNat_natCast]
  have hbeyond : table[x]? = none ↔ (count : Int) ≤ x := by
    rw [List.getElem?_eq_none_iff, h.length, Int.ofNat_le]
  have htaken : (∃ i, table[x]? = some (some i)) ↔ (x : Int) ∈ done := by
    rw [List.mem_iff_getElem?]
    exact exists_congr fun i => h.getElem?_eq_some_iff x i
  rw [← hbeyond, ← htaken]
  cases table[x]? with
  | none => simp [eq_comm]
  | some place =>
    cases place with
    | none => simp
    | some i => simp [eq_comm]

/-- **Run.** Reading the rest of a vector fails at the first entry that is misplaced. -/
theorem Placed.placeAll_eq_error (h : Placed (numbers entries).length done table)
    (hentries : entries = done ++ rest) {e : Error K} :
    PartialPermutation.placeAll (numbers entries).length table done.length rest = .error e ↔
      ∃ i entry, done.length ≤ i ∧ entries[i]? = some entry ∧ Misplaced entries i ∧
        (∀ j, done.length ≤ j → j < i → ¬ Misplaced entries j) ∧
        e = .notABijection (numbers entries).length entry i := by
  induction rest generalizing done table with
  | nil =>
    refine iff_of_false nofun ?_
    rintro ⟨i, entry, hi, hentry, -⟩
    rw [hentries, List.append_nil, List.getElem?_eq_none hi] at hentry
    cases hentry
  | cons x rest ih =>
    have hx : entries[done.length]? = some x := by simp [hentries]
    have htake : entries.take done.length = done := by simp [hentries]
    -- the next entry is misplaced exactly if the step fails
    have hfirst : Misplaced entries done.length ↔
        0 ≤ x ∧ ((numbers entries).length ≤ x ∨ x ∈ done) := by
      unfold Misplaced
      rw [hx, htake]
      simp
    have hlength : (done ++ [x]).length = done.length + 1 := by simp
    cases hstep :
      PartialPermutation.place (K := K) (numbers entries).length table done.length x with
    | error e' =>
      obtain ⟨hbad, rfl⟩ := h.place_eq_error.mp hstep
      have hrun : PartialPermutation.placeAll (K := K) (numbers entries).length table done.length
          (x :: rest) = .error (.notABijection (numbers entries).length x done.length) := by
        rw [PartialPermutation.placeAll, hstep]
        rfl
      rw [hrun, Except.error.injEq]
      constructor
      · rintro rfl
        refine ⟨_, x, le_rfl, hx, hfirst.mpr hbad, fun j hj hlt => ?_, rfl⟩
        exact absurd hlt (Nat.not_lt.mpr hj)
      -- nothing before the next entry is looked at, and the next entry is misplaced
      · rintro ⟨i, entry, hi, hentry, -, hleast, rfl⟩
        obtain rfl : i = done.length :=
          hi.antisymm' (Nat.not_lt.mp fun hlt => hleast _ le_rfl hlt (hfirst.mpr hbad))
        rw [hx] at hentry
        rw [Option.some.inj hentry]
    | ok next =>
      have hgood : ¬ Misplaced entries done.length := by
        rw [hfirst]
        intro hbad
        rw [h.place_eq_error.mpr ⟨hbad, rfl⟩] at hstep
        cases hstep
      have hrest := ih (h.place hstep) (by rw [hentries]; simp)
      rw [PartialPermutation.placeAll, Outcome.bind_of_ok _ hstep, ← hlength, hrest, hlength]
      constructor
      · rintro ⟨i, entry, hi, hentry, hbad, hleast, rfl⟩
        refine ⟨i, entry, (Nat.le_succ _).trans hi, hentry, hbad, fun j hj hlt => ?_, rfl⟩
        rcases Nat.eq_or_lt_of_le hj with rfl | hj
        · exact hgood
        · exact hleast j hj hlt
      · rintro ⟨i, entry, hi, hentry, hbad, hleast, rfl⟩
        have hnext : done.length + 1 ≤ i := by
          rcases Nat.eq_or_lt_of_le hi with rfl | hi
          · exact absurd hbad hgood
          · exact hi
        exact ⟨i, entry, hnext, hentry, hbad,
          fun j hj => hleast j ((Nat.le_succ _).trans hj), rfl⟩

/-- A vector is refused with the first position whose entry is misplaced. -/
theorem ofVector_eq_error {e : Error K} :
    ofVector entries = .error e ↔ ∃ i entry, FirstMisplaced entries i entry ∧
      e = .notABijection (numbers entries).length entry i := by
  have hplaceAll : ofVector entries = .error e ↔
      placeAll (numbers entries).length (List.replicate (numbers entries).length none) 0 entries =
        .error e := by
    rw [ofVector, Outcome.bind_eq_error]
    exact or_iff_left fun ⟨_, _, h⟩ => by cases h
  have hrun := (placed_nil (numbers entries).length).placeAll_eq_error
    (List.nil_append entries).symm (e := e)
  rw [List.length_nil] at hrun
  rw [hplaceAll, hrun]
  constructor
  · rintro ⟨i, entry, -, hentry, hbad, hleast, rfl⟩
    exact ⟨i, entry, ⟨hentry, hbad, fun j hj => hleast j j.zero_le hj⟩, rfl⟩
  · rintro ⟨i, entry, ⟨hentry, hbad, hleast⟩, rfl⟩
    exact ⟨i, entry, i.zero_le, hentry, hbad, fun j _ hj => hleast j hj, rfl⟩

/-! ## Vectors without such entries

Distinct numbers below their own count are a permutation, by counting. So a pass that does not fail
leaves no number out. -/

/-- Entries that are distinct and below their count are the numbers below it. -/
theorem perm_range_iff {xs : List Int} (hnonneg : ∀ x ∈ xs, 0 ≤ x) :
    xs.Perm ((List.range xs.length).map Int.ofNat) ↔ xs.Nodup ∧ ∀ x ∈ xs, x < xs.length := by
  have hnodup : ((List.range xs.length).map Int.ofNat).Nodup :=
    List.nodup_range.map fun _ _ => Int.ofNat.inj
  constructor
  · intro h
    refine ⟨h.nodup_iff.mpr hnodup, fun x hx => ?_⟩
    obtain ⟨n, hn, rfl⟩ := List.mem_map.mp (h.mem_iff.mp hx)
    exact Int.ofNat_lt.mpr (List.mem_range.mp hn)
  -- as many as there are numbers, distinct and among them, so all of them
  · rintro ⟨hdistinct, hlt⟩
    refine (hdistinct.subperm fun x hx => ?_).perm_of_length_le (by simp)
    obtain ⟨n, rfl⟩ := Int.eq_ofNat_of_zero_le (hnonneg x hx)
    exact List.mem_map_of_mem (List.mem_range.mpr (Int.ofNat_lt.mp (hlt _ hx)))

/-- The numbers are the entries that are not negative. -/
theorem mem_numbers : x ∈ numbers entries ↔ x ∈ entries ∧ 0 ≤ x := by
  simp [numbers]

/-- No number stands twice exactly if none stands earlier already. -/
theorem nodup_numbers_iff :
    (numbers entries).Nodup ↔
      ∀ (i : Nat) (x : Int), entries[i]? = some x → 0 ≤ x → x ∉ entries.take i := by
  rw [numbers, List.Nodup, List.pairwise_filter, List.pairwise_iff_getElem]
  constructor
  · intro h i x hx hnonneg hmem
    obtain ⟨hi, rfl⟩ := List.getElem?_eq_some_iff.mp hx
    obtain ⟨j, hj, hji⟩ := List.mem_take_iff_getElem.mp hmem
    have hlt : j < i := hj.trans_le (min_le_left _ _)
    exact h j i (hlt.trans hi) hi hlt (by simpa [hji] using hnonneg) (by simpa using hnonneg) hji
  · intro h j i hj hi hlt _ hnonneg heq
    refine h i entries[i] (List.getElem?_eq_getElem hi) (by simpa using hnonneg) ?_
    exact List.mem_take_iff_getElem.mpr ⟨j, lt_min hlt hj, heq⟩

/-- No entry of a vector is misplaced exactly if its numbers are those below their count. -/
theorem forall_not_misplaced_iff :
    (∀ i, ¬ Misplaced entries i) ↔
      (numbers entries).Perm ((List.range (numbers entries).length).map Int.ofNat) := by
  rw [perm_range_iff fun x hx => (mem_numbers.mp hx).2, nodup_numbers_iff]
  constructor
  · intro h
    refine ⟨fun i x hx hnonneg hmem => h i ⟨x, hx, hnonneg, Or.inr hmem⟩, fun x hx => ?_⟩
    obtain ⟨hmem, hnonneg⟩ := mem_numbers.mp hx
    obtain ⟨i, hi⟩ := List.mem_iff_getElem?.mp hmem
    exact Int.not_le.mp fun hle => h i ⟨x, hi, hnonneg, Or.inl hle⟩
  · rintro ⟨hfresh, hlt⟩ i ⟨x, hx, hnonneg, hle | hmem⟩
    · have hmem := mem_numbers.mpr ⟨List.mem_of_getElem? hx, hnonneg⟩
      exact absurd hle (Int.not_le.mpr (hlt x hmem))
    · exact hfresh i x hx hnonneg hmem

/-- A vector is accepted exactly if its numbers are those below their count, each once. -/
theorem exists_ofVector_iff :
    (∃ p, ofVector (K := K) entries = .ok p) ↔
      (numbers entries).Perm ((List.range (numbers entries).length).map Int.ofNat) := by
  rw [Outcome.exists_ok_iff, ← forall_not_misplaced_iff]
  constructor
  · intro h i hbad
    -- of the misplaced entries the first one is reported
    classical
    have hex : ∃ i, Misplaced entries i := ⟨i, hbad⟩
    obtain ⟨entry, hentry, -⟩ := Nat.find_spec hex
    exact h _ (ofVector_eq_error.mpr
      ⟨_, entry, ⟨hentry, Nat.find_spec hex, fun j hj => Nat.find_min hex hj⟩, rfl⟩)
  · intro h e he
    obtain ⟨i, entry, hfirst, -⟩ := ofVector_eq_error.mp he
    exact h i hfirst.misplaced

/-! ## The vector of a permutation -/

/-- The number of an index of the domain, or `-1` if it has none. -/
def entry (p : PartialPermutation) (i : Int) : Except (Error K) Int := do
  if ← p.participates i then return Int.ofNat (← p.permutedIndex i)
  else return -1

/-- The numbers of all indices of the domain. -/
def vector (p : PartialPermutation) : Except (Error K) (List Int) :=
  (List.range p.domainSize).mapM fun i : Nat => p.entry i

/-- Every index of the domain can be asked for, since it is asked first whether it has a number. -/
theorem entry_of_lt {i : Nat} (hi : i < p.domainSize) :
    p.entry (K := K) i = .ok ((p.number? i).elim (-1) Int.ofNat) := by
  rw [entry, Outcome.bind_of_ok _ (participates_of_lt hi)]
  cases hn : p.number? i with
  | none => rfl
  | some n =>
    rw [Option.isSome_some, if_pos rfl, Outcome.bind_of_ok _ (permutedIndex_eq_ok.mpr hn)]
    rfl

/-- The numbers of all indices can be asked for, and stand in the table. -/
theorem vector_eq (p : PartialPermutation) :
    p.vector (K := K) = .ok (p.forward.map fun n => n.elim (-1) Int.ofNat) := by
  have hentry : ∀ i ∈ List.range p.domainSize,
      p.entry (K := K) i = .ok ((p.number? i).elim (-1) Int.ofNat) :=
    fun i hi => entry_of_lt (List.mem_range.mp hi)
  have hentries := Outcome.mapM_of_forall hentry
  rw [vector, hentries]
  congr 1
  refine List.ext_getElem (by simp [domainSize]) fun i hi hi' => ?_
  have hlt : i < p.forward.length := by simpa using hi'
  simp [number?, List.getElem?_eq_getElem hlt]

/-- Permutations whose tables undo each other are equal if they give the same numbers. -/
theorem Valid.ext (hp : p.Valid) (hq : q.Valid) (h : p.forward = q.forward) : p = q := by
  have hinverse : p.inverse = q.inverse := by
    refine List.ext_getElem? fun n => Option.ext fun i => ?_
    rw [← hp.number?_eq_some_iff, ← hq.number?_eq_some_iff, number?, number?, h]
  cases p
  cases q
  cases h
  cases hinverse
  rfl

/-- A permutation that was read has the entries of the vector in its table. -/
theorem forward_of_ofVector (h : ofVector (K := K) entries = .ok p) :
    p.forward = entries.map fun x => if x < 0 then none else some x.toNat := by
  obtain ⟨table, -, h⟩ := Outcome.bind_eq_ok.mp h
  obtain rfl := Outcome.pure_eq_ok.mp h
  rfl

/-- Negative entries can be replaced. -/
theorem numbers_map_max (entries : List Int) :
    numbers (entries.map (max · (-1))) = numbers entries := by
  have hsign : ∀ x : Int, 0 ≤ max x (-1) ↔ 0 ≤ x := by omega
  rw [numbers, List.filter_map]
  have hsame : entries.filter ((fun x : Int => decide (0 ≤ x)) ∘ (max · (-1))) = numbers entries :=
    List.filter_congr fun x _ => decide_eq_decide.mpr (hsign x)
  rw [hsame]
  refine (List.map_congr_left fun x hx => ?_).trans (List.map_id _)
  have hnonneg := (mem_numbers.mp hx).2
  rw [id]
  omega

/-- The vector of a permutation that was read makes the same permutation. -/
theorem ofVector_vector (h : ofVector (K := K) entries = .ok p) :
    ofVector (K := K) (p.forward.map fun n => n.elim (-1) Int.ofNat) = .ok p := by
  have hentry : ∀ x : Int,
      (if x < 0 then none else some x.toNat).elim (-1) Int.ofNat = max x (-1) := by
    intro x
    split
    · rw [Option.elim_none]
      omega
    · rw [Option.elim_some, Int.ofNat_eq_natCast]
      omega
  have hrebuilt : (p.forward.map fun n => n.elim (-1) Int.ofNat) = entries.map (max · (-1)) := by
    rw [forward_of_ofVector h, List.map_map]
    exact List.map_congr_left fun x _ => hentry x
  -- it has the same numbers, hence is accepted
  have haccepted := exists_ofVector_iff.mp ⟨p, h⟩
  rw [← numbers_map_max] at haccepted
  obtain ⟨q, hq⟩ := (exists_ofVector_iff (K := K)).mpr haccepted
  have hforward : q.forward = p.forward := by
    rw [forward_of_ofVector hq, forward_of_ofVector h, List.map_map]
    refine List.map_congr_left fun x _ => ?_
    by_cases hneg : x < 0
    -- a negative entry may be another one now, but it is negative still
    · have hmax : max x (-1) < 0 := by omega
      rw [Function.comp_apply, if_pos hneg, if_pos hmax]
    · have hmax : max x (-1) = x := by omega
      rw [Function.comp_apply, hmax]
  rw [hrebuilt, hq, (valid_of_ofVector hq).1.ext (valid_of_ofVector h).1 hforward]

/-- Once a vector has been accepted, every number has been given. -/
theorem placeAll_of_ofVector (h : ofVector (K := K) entries = .ok p) :
    placeAll (K := K) (numbers entries).length (List.replicate (numbers entries).length none) 0
        entries = .ok (p.inverse.map some) ∧ p.size = (numbers entries).length := by
  obtain ⟨table, htable, h⟩ := Outcome.bind_eq_ok.mp h
  obtain rfl := Outcome.pure_eq_ok.mp h
  have hplaced : Placed (numbers entries).length entries table := (placed_nil _).placeAll htable
  have hmap := map_some_filterMap_id (hplaced.full rfl)
  refine ⟨htable.trans (congrArg Except.ok hmap.symm), ?_⟩
  rw [size, ← List.length_map (f := some), hmap, hplaced.length]

/-- **Acceptance.** A vector is accepted exactly if its numbers are those below their count, each
once. Otherwise the first position is reported whose entry is not below the count or repeats an
earlier one. Once it is accepted the inverse table has no gap, and the vector that is rebuilt from
the numbers of the indices makes the permutation again. -/
theorem ofVector_accepts_bijections (entries : List Int) :
    ((∃ p, ofVector (K := K) entries = .ok p) ↔
      (numbers entries).Perm ((List.range (numbers entries).length).map Int.ofNat)) ∧
    (∀ e : Error K, ofVector entries = .error e ↔
      ∃ i entry, FirstMisplaced entries i entry ∧
        e = .notABijection (numbers entries).length entry i) ∧
    (∀ e : Error K, ofVector entries = .error e → e.kind = .value ∧
      ∃ (i : Nat) (entry : Int), FirstMisplaced entries i entry ∧
        ∀ text, e.message text = some (
          s!"Permuted indices must be unique and in [0, {(numbers entries).length}), got " ++
            s!"{entry} at index {i}")) ∧
    ∀ p, ofVector (K := K) entries = .ok p →
      p.domainSize = entries.length ∧ p.size = (numbers entries).length ∧
      placeAll (K := K) (numbers entries).length (List.replicate (numbers entries).length none) 0
        entries = .ok (p.inverse.map some) ∧
      ∃ rebuilt, p.vector (K := K) = .ok rebuilt ∧ ofVector (K := K) rebuilt = .ok p := by
  refine ⟨exists_ofVector_iff, fun e => ofVector_eq_error, fun e he => ?_, fun p hp => ?_⟩
  · obtain ⟨i, entry, hfirst, rfl⟩ := ofVector_eq_error.mp he
    refine ⟨rfl, i, entry, hfirst, fun text => ?_⟩
    simp only [Error.message, String.append_assoc]
  · obtain ⟨hplaceAll, hsize⟩ := placeAll_of_ofVector hp
    exact ⟨(valid_of_ofVector hp).2.1, hsize, hplaceAll, _, vector_eq p, ofVector_vector hp⟩

/-- Of two numbers none is the number 2. -/
example : ofVector (K := Nat) [2, -7, 0] = .error (.notABijection 2 2 0) := rfl

end PartialPermutation

end ConvexContact
