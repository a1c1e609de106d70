import Mathlib.Data.Rat.Init
import ConvexContact.Proofs.Index.Distinct
import ConvexContact.Proofs.Index.Vector

/-!
# Runs of pushes

A caller pushes indices one after the other, and some of them are rejected. In place a push first
writes the number of a new index into one table and then the index into the other
(`PartialPermutation.pushInPlace`); on values this is `PartialPermutation.push`
(`PartialPermutation.run_pushInPlace`).

One push numbers an index of the domain (`PartialPermutation.run_of_lt`) or changes nothing
(`PartialPermutation.run_of_not_inDomain`). Any number of them leave tables that undo each other,
with the indices that are new numbered in the order in which they are pushed first
(`PartialPermutation.Valid.follows`). It does not matter whether the permutation was read from a
vector or began blank.

The induction of `PartialPermutation.Valid.follows` is on the pushes, with the permutation they
start from as a parameter. What makes it go through is that numbers are stable: the answer to the
first push is a place in the list that the whole run leaves, and numbering further indices changes
no number (`PartialPermutation.permutedIndex_number`). Main statement:
`PartialPermutation.bijective_of_pushes`.
-/

namespace ConvexContact

variable {K : Type}

namespace PartialPermutation

variable {p q : PartialPermutation} {i : Int} {is : List Int}

/-! ## One push

In place the two tables are written one after the other. Whether the index is new is decided before
the first write, and so is whether it lies in the domain. -/

/-- Writes the next number to an index. -/
def assign (k : Nat) (p : PartialPermutation) : PartialPermutation :=
  { p with forward := p.forward.set k (some p.size) }

/-- Lists an index behind those that take part. -/
def enlist (k : Nat) (p : PartialPermutation) : PartialPermutation :=
  { p with inverse := p.inverse ++ [k] }

/-- Lets an index take part, in place, and answers with its number. -/
def pushInPlace (i : Int) : ExceptT (Error K) (StateM PartialPermutation) Nat := do
  let p ← get
  let k ← ExceptT.mk (pure (p.check i))
  if p.number? k = none then
    modify (assign k)
    modify (enlist k)
  let p ← get
  ExceptT.mk (pure (p.permutedIndex i))

/-- An index that has been numbered has the number that was the answer. -/
theorem number?_number {k : Nat} (hk : k < p.domainSize) :
    (p.number k).1.number? k = some (p.number k).2 := by
  cases hn : p.number? k with
  | some n =>
    rw [number_of_some hn]
    exact hn
  | none =>
    have hset : (p.forward.set k (some p.size))[k]? = some (some p.size) :=
      List.getElem?_set_self hk
    rw [number_of_none hn, number?, hset]
    rfl

/-- **Refinement.** A push in place is the push on values: when it is accepted, the permutation is
the one with the index; otherwise it is as it was. -/
theorem run_pushInPlace (p : PartialPermutation) (i : Int) :
    (pushInPlace (K := K) i).run.run p =
      match p.push i with
      | .ok (q, n) => (.ok n, q)
      | .error e => (.error e, p) := by
  simp only [pushInPlace, Outcome.run_bind, Outcome.run_get, Outcome.run_check]
  cases hcheck : p.check (K := K) i with
  | error e =>
    rw [push, hcheck]
    rfl
  | ok k =>
    obtain ⟨rfl, hk⟩ := check_eq_ok_iff.mp hcheck
    -- the answer is read back from the table, where it has just been written if it is new
    have hanswer := permutedIndex_eq_ok (K := K).mpr (number?_number hk)
    rw [push_of_lt hk]
    cases hn : p.number? k with
    | some n =>
      rw [number_of_some hn] at hanswer ⊢
      simp only [hn, reduceCtorEq, if_false, Outcome.run_bind, Outcome.run_get, Outcome.run_check,
        hanswer]
    | none =>
      rw [number_of_none hn] at hanswer ⊢
      simp only [hn, if_true, Outcome.run_bind, Outcome.run_get, Outcome.run_check,
        Outcome.run_modify]
      exact congrArg (·, _) hanswer

/-- An index of a domain. -/
def InDomain (size : Nat) (i : Int) : Prop := 0 ≤ i ∧ i < size

instance (size : Nat) (i : Int) : Decidable (InDomain size i) :=
  inferInstanceAs (Decidable (0 ≤ i ∧ i < size))

/-- A push outside the domain is rejected. -/
theorem push_of_not_inDomain (hi : ¬ InDomain p.domainSize i) :
    p.push (K := K) i = .error (.indexRange i p.domainSize) := by
  have hcheck : p.check (K := K) i = .error (.indexRange i p.domainSize) := by
    rw [check, if_pos]
    unfold InDomain at hi
    omega
  rw [push, hcheck]
  rfl

/-- A push that is rejected changes nothing. -/
theorem run_of_not_inDomain (hi : ¬ InDomain p.domainSize i) :
    (pushInPlace (K := K) i).run.run p = (.error (.indexRange i p.domainSize), p) := by
  rw [run_pushInPlace, push_of_not_inDomain hi]

/-- A push inside the domain numbers its index. -/
theorem run_of_lt {k : Nat} (hk : k < p.domainSize) :
    (pushInPlace (K := K) k).run.run p = (.ok (p.number k).2, (p.number k).1) := by
  rw [run_pushInPlace, push_of_lt hk]

/-- Numbering an index changes no number. -/
theorem permutedIndex_number {j : Int} {k n : Nat} (hj : p.permutedIndex (K := K) j = .ok n) :
    (p.number k).1.permutedIndex (K := K) j = .ok n := by
  obtain ⟨l, hl, -⟩ := Outcome.bind_eq_ok.mp hj
  obtain ⟨rfl, -⟩ := check_eq_ok_iff.mp hl
  rw [permutedIndex_eq_ok] at hj ⊢
  cases hn : p.number? k with
  | some m =>
    rw [number_of_some hn]
    exact hj
  | none =>
    have hne : k ≠ l := by
      rintro rfl
      rw [hn] at hj
      cases hj
    rw [number_of_none hn, number?, List.getElem?_set_ne hne]
    exact hj

/-! ## Runs

By induction on the pushes. A number that has been given stays, so the answer to the first push is
still right when the run has ended. -/

/-- Pushes indices one after the other, in place, whatever comes of each; the answers are listed in
the order of the pushes. -/
def pushEach (p : PartialPermutation) : List Int →
    List (Except (Error K) Nat) × PartialPermutation
  | [] => ([], p)
  | i :: is =>
    let x := (pushInPlace i).run.run p
    (x.1 :: (x.2.pushEach is).1, (x.2.pushEach is).2)

/-- What a run of pushes `is` makes of a permutation, with the answers to them. -/
structure Follows (p : PartialPermutation) (is : List Int) (answers : List (Except (Error K) Nat))
    (q : PartialPermutation) : Prop where
  domainSize : q.domainSize = p.domainSize
  /-- the indices of the domain that are new take part in the order in which they are pushed first
  -/
  inverse : q.inverse.map Int.ofNat =
    (p.inverse.map Int.ofNat ++ is.filter (InDomain p.domainSize ·)).eraseDups
  /-- a push answers with the place of its index among those that take part -/
  answers : answers = is.map fun i =>
    if InDomain p.domainSize i then .ok ((q.inverse.map Int.ofNat).idxOf i)
    else .error (.indexRange i p.domainSize)
  /-- a number that has been given stays -/
  kept : ∀ (i : Int) (n : Nat),
    p.permutedIndex (K := K) i = .ok n → q.permutedIndex (K := K) i = .ok n

/-- **Run.** Pushes keep the tables undoing each other, and number what is new. -/
theorem Valid.follows (hp : p.Valid) (is : List Int) :
    (p.pushEach (K := K) is).2.Valid ∧
      p.Follows is (p.pushEach (K := K) is).1 (p.pushEach (K := K) is).2 := by
  induction is generalizing p with
  | nil =>
    refine ⟨hp, rfl, ?_, rfl, fun _ _ h => h⟩
    rw [List.filter_nil, List.append_nil, eraseDups_of_nodup hp.nodup_map]
    rfl
  | cons i is ih =>
    rw [pushEach]
    by_cases hi : InDomain p.domainSize i
    · obtain ⟨k, rfl⟩ := Int.eq_ofNat_of_zero_le hi.1
      have hk : k < p.domainSize := Int.ofNat_lt.mp hi.2
      rw [run_of_lt hk]
      obtain ⟨hvalid, hdomain, hinverse, hanswers, hkept⟩ := ih (hp.number hk)
      rw [domainSize_number] at hdomain hinverse hanswers
      refine ⟨hvalid, hdomain, ?_, ?_, fun j n hj => hkept j n (permutedIndex_number hj)⟩
      · rw [hinverse, hp.inverse_number, eraseDups_eraseDups_append, List.append_assoc,
          List.filter_cons_of_pos (by simpa using hi)]
        rfl
      · rw [List.map_cons, if_pos hi, hanswers]
        -- the number that was the answer is still that of the index in the end
        have hnumber := hkept k _ (permutedIndex_eq_ok.mpr (number?_number hk))
        have hmem := hvalid.mem_of_number? (permutedIndex_eq_ok.mp hnumber)
        have hplace := hvalid.permutedIndex_eq (K := K) (List.mem_map_of_mem hmem)
        exact congrArg (· :: _) (hnumber.symm.trans hplace)
    · rw [run_of_not_inDomain hi]
      obtain ⟨hvalid, hdomain, hinverse, hanswers, hkept⟩ := ih hp
      refine ⟨hvalid, hdomain, ?_, ?_, hkept⟩
      · rw [hinverse, List.filter_cons_of_neg (by simpa using hi)]
      · rw [List.map_cons, if_neg hi, hanswers]

/-! ## Beginnings -/

/-- How a permutation begins: it is read from a vector, or nothing takes part yet. -/
inductive Begins (K : Type) : PartialPermutation → Prop where
  | vector (entries : List Int) {p : PartialPermutation}
      (h : ofVector (K := K) entries = .ok p) : Begins K p
  | empty (size : Int) {p : PartialPermutation}
      (h : PartialPermutation.empty (K := K) size = .ok p) : Begins K p

/-- A domain that can begin is of the size that was asked for, and nothing takes part. -/
theorem empty_eq_ok {size : Int} (h : empty (K := K) size = .ok p) :
    (p.domainSize : Int) = size ∧ p.inverse = [] ∧ p.Valid := by
  unfold empty at h
  split at h
  · cases h
  · rename_i hsize
    split at h
    · cases h
    · split at h
      · cases h
      · obtain rfl := Except.ok.inj h
        lift size to ℕ using Int.not_lt.mp hsize
        exact ⟨by simp [blank, domainSize], rfl, valid_blank _⟩

/-- However a permutation begins, its tables undo each other. -/
theorem Begins.valid (h : Begins K p) : p.Valid := by
  cases h with
  | vector entries h => exact (valid_of_ofVector h).1
  | empty size h => exact (empty_eq_ok h).2.2

/-- What queries say of a permutation that is a bijection between the indices that take part and the
numbers below their count. -/
structure Bijective (K : Type) (p : PartialPermutation) : Prop where
  domainIndex_permutedIndex : ∀ i : Int, p.participates (K := K) i = .ok true →
    ∃ n k : Nat, p.permutedIndex (K := K) i = .ok n ∧ p.domainIndex (K := K) n = .ok k ∧ k = i
  permutedIndex_domainIndex : ∀ n : Nat, n < p.size →
    ∃ k : Nat, p.domainIndex (K := K) n = .ok k ∧ p.permutedIndex (K := K) k = .ok n
  nodup : p.inverse.Nodup
  mem_iff : ∀ i : Int, i ∈ p.inverse.map Int.ofNat ↔ p.participates (K := K) i = .ok true

/-- An index that takes part has a number. -/
theorem participates_eq_true :
    p.participates (K := K) i = .ok true ↔ ∃ k n : Nat, k = i ∧ p.number? k = some n := by
  constructor
  · intro h
    obtain ⟨k, hk, h⟩ := Outcome.bind_eq_ok.mp h
    obtain ⟨n, hn⟩ := Option.isSome_iff_exists.mp (Outcome.pure_eq_ok.mp h)
    exact ⟨k, n, (check_eq_ok_iff.mp hk).1.symm, hn⟩
  · rintro ⟨k, n, rfl, hn⟩
    rw [participates_of_lt (lt_of_number? hn), hn]
    rfl

/-- Tables that undo each other are what queries answer from. -/
theorem Valid.bijective (hp : p.Valid) : Bijective K p where
  domainIndex_permutedIndex i h := by
    obtain ⟨k, n, rfl, hn⟩ := participates_eq_true.mp h
    exact ⟨n, k, permutedIndex_eq_ok.mpr hn,
      domainIndex_eq_ok.mpr ((hp.number?_eq_some_iff k n).mp hn), rfl⟩
  permutedIndex_domainIndex n hn := by
    have hget : p.inverse[n]? = some p.inverse[n] := List.getElem?_eq_getElem hn
    exact ⟨p.inverse[n], domainIndex_eq_ok.mpr hget,
      permutedIndex_eq_ok.mpr ((hp.number?_eq_some_iff _ n).mpr hget)⟩
  nodup := hp.nodup
  mem_iff i := by
    rw [participates_eq_true, List.mem_map]
    constructor
    · rintro ⟨k, hk, rfl⟩
      obtain ⟨n, hn⟩ := List.mem_iff_getElem?.mp hk
      exact ⟨k, n, rfl, (hp.number?_eq_some_iff k n).mpr hn⟩
    · rintro ⟨k, n, rfl, hn⟩
      exact ⟨k, hp.mem_of_number? hn, rfl⟩

/-- **Pushes.** A permutation that has been read from a vector, or has begun blank, is a bijection
after any run of pushes `is`, whatever comes of each. The run numbers what is new, keeps what has
been numbered, and answers with places; any further run `js` does so from there. A push that is
rejected leaves everything as it is. The numbers that stand in the vector stay; where nothing took
part at first, those take part that were pushed, in the order in which they were pushed first. -/
theorem bijective_of_pushes (hp : Begins K p) (is js : List Int) :
    let q := (p.pushEach (K := K) is).2
    Bijective K q ∧
      p.Follows is (p.pushEach (K := K) is).1 q ∧
      q.Follows js (q.pushEach (K := K) js).1 (q.pushEach (K := K) js).2 ∧
      (∀ i, ¬ InDomain q.domainSize i →
        q.push (K := K) i = .error (.indexRange i q.domainSize) ∧
          (pushInPlace (K := K) i).run.run q = (.error (.indexRange i q.domainSize), q)) ∧
      (∀ entries, ofVector (K := K) entries = .ok p → q.domainSize = entries.length ∧
        ∀ i n : Nat, entries[i]? = some (n : Int) → q.permutedIndex (K := K) i = .ok n) ∧
      ∀ size, empty (K := K) size = .ok p → (q.domainSize : Int) = size ∧
        q.inverse.map Int.ofNat = (is.filter fun i => 0 ≤ i ∧ i < size).eraseDups := by
  intro q
  obtain ⟨hq, hfollows⟩ := hp.valid.follows (K := K) is
  refine ⟨hq.bijective, hfollows, (hq.follows js).2,
    fun i hi => ⟨push_of_not_inDomain hi, run_of_not_inDomain hi⟩, fun entries hentries => ?_,
    fun size hsize => ?_⟩
  · obtain ⟨-, hdomain, hnumbers⟩ := valid_of_ofVector hentries
    refine ⟨hfollows.domainSize.trans hdomain, fun i n hin => hfollows.kept i n ?_⟩
    exact permutedIndex_eq_ok.mpr ((hnumbers i n).mpr hin)
  · obtain ⟨rfl, hnone, -⟩ := empty_eq_ok hsize
    refine ⟨congrArg Int.ofNat hfollows.domainSize, ?_⟩
    rw [hfollows.inverse, hnone]
    rfl

/-- A permutation that is read from a vector and grows, and one that begins blank; some pushes are
rejected. -/
theorem bijective_of_pushes_sample :
    (∃ p, ofVector (K := ℚ) [-1, 0, -1] = .ok p ∧
      (p.pushEach (K := ℚ) [2, 3, -1, 0, 2]).1.map Except.toOption =
        [some 1, none, none, some 2, some 1] ∧
      Bijective ℚ (p.pushEach (K := ℚ) [2, 3, -1, 0, 2]).2) ∧
    ∃ p, empty (K := ℚ) 6 = .ok p ∧
      (p.pushEach (K := ℚ) [4, 1, 4, 6, 5]).2.inverse.map Int.ofNat = [4, 1, 5] := by
  refine ⟨⟨⟨[none, some 0, none], [1]⟩, rfl, rfl, ?_⟩, ⟨blank 6, rfl, ?_⟩⟩
  · exact (bijective_of_pushes (.vector [-1, 0, -1] rfl) _ []).1
  · exact ((bijective_of_pushes (.empty 6 rfl) [4, 1, 4, 6, 5] []).2.2.2.2.2 6 rfl).2

end PartialPermutation

end ConvexContact
