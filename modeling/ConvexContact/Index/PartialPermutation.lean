import ConvexContact.Error

/-!
# Partial permutations

A partial permutation numbers some of the indices of a domain, in the order in which they first take
part. It is kept as two tables that undo each other: `forward` sends an index to its number, if it
has one, and `inverse` lists the numbered indices.

`gather` picks the entries of the indices that take part, in the order of their numbers, and
`scatter` puts such entries back. Both exist for lists of arbitrary values and for tensors along
their first axis.
-/

namespace ConvexContact

/-- A numbering of some of the indices of a domain. -/
structure PartialPermutation where
  /-- for each index of the domain its number, if it takes part -/
  forward : List (Option Nat)
  /-- the indices that take part, in the order of their numbers -/
  inverse : List Nat
  deriving DecidableEq, Repr

namespace PartialPermutation

variable {K : Type}

/-! ## Construction -/

/-- One step of reading a vector of numbers: `count` numbers are to be given, `table` lists the
indices that have got theirs, and the entry at `position` comes next. -/
def place (count : Nat) (table : List (Option Nat)) (position : Nat) (entry : Int) :
    Except (Error K) (List (Option Nat)) :=
  if entry < 0 then .ok table
  else
    match table[entry.toNat]? with
    | some none => .ok (table.set entry.toNat (some position))
    | _ => .error (.notABijection count entry position)

/-- Reads the entries of a vector of numbers from `position` on. -/
def placeAll (count : Nat) : List (Option Nat) → Nat → List Int →
    Except (Error K) (List (Option Nat))
  | table, _, [] => .ok table
  | table, position, entry :: rest => do
    let table ← place count table position entry
    placeAll count table (position + 1) rest

/-- The partial permutation that gives the index at each position of a vector the number standing
there. A negative entry stands for an index without a number; the others must be the numbers below
their count, each once. -/
def ofVector (entries : List Int) : Except (Error K) PartialPermutation := do
  let count := (entries.filter (0 ≤ ·)).length
  let table ← placeAll count (List.replicate count none) 0 entries
  return {
    forward := entries.map fun p => if p < 0 then none else some p.toNat
    inverse := table.filterMap id }

/-- The partial permutation of a domain of which nothing takes part yet. -/
def blank (size : Nat) : PartialPermutation := ⟨List.replicate size none, []⟩

/-- The partial permutation of a domain of which nothing takes part yet. The domain must not be
larger than its table can be. -/
def empty (size : Int) : Except (Error K) PartialPermutation :=
  if size < 0 then .error (.negativeDomain size)
  else if Nat.pow 2 63 ≤ size then .error .uncountableDomain
  else if Nat.pow 2 33 ≤ size then .error .hugeDomain
  else .ok (blank size.toNat)

/-! ## Queries -/

/-- The size of the domain. -/
def domainSize (p : PartialPermutation) : Nat := p.forward.length

/-- How many indices take part. -/
def size (p : PartialPermutation) : Nat := p.inverse.length

/-- The number of an index of the domain. -/
def number? (p : PartialPermutation) (i : Nat) : Option Nat := (p.forward[i]?).join

/-- An index that has to lie in the domain. -/
def check (p : PartialPermutation) (i : Int) : Except (Error K) Nat :=
  if i < 0 ∨ p.domainSize ≤ i then .error (.indexRange i p.domainSize) else .ok i.toNat

/-- Whether an index takes part. -/
def participates (p : PartialPermutation) (i : Int) : Except (Error K) Bool := do
  let k ← p.check i
  return (p.number? k).isSome

/-- The number of an index that takes part. -/
def permutedIndex (p : PartialPermutation) (i : Int) : Except (Error K) Nat := do
  let k ← p.check i
  match p.number? k with
  | some n => .ok n
  | none => .error (.notParticipating i)

/-- The index with a given number. -/
def domainIndex (p : PartialPermutation) (n : Int) : Except (Error K) Nat :=
  if n < 0 then .error (.permutedRange n p.size)
  else
    match p.inverse[n.toNat]? with
    | some i => .ok i
    | none => .error (.permutedRange n p.size)

/-! ## Growth -/

/-- Gives an index of the domain the next number, unless it has one. -/
def number (p : PartialPermutation) (i : Nat) : PartialPermutation × Nat :=
  match p.number? i with
  | some n => (p, n)
  | none => (⟨p.forward.set i (some p.size), p.inverse ++ [i]⟩, p.size)

/-- Lets an index take part, and answers with its number. -/
def push (p : PartialPermutation) (i : Int) : Except (Error K) (PartialPermutation × Nat) := do
  let k ← p.check i
  return p.number k

/-- Lets indices take part one after the other. -/
def pushAll (p : PartialPermutation) (is : List Int) : Except (Error K) PartialPermutation :=
  is.foldlM (fun p i => (·.1) <$> p.push i) p

/-! ## Gathering and scattering -/

/-- The entries of a full list at the indices that take part, in the order of their numbers. -/
def gather {α : Type} (p : PartialPermutation) (full : List α) : Except (Error K) (List α) :=
  if full.length ≠ p.domainSize then .error (.fullLength p.domainSize full.length)
  else .ok (p.inverse.filterMap fun i => full[i]?)

/-- Writes entries one after the other at the given places. -/
def write {α : Type} (full : List α) : List Nat → List α → List α
  | i :: is, x :: xs => write (full.set i x) is xs
  | _, _ => full

/-- A full list with the entries of the indices that take part replaced. -/
def scatter {α : Type} (p : PartialPermutation) (part full : List α) :
    Except (Error K) (List α) :=
  if part.length ≠ p.size then .error (.permutedLength p.size part.length)
  else if full.length ≠ p.domainSize then .error (.fullLength p.domainSize full.length)
  else .ok (write full p.inverse part)

/-- A full list that is `blank` outside the indices that take part. -/
def scatterOnto {α : Type} (p : PartialPermutation) (blank : α) (part : List α) :
    Except (Error K) (List α) :=
  p.scatter part (List.replicate p.domainSize blank)

/-- How many slabs a tensor has along its first axis. -/
def extent (t : Tensor K) : Except (Error K) Nat :=
  match t.shape with
  | [] => .error .unsized
  | n :: _ => .ok n

/-- The slabs of a tensor at the indices that take part, in the order of their numbers. -/
def gatherTensor [Zero K] (p : PartialPermutation) (full : Tensor K) :
    Except (Error K) (Tensor K) := do
  let n ← extent full
  if n ≠ p.domainSize then .error (.fullLength p.domainSize n)
  else
    let slabs := full.slabs
    return Tensor.ofSlabs full.format (full.shape.drop 1) (p.inverse.map fun i => slabs.getD i [])

/-- The slabs a full tensor has after those of a part are put in at the indices that take part. -/
def putSlabs [Zero K] (p : PartialPermutation) (part full : Tensor K) : Tensor K :=
  let slabs := full.slabs
  let replacement := part.slabs
  Tensor.ofSlabs full.format (full.shape.drop 1)
    ((List.range p.domainSize).map fun i =>
      match p.number? i with
      | some n => replacement.getD n []
      | none => slabs.getD i [])

/-- A full tensor with the slabs of the indices that take part replaced by those of a part, which is
stretched to their shape. -/
def scatterTensor [Zero K] (p : PartialPermutation) (part full : Tensor K) :
    Except (Error K) (Tensor K) := do
  let m ← extent part
  if m ≠ p.size then .error (.permutedLength p.size m)
  else
    let n ← extent full
    if n ≠ p.domainSize then .error (.fullLength p.domainSize n)
    else if part.format ≠ full.format then .error .formatMismatch
    else
      match part.stretchTo? (p.size :: full.shape.drop 1) with
      | some part => return p.putSlabs part full
      | none => .error .shapeMismatch

/-- A full tensor that is zero outside the indices that take part. -/
def scatterTensorOntoZeros [Zero K] (p : PartialPermutation) (part : Tensor K) :
    Except (Error K) (Tensor K) := do
  let m ← extent part
  if m ≠ p.size then .error (.permutedLength p.size m)
  else return p.putSlabs part (Tensor.zeros part.format (p.domainSize :: part.shape.drop 1))

/-- The text that shows the size of the domain and the indices that take part. -/
def text (p : PartialPermutation) : String :=
  "PartialPermutation(domain_size=" ++ toString p.domainSize ++ ", permuted=[" ++
    ", ".intercalate (p.inverse.map toString) ++ "])"

/-! ## Elementary facts -/

theorem check_eq_ok_iff {p : PartialPermutation} {i : Int} {k : Nat} :
    p.check (K := K) i = .ok k ↔ i = k ∧ k < p.domainSize := by
  unfold check
  split
  · constructor
    · intro h
      cases h
    · omega
  · constructor
    · intro h
      cases h
      omega
    · rintro ⟨rfl, -⟩
      simp

theorem number_of_some {p : PartialPermutation} {i n : Nat} (h : p.number? i = some n) :
    p.number i = (p, n) := by
  simp [number, h]

theorem number_of_none {p : PartialPermutation} {i : Nat} (h : p.number? i = none) :
    p.number i = (⟨p.forward.set i (some p.size), p.inverse ++ [i]⟩, p.size) := by
  simp [number, h]

@[simp] theorem domainSize_number (p : PartialPermutation) (i : Nat) :
    (p.number i).1.domainSize = p.domainSize := by
  unfold number
  split <;> simp [domainSize]

end PartialPermutation

end ConvexContact
