import ConvexContact.Proofs.Index.Pick
import ConvexContact.Proofs.Index.PartialPermutation

/-!
# Gathering and scattering lists

Scattering writes entries one after the other into a copy of a list. That is right because no place
comes twice (`PartialPermutation.getElem?_write`), which the tables of a permutation make sure of.

In place the lists are cells of a store. A call makes a new cell and leaves the others as they are,
even where the part and the full list are the same cell (`PartialPermutation.run_gatherInPlace`,
`PartialPermutation.run_scatterInPlace`).

`PartialPermutation.Undoes` is what is said about the two directions on objects of any kind that are
lists of rows, and `PartialPermutation.Rejects` about objects with another number of rows.

Proof shape: `PartialPermutation.Valid.getElem?_scatter` says what stands at each index of a
scattered list, and is the only fact about `write` that the laws use. Lists are then equal because
they agree at each index. Main statement for lists: `PartialPermutation.Valid.undoes`.
-/

namespace ConvexContact

variable {K α : Type}

namespace PartialPermutation

variable {p : PartialPermutation} {part full out : List α} {is : List Nat} {i n : Nat}

/-! ## Writing

Scattering writes entries one after the other. As no index is written twice, an entry that has been
written is still there at the end. -/

/-- Writing makes no list longer. -/
@[simp] theorem length_write (full : List α) (is : List Nat) (part : List α) :
    (write full is part).length = full.length := by
  fun_induction write full is part with
  | case1 full i is x part ih => rw [ih, List.length_set]
  | case2 => rfl

/-- Writing leaves alone what is not written. -/
theorem getElem?_write_of_notMem (h : i ∉ is) : (write full is part)[i]? = full[i]? := by
  fun_induction write full is part with
  | case1 full j is x part ih =>
    rw [List.mem_cons, not_or] at h
    rw [ih h.2, List.getElem?_set_ne (Ne.symm h.1)]
  | case2 => rfl

/-- An entry that is written stays, as its place comes only once. -/
theorem getElem?_write (his : is.Nodup) (hi : i < full.length) (hin : is[n]? = some i)
    (hn : n < part.length) : (write full is part)[i]? = part[n]? := by
  induction is generalizing full part n with
  | nil => cases hin
  | cons j is ih =>
    obtain ⟨hj, his⟩ := List.nodup_cons.mp his
    cases part with
    | nil => cases hn
    | cons x part =>
      cases n with
      | zero =>
        obtain rfl := Option.some.inj hin
        -- the first entry is not written over, as its place does not come again
        rw [write, getElem?_write_of_notMem hj, List.getElem?_set_self hi]
        rfl
      | succ n =>
        rw [write, ih his (by rwa [List.length_set]) hin (Nat.lt_of_succ_lt_succ hn)]
        rfl

/-- What has been written was there or comes from the part. -/
theorem mem_of_mem_write {x : α} (h : x ∈ write full is part) : x ∈ full ∨ x ∈ part := by
  fun_induction write full is part with
  | case1 full i is y part ih =>
    rcases ih h with hx | hx
    · rcases List.mem_or_eq_of_mem_set hx with hx | rfl
      · exact Or.inl hx
      · exact Or.inr (by simp)
    · exact Or.inr (List.mem_cons_of_mem _ hx)
  | case2 => exact Or.inl h

/-- Gathering from a list picks its entries at the indices that take part. -/
theorem gather_eq_ok :
    p.gather (K := K) full = .ok part ↔
      full.length = p.domainSize ∧ part = pick full p.inverse := by
  by_cases hfull : full.length = p.domainSize
  · rw [gather, if_neg (not_not.mpr hfull)]
    exact ⟨fun h => ⟨hfull, (Except.ok.inj h).symm⟩, fun h => congrArg Except.ok h.2.symm⟩
  · rw [gather, if_pos hfull]
    refine ⟨fun h => ?_, fun h => absurd h.1 hfull⟩
    cases h

/-- Scattering writes the entries of the part at the indices that take part. -/
theorem scatter_eq_ok : p.scatter (K := K) part full = .ok out ↔
    (part.length = p.size ∧ full.length = p.domainSize) ∧ out = write full p.inverse part := by
  unfold scatter
  split
  · rename_i hpart
    exact iff_of_false nofun fun h => hpart h.1.1
  · rename_i hpart
    split
    · rename_i hfull
      exact iff_of_false nofun fun h => hfull h.1.2
    · rename_i hfull
      rw [Except.ok.injEq, and_iff_right ⟨not_not.mp hpart, not_not.mp hfull⟩, eq_comm]

/-- What holds of the entries of the part and of the full list holds of those of what is scattered.
-/
theorem forall_mem_scatter {P : α → Prop} (hpart : ∀ x ∈ part, P x) (hfull : ∀ x ∈ full, P x)
    (h : p.scatter (K := K) part full = .ok out) : ∀ x ∈ out, P x := by
  obtain ⟨-, rfl⟩ := scatter_eq_ok.mp h
  exact fun x hx => (mem_of_mem_write hx).elim (hfull x) (hpart x)

/-- What holds of the entries of the full list holds of those of what is gathered. -/
theorem forall_mem_gather {P : α → Prop} (hfull : ∀ x ∈ full, P x)
    (h : p.gather (K := K) full = .ok part) : ∀ x ∈ part, P x := by
  obtain ⟨-, rfl⟩ := gather_eq_ok.mp h
  intro x hx
  obtain ⟨i, -, hi⟩ := List.mem_filterMap.mp hx
  exact hfull x (List.mem_of_getElem? hi)

/-- The entry of a scattered list at each index. -/
theorem Valid.getElem?_scatter (hp : p.Valid) (h : p.scatter (K := K) part full = .ok out)
    (i : Nat) :
    out[i]? =
      match p.number? i with
      | some n => part[n]?
      | none => full[i]? := by
  obtain ⟨⟨hpart, hfull⟩, rfl⟩ := scatter_eq_ok.mp h
  cases hn : p.number? i with
  | none => exact getElem?_write_of_notMem (hp.number?_eq_none_iff.mp hn)
  | some n =>
    have hget := (hp.number?_eq_some_iff i n).mp hn
    have hi : i < full.length := by
      rw [hfull]
      exact lt_of_number? hn
    refine getElem?_write hp.nodup hi hget ?_
    rw [hpart]
    exact (List.getElem?_eq_some_iff.mp hget).1

/-! ## In place

Lists are cells of a store that only grows. Gathering and scattering append one list at most and
write to no other, so a list that was handed over is the same afterwards. -/

section InPlace

variable {store : List (List α)} {a b : Nat}

/-- Gathers from the list at an address, in place; the entries make a new list. -/
def gatherInPlace (p : PartialPermutation) (full : Nat) :
    ExceptT (Error K) (StateM (List (List α))) Nat := do
  let store ← get
  let picked ← ExceptT.mk (pure (p.gather (store.getD full [])))
  modify (· ++ [picked])
  return store.length

/-- Writes the entries of the list at `part` into the list at `out`, one after the other. -/
def writeInPlace (part out : Nat) (is : List Nat) :
    ExceptT (Error K) (StateM (List (List α))) Unit :=
  is.zipIdx.forM fun e => modify fun store =>
    store.modify out fun xs => ((store.getD part [])[e.2]?).elim xs (xs.set e.1)

/-- Scatters the list at `part`, in place. The list at `full`, or one of blanks if there is none, is
copied, and the copy is written to. -/
def scatterInPlace (p : PartialPermutation) (blank : α) (part : Nat) (full : Option Nat) :
    ExceptT (Error K) (StateM (List (List α))) Nat := do
  let store ← get
  let xs := store.getD part []
  let copy := full.elim (List.replicate p.domainSize blank) (store.getD · [])
  if xs.length ≠ p.size then ExceptT.mk (pure (.error (.permutedLength p.size xs.length)))
  else if copy.length ≠ p.domainSize then
    ExceptT.mk (pure (.error (.fullLength p.domainSize copy.length)))
  else do
    modify (· ++ [copy])
    writeInPlace part store.length p.inverse
    return store.length

/-- A cell of the store is read as the list it holds. -/
theorem getD_of_getElem? (ha : store[a]? = some part) : store.getD a [] = part := by
  rw [List.getD_eq_getElem?_getD, ha]
  rfl

/-- Writing in place changes the last list of the store as writing does, and no other. -/
theorem run_writeInPlace (ha : store[a]? = some part) (hpart : part.length = is.length)
    (full : List α) :
    (writeInPlace (K := K) a store.length is).run.run (store ++ [full]) =
      (.ok (), store ++ [write full is part]) := by
  -- the induction is on what is left to write, with the number of entries written as a parameter
  suffices ∀ (k : Nat) (is : List Nat) (full : List α), part.length = k + is.length →
      ((is.zipIdx k).forM fun e => modify fun s => s.modify store.length fun xs =>
        ((s.getD a [])[e.2]?).elim xs (xs.set e.1) :
          ExceptT (Error K) (StateM (List (List α))) Unit).run.run (store ++ [full]) =
        (.ok (), store ++ [write full is (part.drop k)]) from
    this 0 is full (by omega)
  intro k is
  induction is generalizing k with
  | nil =>
    intro full hk
    rw [List.drop_eq_nil_of_le (by simpa using hk.le)]
    rfl
  | cons i is ih =>
    intro full hk
    rw [List.length_cons] at hk
    have hlt : k < part.length := by omega
    -- the part is read from the store each time; it is not the cell that is written to
    have hread : (store ++ [full]).getD a [] = part := by
      refine getD_of_getElem? ?_
      rw [List.getElem?_append_left (List.getElem?_eq_some_iff.mp ha).1, ha]
    rw [List.zipIdx_cons, List.forM, Outcome.run_bind, Outcome.run_modify, hread,
      modify_length_append, List.getElem?_eq_getElem hlt, List.drop_eq_getElem_cons hlt]
    exact ih (k + 1) _ (by omega)

/-- **Refinement.** Gathering in place makes a new list of what is gathered, and leaves the lists of
the store as they are. -/
theorem run_gatherInPlace (hb : store[b]? = some full) :
    (p.gatherInPlace (K := K) b).run.run store =
      match p.gather full with
      | .ok picked => (.ok store.length, store ++ [picked])
      | .error e => (.error e, store) := by
  simp only [gatherInPlace, Outcome.run_bind, Outcome.run_get, Outcome.run_check,
    getD_of_getElem? hb]
  cases p.gather (K := K) full with
  | error e => rfl
  | ok picked => rfl

/-- **Refinement.** Scattering in place makes a new list of what is scattered, and leaves the lists
of the store as they are. -/
theorem run_scatterInPlace {blank : α} {o : Option Nat} (ha : store[a]? = some part)
    (ho : o.elim (List.replicate p.domainSize blank) (store.getD · []) = full) :
    (p.scatterInPlace (K := K) blank a o).run.run store =
      match p.scatter part full with
      | .ok out => (.ok store.length, store ++ [out])
      | .error e => (.error e, store) := by
  rw [scatterInPlace, scatter, Outcome.run_bind, Outcome.run_get]
  simp only [getD_of_getElem? ha, ho]
  split
  · rfl
  · rename_i hpart
    split
    · rfl
    · rw [Outcome.run_bind, Outcome.run_modify]
      simp only [Outcome.run_bind, run_writeInPlace ha (not_not.mp hpart)]
      rfl

end InPlace

/-! ## Laws

The laws are stated once for all kinds of objects, as properties of a pair of directions, and are
proved for lists here. -/

section Laws

variable {β ρ : Type}

/-- The two directions of a permutation on objects of one kind. Along its first axis an object is a
list of rows. -/
structure Directions (K β ρ : Type) where
  /-- how many rows an object has -/
  count : β → Except (Error K) Nat
  rows : β → List ρ
  gather : β → Except (Error K) β
  scatter : β → β → Except (Error K) β
  /-- scattering where the full object is left out -/
  spread : β → Except (Error K) β

/-- The two directions on lists, with what stands for an entry that is left out. -/
def onLists (p : PartialPermutation) (blank : α) : Directions K (List α) α where
  count xs := .ok xs.length
  rows := id
  gather := p.gather
  scatter := p.scatter
  spread := p.scatterOnto blank

/-- The rows of `part` stand at the indices that take part, and those of `rest` at the others. -/
structure Merges (K : Type) (p : PartialPermutation) (part rest out : List ρ) : Prop where
  length : out.length = p.domainSize
  participating : ∀ i n : Nat, p.permutedIndex (K := K) i = .ok n → out[i]? = part[n]?
  other : ∀ i : Nat, p.participates (K := K) i = .ok false → out[i]? = rest[i]?

/-- Gathering and scattering a part and a full object undo each other: `picked` is what is gathered,
`out` what is scattered, and `blanks` what is scattered where the full object is left out. -/
structure Undoes (p : PartialPermutation) (d : Directions K β ρ) (blank : ρ)
    (part full picked out blanks : β) : Prop where
  gather : d.gather full = .ok picked
  scatter : d.scatter part full = .ok out
  spread : d.spread part = .ok blanks
  gather_scatter : d.gather out = .ok part
  gather_spread : d.gather blanks = .ok part
  scatter_gather : d.scatter picked full = .ok full
  merges : p.Merges K (d.rows part) (d.rows full) (d.rows out)
  merges_blank :
    p.Merges K (d.rows part) (List.replicate p.domainSize blank) (d.rows blanks)

/-- Objects with another number of rows are rejected as unusable. -/
structure Rejects (p : PartialPermutation) (d : Directions K β ρ) : Prop where
  gather : ∀ full n, d.count full = .ok n → n ≠ p.domainSize →
    ∃ e, d.gather full = .error e ∧ e.kind = .value
  scatter : ∀ part full m n, d.count part = .ok m → d.count full = .ok n →
    m ≠ p.size ∨ n ≠ p.domainSize → ∃ e, d.scatter part full = .error e ∧ e.kind = .value
  spread : ∀ part m, d.count part = .ok m → m ≠ p.size →
    ∃ e, d.spread part = .error e ∧ e.kind = .value

/-- In place every call makes a new list, and the lists of the store stay as they are. -/
structure LeavesInputs (K : Type) (p : PartialPermutation) (blank : α)
    (part full picked out blanks : List α) : Prop where
  gather : ∀ (store : List (List α)) b, store[b]? = some full →
    (p.gatherInPlace (K := K) b).run.run store = (.ok store.length, store ++ [picked])
  scatter : ∀ (store : List (List α)) a b, store[a]? = some part → store[b]? = some full →
    (p.scatterInPlace (K := K) blank a (some b)).run.run store =
      (.ok store.length, store ++ [out])
  spread : ∀ (store : List (List α)) a, store[a]? = some part →
    (p.scatterInPlace (K := K) blank a none).run.run store = (.ok store.length, store ++ [blanks])

/-- What is scattered has the rows of the part and of the full list. -/
theorem Valid.merges (hp : p.Valid) (h : p.scatter (K := K) part full = .ok out) :
    p.Merges K part full out where
  length := by
    obtain ⟨⟨-, hfull⟩, rfl⟩ := scatter_eq_ok.mp h
    rw [length_write, hfull]
  participating i n hn := by
    rw [hp.getElem?_scatter h, permutedIndex_eq_ok.mp hn]
  other i hi := by
    have hnone : p.number? i = none := by
      obtain ⟨k, hk, hi⟩ := Outcome.bind_eq_ok.mp hi
      obtain rfl : i = k := Int.ofNat.inj (check_eq_ok_iff.mp hk).1
      exact Option.not_isSome_iff_eq_none.mp (Bool.eq_false_iff.mp (Outcome.pure_eq_ok.mp hi))
    rw [hp.getElem?_scatter h, hnone]

/-- What has been scattered is gathered again. -/
theorem Valid.gather_scatter (hp : p.Valid) (h : p.scatter (K := K) part full = .ok out) :
    p.gather (K := K) out = .ok part := by
  have hlength := (hp.merges h).length
  have hlt : ∀ i ∈ p.inverse, i < out.length := fun i hi => hlength ▸ hp.lt_of_mem hi
  have hpart : part.length = p.inverse.length := (scatter_eq_ok.mp h).1.1
  refine gather_eq_ok.mpr ⟨hlength, List.ext_getElem? fun n => ?_⟩
  -- a number that has been given, or one behind the last
  by_cases hn : n < p.inverse.length
  · have hget := List.getElem?_eq_getElem hn
    rw [getElem?_pick hlt hget, hp.getElem?_scatter h, (hp.number?_eq_some_iff _ n).mpr hget]
  · rw [List.getElem?_eq_none_iff.mpr (by omega), List.getElem?_eq_none_iff.mpr]
    rw [length_pick hlt]
    omega

/-- What has been gathered goes back to where it came from. -/
theorem Valid.scatter_gather (hp : p.Valid) (h : p.gather (K := K) full = .ok part) :
    p.scatter (K := K) part full = .ok full := by
  obtain ⟨hfull, rfl⟩ := gather_eq_ok.mp h
  have hlt : ∀ i ∈ p.inverse, i < full.length := fun i hi => hfull ▸ hp.lt_of_mem hi
  have hscatter : p.scatter (K := K) (pick full p.inverse) full =
      .ok (write full p.inverse (pick full p.inverse)) :=
    scatter_eq_ok.mpr ⟨⟨length_pick hlt, hfull⟩, rfl⟩
  rw [hscatter]
  refine congrArg Except.ok (List.ext_getElem? fun i => ?_)
  rw [hp.getElem?_scatter hscatter]
  cases hn : p.number? i with
  | none => rfl
  | some n => exact getElem?_pick hlt ((hp.number?_eq_some_iff i n).mp hn)

/-- **Lists.** Gathering and scattering lists of the right lengths undo each other, and the lists
that are given stay as they are. -/
theorem Valid.undoes (hp : p.Valid) (blank : α) (hpart : part.length = p.size)
    (hfull : full.length = p.domainSize) :
    ∃ picked out blanks, p.Undoes (p.onLists (K := K) blank) blank part full picked out blanks ∧
      p.LeavesInputs K blank part full picked out blanks := by
  have hgather : p.gather (K := K) full = .ok (pick full p.inverse) :=
    gather_eq_ok.mpr ⟨hfull, rfl⟩
  have hscatter : p.scatter (K := K) part full = .ok (write full p.inverse part) :=
    scatter_eq_ok.mpr ⟨⟨hpart, hfull⟩, rfl⟩
  have hspread : p.scatter (K := K) part (List.replicate p.domainSize blank) =
      .ok (write (List.replicate p.domainSize blank) p.inverse part) :=
    scatter_eq_ok.mpr ⟨⟨hpart, List.length_replicate⟩, rfl⟩
  refine ⟨_, _, _, ⟨hgather, hscatter, hspread, hp.gather_scatter hscatter,
    hp.gather_scatter hspread, hp.scatter_gather hgather, hp.merges hscatter, hp.merges hspread⟩,
    ⟨fun store b hb => ?_, fun store a b ha hb => ?_, fun store a ha => ?_⟩⟩
  · rw [run_gatherInPlace hb, hgather]
  · rw [run_scatterInPlace (o := some b) ha (getD_of_getElem? hb), hscatter]
  · rw [run_scatterInPlace (o := none) ha (Option.elim_none ..), hspread]

/-- What holds of the entries that are given, and of the blank one, holds of all entries. -/
theorem Undoes.forall_mem {blank : α} {picked out blanks : List α}
    (h : p.Undoes (p.onLists (K := K) blank) blank part full picked out blanks) {P : α → Prop}
    (hpart : ∀ x ∈ part, P x) (hfull : ∀ x ∈ full, P x) (hblank : P blank) :
    (∀ x ∈ picked, P x) ∧ (∀ x ∈ out, P x) ∧ ∀ x ∈ blanks, P x := by
  refine ⟨forall_mem_gather hfull h.gather, forall_mem_scatter hpart hfull h.scatter,
    forall_mem_scatter hpart (fun x hx => ?_) h.spread⟩
  rw [List.eq_of_mem_replicate hx]
  exact hblank

/-- Lists of other lengths are rejected. -/
theorem rejects_onLists (p : PartialPermutation) (blank : α) :
    p.Rejects (p.onLists (K := K) blank) where
  gather full n hn hne := by
    obtain rfl := Except.ok.inj hn
    exact ⟨_, if_pos hne, rfl⟩
  scatter part full m n hm hn hne := by
    obtain rfl := Except.ok.inj hm
    obtain rfl := Except.ok.inj hn
    by_cases hpart : part.length = p.size
    · refine ⟨.fullLength p.domainSize full.length, ?_, rfl⟩
      change p.scatter part full = _
      rw [PartialPermutation.scatter, if_neg (not_not.mpr hpart),
        if_pos (hne.resolve_left (not_not.mpr hpart))]
    · exact ⟨_, if_pos hpart, rfl⟩
  spread part m hm hne := by
    obtain rfl := Except.ok.inj hm
    exact ⟨_, if_pos hne, rfl⟩

end Laws

end PartialPermutation

end ConvexContact
