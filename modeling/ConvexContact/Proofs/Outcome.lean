import Mathlib.Data.List.Forall2

/-!
# Outcomes of sequences of steps

What it means for a sequence of steps that may fail to succeed: a step followed by another one, a
step for each entry of a list (`mapM`), and steps that carry a value along a list (`foldlM`). What
it means to fail is said next to it: the first step that fails decides (`FirstFails`). The last
section runs steps that may also change a state.

Proof shape: `bind_eq_ok` opens a step and `bind_of_ok` closes one, and everything about lists is an
induction with one of the two in its step. A program is taken apart with the former and put together
with the latter, so that no proof about a program unfolds `do`.
-/

namespace ConvexContact.Outcome

variable {ε α β γ : Type}

/-- Two steps in a row succeed when the first one does and the second one does from there. -/
theorem bind_eq_ok {x : Except ε α} {f : α → Except ε β} {b : β} :
    x >>= f = .ok b ↔ ∃ a, x = .ok a ∧ f a = .ok b := by
  rcases x with e | a
  · simp [bind, Except.bind]
  · simp [bind, Except.bind]

/-- The other direction, to go on from a step that is known to succeed. -/
theorem bind_of_ok {x : Except ε α} {a : α} (f : α → Except ε β) (h : x = .ok a) :
    x >>= f = f a := by
  rw [h]
  rfl

/-- What is done to an answer neither fails nor turns a failure into a success. -/
theorem map_eq_ok {x : Except ε α} {f : α → β} {b : β} :
    f <$> x = .ok b ↔ ∃ a, x = .ok a ∧ f a = b := by
  rcases x with e | a
  · simp [Functor.map, Except.map]
  · simp [Functor.map, Except.map]

/-- Answering at once is answering. -/
@[simp] theorem pure_eq_ok {a b : α} : (pure a : Except ε α) = .ok b ↔ a = b := by
  simp [pure, Except.pure]

/-- What a computation finds out about the answer of a step. -/
theorem exists_of_check {x : Except ε α} {P : α → Bool} (h : x.toOption.any P = true) :
    ∃ a, x = .ok a ∧ P a = true := by
  cases x with
  | error e => cases h
  | ok a => exact ⟨a, rfl, h⟩

/-- A step for each entry of a list succeeds when each of them does. -/
theorem mapM_eq_ok {f : α → Except ε β} {xs : List α} {ys : List β} :
    xs.mapM f = .ok ys ↔ List.Forall₂ (fun x y => f x = .ok y) xs ys := by
  induction xs generalizing ys with
  | nil =>
    rw [List.mapM_nil, pure_eq_ok, List.forall₂_nil_left_iff]
    exact eq_comm
  | cons x xs ih =>
    rw [List.mapM_cons, bind_eq_ok]
    constructor
    · rintro ⟨y, hy, h⟩
      obtain ⟨ys', hys', h⟩ := bind_eq_ok.mp h
      obtain rfl := pure_eq_ok.mp h
      exact List.Forall₂.cons hy (ih.mp hys')
    · intro h
      obtain ⟨y, ys', hy, hys', rfl⟩ := List.forall₂_cons_left_iff.mp h
      exact ⟨y, hy, bind_eq_ok.mpr ⟨ys', ih.mpr hys', rfl⟩⟩

/-- Steps that succeed with answers of one form succeed together with a list of these. -/
theorem mapM_eq_ok_map {f : α → Except ε β} {g : γ → β} {P : α → γ → Prop}
    (h : ∀ x y, f x = .ok y ↔ ∃ z, P x z ∧ y = g z) {xs : List α} {ys : List β} :
    xs.mapM f = .ok ys ↔ ∃ zs, List.Forall₂ P xs zs ∧ ys = zs.map g := by
  rw [mapM_eq_ok]
  constructor
  · intro hall
    induction hall with
    | nil => exact ⟨[], List.Forall₂.nil, rfl⟩
    | @cons x y xs ys hx _ ih =>
      obtain ⟨z, hz, rfl⟩ := (h x y).mp hx
      obtain ⟨zs, hzs, rfl⟩ := ih
      exact ⟨z :: zs, List.Forall₂.cons hz hzs, rfl⟩
  · rintro ⟨zs, hzs, rfl⟩
    rw [List.forall₂_map_right_iff]
    exact hzs.imp fun x z hz => (h x (g z)).mpr ⟨z, hz, rfl⟩

/-- As many answers as entries. -/
theorem length_of_mapM {f : α → Except ε β} {xs : List α} {ys : List β}
    (h : xs.mapM f = .ok ys) : ys.length = xs.length :=
  (mapM_eq_ok.mp h).length_eq.symm

/-- The answer at each place is that of the entry there. -/
theorem getElem?_of_mapM {f : α → Except ε β} {xs : List α} {ys : List β}
    (h : xs.mapM f = .ok ys) {i : Nat} {x : α} (hx : xs[i]? = some x) :
    ∃ y, ys[i]? = some y ∧ f x = .ok y := by
  obtain ⟨hi, rfl⟩ := List.getElem?_eq_some_iff.mp hx
  have hi' : i < ys.length := by rw [length_of_mapM h]; exact hi
  exact ⟨ys[i], List.getElem?_eq_getElem hi',
    (List.forall₂_iff_get.mp (mapM_eq_ok.mp h)).2 i hi hi'⟩

/-- Every answer is that of some entry. -/
theorem mem_of_mapM {f : α → Except ε β} {xs : List α} {ys : List β} (h : xs.mapM f = .ok ys)
    {y : β} (hy : y ∈ ys) : ∃ x ∈ xs, f x = .ok y := by
  obtain ⟨i, hi, rfl⟩ := List.getElem_of_mem hy
  have hi' : i < xs.length := by rw [← length_of_mapM h]; exact hi
  obtain ⟨z, hz, hx⟩ := getElem?_of_mapM h (List.getElem?_eq_getElem hi')
  rw [List.getElem?_eq_getElem hi] at hz
  rw [Option.some.inj hz]
  exact ⟨xs[i], List.getElem_mem hi', hx⟩

/-- Steps that succeed for each entry succeed together. -/
theorem exists_mapM {f : α → Except ε β} {xs : List α} (h : ∀ x ∈ xs, ∃ y, f x = .ok y) :
    ∃ ys, xs.mapM f = .ok ys := by
  induction xs with
  | nil => exact ⟨[], rfl⟩
  | cons x xs ih =>
    obtain ⟨y, hy⟩ := h x (by simp)
    obtain ⟨ys, hys⟩ := ih fun z hz => h z (List.mem_cons_of_mem _ hz)
    exact ⟨y :: ys, mapM_eq_ok.mpr (List.Forall₂.cons hy (mapM_eq_ok.mp hys))⟩

/-- Steps that all succeed, with answers given by a function. -/
theorem mapM_of_forall {f : α → Except ε β} {g : α → β} {xs : List α}
    (h : ∀ x ∈ xs, f x = .ok (g x)) : xs.mapM f = .ok (xs.map g) := by
  rw [mapM_eq_ok, List.forall₂_map_right_iff, List.forall₂_same]
  exact h

/-- A second way to take each step, whose answers are functions of the first one's. -/
theorem mapM_transfer {f : α → Except ε β} {g : α → Except ε γ} {h : β → γ} {xs : List α}
    {ys : List β} (hf : xs.mapM f = .ok ys)
    (hg : ∀ x ∈ xs, ∀ y, f x = .ok y → g x = .ok (h y)) : xs.mapM g = .ok (ys.map h) := by
  rw [mapM_eq_ok] at hf ⊢
  induction hf with
  | nil => exact List.Forall₂.nil
  | cons hx _ ih =>
    refine List.Forall₂.cons (hg _ (by simp) _ hx) (ih fun x hx' => ?_)
    exact hg x (List.mem_cons_of_mem _ hx')

/-- Checks of all entries of a list succeed when each of them does. -/
theorem forM_eq_ok {f : α → Except ε Unit} {xs : List α} :
    xs.forM f = .ok () ↔ ∀ x ∈ xs, f x = .ok () := by
  induction xs with
  | nil => exact ⟨fun _ x hx => absurd hx (by simp), fun _ => rfl⟩
  | cons x xs ih =>
    change (f x >>= fun _ => xs.forM f) = _ ↔ _
    rw [bind_eq_ok, List.forall_mem_cons, ← ih]
    exact ⟨fun ⟨_, hx, hxs⟩ => ⟨hx, hxs⟩, fun ⟨hx, hxs⟩ => ⟨(), hx, hxs⟩⟩

/-- Steps that carry a value along a list split where the list does. -/
theorem foldlM_cons_eq_ok {f : β → α → Except ε β} {b c : β} {x : α} {xs : List α} :
    (x :: xs).foldlM f b = .ok c ↔ ∃ b', f b x = .ok b' ∧ xs.foldlM f b' = .ok c := by
  rw [List.foldlM_cons, bind_eq_ok]

/-- **Loop rule.** What holds of the value at the start, and is kept by every step that succeeds,
holds of the value at the end. The invariant speaks of the entries that have been consumed. -/
theorem foldlM_induction {f : β → α → Except ε β} {xs : List α} {b c : β}
    (P : List α → β → Prop) (hstart : P [] b)
    (hstep : ∀ done x b b', (∃ rest, done ++ x :: rest = xs) → P done b → f b x = .ok b' →
      P (done ++ [x]) b')
    (h : xs.foldlM f b = .ok c) : P xs c := by
  -- the induction is on what is left, with what has been consumed as a parameter
  suffices ∀ done rest b, done ++ rest = xs → P done b → rest.foldlM f b = .ok c → P xs c from
    this [] xs b rfl hstart h
  intro done rest
  induction rest generalizing done with
  | nil =>
    intro b hsplit hP hfold
    rw [List.foldlM_nil, pure_eq_ok] at hfold
    rw [List.append_nil] at hsplit
    rw [← hsplit, ← hfold]
    exact hP
  | cons x rest ih =>
    intro b hsplit hP hfold
    obtain ⟨b', hx, hfold⟩ := foldlM_cons_eq_ok.mp hfold
    refine ih (done ++ [x]) b' (by rw [← hsplit, List.append_assoc]; rfl) ?_ hfold
    exact hstep done x b b' ⟨rest, hsplit⟩ hP hx

/-- **Success of a loop.** Steps that carry a value along a list succeed when each of them does from
a value of the kind that the steps keep, and the value at the end is of that kind. -/
theorem exists_foldlM {f : β → α → Except ε β} {xs : List α} {b : β} (P : List α → β → Prop)
    (hstart : P [] b)
    (hstep : ∀ done x b, (∃ rest, done ++ x :: rest = xs) → P done b →
      ∃ b', f b x = .ok b' ∧ P (done ++ [x]) b') :
    ∃ c, xs.foldlM f b = .ok c ∧ P xs c := by
  suffices ∀ done rest b, done ++ rest = xs → P done b → ∃ c, rest.foldlM f b = .ok c ∧ P xs c from
    this [] xs b rfl hstart
  intro done rest
  induction rest generalizing done with
  | nil =>
    intro b hsplit hP
    rw [List.append_nil] at hsplit
    exact ⟨b, rfl, hsplit ▸ hP⟩
  | cons x rest ih =>
    intro b hsplit hP
    obtain ⟨b', hb', hP'⟩ := hstep done x b ⟨rest, hsplit⟩ hP
    obtain ⟨c, hc, hPc⟩ := ih (done ++ [x]) b' (by rw [← hsplit, List.append_assoc]; rfl) hP'
    exact ⟨c, foldlM_cons_eq_ok.mpr ⟨b', hb', hc⟩, hPc⟩

/-- Steps that all succeed, with values given by a function. -/
theorem foldlM_of_forall {f : β → α → Except ε β} {g : β → α → β} {xs : List α} {b : β}
    (h : ∀ x ∈ xs, ∀ b, f b x = .ok (g b x)) : xs.foldlM f b = .ok (xs.foldl g b) := by
  induction xs generalizing b with
  | nil => rfl
  | cons x xs ih =>
    rw [List.foldlM_cons, bind_of_ok _ (h x (by simp) b)]
    exact ih fun y hy => h y (List.mem_cons_of_mem _ hy)

/-- Steps for the entries of two lists that agree step by step. -/
theorem mapM_congr {f : α → Except ε β} {g : γ → Except ε β} {xs : List α} {ys : List γ}
    (h : List.Forall₂ (fun x y => f x = g y) xs ys) : xs.mapM f = ys.mapM g := by
  induction h with
  | nil => rfl
  | cons hxy _ ih => rw [List.mapM_cons, List.mapM_cons, hxy, ih]

/-- Steps along two lists that agree step by step, from wherever they are taken. -/
theorem foldlM_congr {f : β → α → Except ε β} {g : β → γ → Except ε β} {xs : List α}
    {ys : List γ} (h : List.Forall₂ (fun x y => ∀ b, f b x = g b y) xs ys) (b : β) :
    xs.foldlM f b = ys.foldlM g b := by
  induction h generalizing b with
  | nil => rfl
  | cons hxy _ ih =>
    rw [List.foldlM_cons, List.foldlM_cons, hxy]
    exact congrArg _ (funext ih)

/-! ## Failures

The counterpart of the equations for success: which entry of a list is reported when several of them
fail. -/

/-- Two steps in a row fail when the first one does, or when the second one does from there. -/
theorem bind_eq_error {x : Except ε α} {f : α → Except ε β} {e : ε} :
    x >>= f = .error e ↔ x = .error e ∨ ∃ a, x = .ok a ∧ f a = .error e := by
  rcases x with e' | a
  · simp [bind, Except.bind]
  · simp [bind, Except.bind]

/-- Checks of all entries of a list fail as one of them does. -/
theorem exists_of_forM_error {f : α → Except ε Unit} {xs : List α} {e : ε}
    (h : xs.forM f = .error e) : ∃ x ∈ xs, f x = .error e := by
  induction xs with
  | nil => cases h
  | cons x xs ih =>
    -- the entries before the one that fails have passed
    rcases bind_eq_error.mp h with hx | ⟨_, -, hxs⟩
    · exact ⟨x, by simp, hx⟩
    · obtain ⟨y, hy, hfail⟩ := ih hxs
      exact ⟨y, List.mem_cons_of_mem _ hy, hfail⟩

/-- A step succeeds when it does not fail. -/
theorem exists_ok_iff {x : Except ε α} : (∃ a, x = .ok a) ↔ ∀ e, x ≠ .error e := by
  rcases x with e | a
  · simp
  · simp

/-- The first entry of a list that fails, fails with `e`: the entries before it do not fail at all.
-/
def FirstFails (fails : α → ε → Prop) (xs : List α) (e : ε) : Prop :=
  ∃ before x after, xs = before ++ x :: after ∧ (∀ y ∈ before, ∀ e', ¬ fails y e') ∧ fails x e

/-- Either the first entry fails, or it does not fail at all and the others are asked. -/
theorem firstFails_cons {fails : α → ε → Prop} {x : α} {xs : List α} {e : ε} :
    FirstFails fails (x :: xs) e ↔
      fails x e ∨ (∀ e', ¬ fails x e') ∧ FirstFails fails xs e := by
  constructor
  · rintro ⟨before, y, after, hsplit, hbefore, hy⟩
    -- the entry that fails is the first one, or one of the others with the first before it
    cases before with
    | nil =>
      obtain ⟨rfl, rfl⟩ := List.cons.inj hsplit
      exact Or.inl hy
    | cons z before =>
      obtain ⟨rfl, rfl⟩ := List.cons.inj hsplit
      exact Or.inr ⟨hbefore x (by simp), before, y, after, rfl,
        fun w hw => hbefore w (List.mem_cons_of_mem _ hw), hy⟩
  · rintro (hx | ⟨hx, before, y, after, rfl, hbefore, hy⟩)
    · exact ⟨[], x, xs, rfl, by simp, hx⟩
    · refine ⟨x :: before, y, after, rfl, fun z hz => ?_, hy⟩
      rcases List.mem_cons.mp hz with rfl | hz
      · exact hx
      · exact hbefore z hz

/-- No entry of the empty list fails. -/
theorem not_firstFails_nil {fails : α → ε → Prop} {e : ε} : ¬ FirstFails fails [] e := by
  rintro ⟨before, x, after, hsplit, -⟩
  cases before <;> cases hsplit

/-- No entry is the first to fail when none fails. -/
theorem forall_not_firstFails {fails : α → ε → Prop} {xs : List α} :
    (∀ e, ¬ FirstFails fails xs e) ↔ ∀ x ∈ xs, ∀ e, ¬ fails x e := by
  induction xs with
  | nil => exact iff_of_true (fun _ => not_firstFails_nil) (by simp)
  | cons x xs ih =>
    rw [List.forall_mem_cons, ← ih]
    constructor
    · intro h
      have hx : ∀ e, ¬ fails x e := fun e he => h e (firstFails_cons.mpr (Or.inl he))
      exact ⟨hx, fun e he => h e (firstFails_cons.mpr (Or.inr ⟨hx, he⟩))⟩
    · rintro ⟨hx, hxs⟩ e he
      rcases firstFails_cons.mp he with he | ⟨-, he⟩
      · exact hx e he
      · exact hxs e he

/-- Failures that are the same for each entry. -/
theorem firstFails_congr {fails fails' : α → ε → Prop} {xs : List α} {e : ε}
    (h : ∀ x ∈ xs, ∀ e, fails x e ↔ fails' x e) :
    FirstFails fails xs e ↔ FirstFails fails' xs e := by
  induction xs with
  | nil => exact iff_of_false not_firstFails_nil not_firstFails_nil
  | cons x xs ih =>
    rw [firstFails_cons, firstFails_cons, ih fun y hy => h y (List.mem_cons_of_mem _ hy)]
    simp only [h x (by simp)]

/-- A step for each entry of a list fails as it does for the first entry for which it does. -/
theorem mapM_eq_error {f : α → Except ε β} {xs : List α} {e : ε} :
    xs.mapM f = .error e ↔ FirstFails (fun x e => f x = .error e) xs e := by
  induction xs with
  | nil => exact iff_of_false nofun not_firstFails_nil
  | cons x xs ih =>
    rw [List.mapM_cons, bind_eq_error, firstFails_cons, ← ih]
    refine or_congr_right ?_
    constructor
    · rintro ⟨y, hy, h⟩
      refine ⟨fun e' he' => ?_, ?_⟩
      · rw [hy] at he'
        cases he'
      · rcases bind_eq_error.mp h with h | ⟨ys, -, h⟩
        · exact h
        · cases h
    · rintro ⟨hx, h⟩
      obtain ⟨y, hy⟩ := exists_ok_iff.mpr hx
      exact ⟨y, hy, bind_eq_error.mpr (Or.inl h)⟩

/-! ## Computations that change a state

Errors sit on top of the state, so a step that fails keeps what was written before it. With one
equation for each primitive step, a program in place is run by rewriting. -/

section State

variable {σ : Type}

/-- A second step is taken from what the first one has left, unless that has failed. -/
theorem run_bind (x : ExceptT ε (StateM σ) α) (f : α → ExceptT ε (StateM σ) β) (s : σ) :
    (x >>= f).run.run s =
      match x.run.run s with
      | (.ok a, t) => (f a).run.run t
      | (.error e, t) => (.error e, t) := by
  change (x s).casesOn (motive := fun _ => Except ε β × σ)
    (fun a t => ExceptT.bindCont f a t) = _
  -- a failure keeps the state that the first step has left
  rcases hx : x s with ⟨e | a, t⟩ <;> simp only [ExceptT.run, StateT.run, hx] <;> rfl

/-- A change of the state answers nothing, -/
theorem run_modify (f : σ → σ) (s : σ) :
    (modify f : ExceptT ε (StateM σ) Unit).run.run s = (.ok (), f s) := rfl

/-- and a look at the state changes nothing. -/
theorem run_get (s : σ) : (get : ExceptT ε (StateM σ) σ).run.run s = (.ok s, s) := rfl

/-- A check changes nothing, whatever it finds. -/
theorem run_check (x : Except ε α) (s : σ) :
    (ExceptT.mk (pure x) : ExceptT ε (StateM σ) α).run.run s = (x, s) := rfl

/-- Checks change nothing, whatever they find. -/
theorem run_checks (check : α → Except ε Unit) (xs : List α) (s : σ) :
    (xs.forM fun x => ExceptT.mk (pure (check x)) : ExceptT ε (StateM σ) Unit).run.run s =
      (xs.forM check, s) := by
  induction xs with
  | nil => rfl
  | cons x xs ih =>
    rw [List.forM, List.forM]
    cases hx : check x with
    | error e => rfl
    | ok u => exact ih

end State

end ConvexContact.Outcome
