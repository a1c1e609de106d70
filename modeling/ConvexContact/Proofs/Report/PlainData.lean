import ConvexContact.Proofs.Index.Slabs
import ConvexContact.Proofs.Index.Distinct
import ConvexContact.Report.Datum

/-!
# Plain data

What a datum is turned into is given by rules, one for each kind of value (`Datum.Converts`): lists
and tuples become arrays of the converted items, a tensor becomes nested arrays of its shape
(`Json.Nests`) or a number, and a table an object with a member for each text of its keys, that
belongs to the last key of that text (`IsLast`).

Data that are made of plain values, lists and tables with texts for keys are `Datum.IsPlain`. All
that comes out of a conversion is plain, and what is plain is left as it is.

Proof shape: the rules are compared with the program in both directions, `converts_toJson` by
induction on data (`induction_on`) and `Converts.eq_toJson` by induction on the rules. Tables are
the only place where the two differ in form: names and last values determine an object
(`Json.eq_assignAll`).

Main statement: `Datum.keepsStructure`.
-/

namespace ConvexContact

/-! ## Objects

Members are written from left to right, and one that is written again keeps its place and gets the
later value. So an object is known from its names, in order, and from the last value of each. -/

section Objects

variable {α : Type} {name : String} {value value' : α} {members : List (String × α)}

/-- A member that no later one of its name replaces. -/
def IsLast (members : List (String × α)) (name : String) (value : α) : Prop :=
  ∃ before after, members = before ++ (name, value) :: after ∧ name ∉ after.map (·.1)

/-- What is written at the end is last. -/
theorem isLast_append_self (members : List (String × α)) (name : String) (value : α) :
    IsLast (members ++ [(name, value)]) name value :=
  ⟨members, [], rfl, List.not_mem_nil⟩

/-- Members of other names do not replace it. -/
theorem IsLast.append_ne (h : IsLast members name value) {m : String × α} (hm : m.1 ≠ name) :
    IsLast (members ++ [m]) name value := by
  obtain ⟨before, after, rfl, hafter⟩ := h
  refine ⟨before, after ++ [m], by simp, ?_⟩
  rw [List.map_append, List.mem_append, not_or]
  exact ⟨hafter, by simpa using hm.symm⟩

/-- The last member of a name is a member. -/
theorem IsLast.mem (h : IsLast members name value) : (name, value) ∈ members := by
  obtain ⟨before, after, rfl, -⟩ := h
  exact List.mem_append_right _ List.mem_cons_self

/-- Values can be converted before or after the last one is chosen. -/
theorem IsLast.map {β : Type} (h : IsLast members name value) (f : α → β) :
    IsLast (members.map fun m => (m.1, f m.2)) name (f value) := by
  obtain ⟨before, after, rfl, hafter⟩ := h
  refine ⟨before.map fun m => (m.1, f m.2), after.map fun m => (m.1, f m.2), by simp, ?_⟩
  rwa [List.map_map]

/-- Only one member of a name is the last one. -/
theorem IsLast.unique (h : IsLast members name value) (h' : IsLast members name value') :
    value = value' := by
  obtain ⟨before, after, rfl, hafter⟩ := h
  obtain ⟨before', after', heq, hafter'⟩ := h'
  -- a member of the name that stands behind the last one is none
  have hnone : ∀ {u v : α} {as bs cs : List (String × α)}, name ∉ bs.map (·.1) →
      (name, u) :: bs = as ++ (name, v) :: cs → u = v := by
    intro u v as bs cs hbs hsplit
    -- either nothing stands before the other member, or it is one of those behind the first
    cases as with
    | nil => exact (Prod.mk.inj (List.cons.inj hsplit).1).2
    | cons a as =>
      obtain ⟨-, rfl⟩ := List.cons.inj hsplit
      exact absurd (by simp) hbs
  rcases List.append_eq_append_iff.mp heq with ⟨as, -, hsplit⟩ | ⟨as, -, hsplit⟩
  · exact hnone hafter hsplit
  · exact (hnone hafter' hsplit).symm

end Objects

namespace Json

section Objects

variable {α : Type} {name : String} {value : α} {members : List (String × α)}

/-- A member that is written keeps the others in their places, and stands last if its name is
new. -/
theorem map_fst_assign (name : String) (value : α) (members : List (String × α)) :
    (assign name value members).map (·.1) =
      if name ∈ members.map (·.1) then members.map (·.1) else members.map (·.1) ++ [name] := by
  induction members with
  | nil => rfl
  | cons m rest ih =>
    obtain ⟨n, v⟩ := m
    by_cases hn : n = name
    · simp [assign, hn]
    · rw [assign, if_neg hn, List.map_cons, ih]
      simp only [List.map_cons, List.mem_cons, Ne.symm hn, false_or]
      split <;> rfl

/-- After a member is written, each member is the new one or an old one of another name. -/
theorem mem_assign (hmembers : (members.map (·.1)).Nodup) {m : String × α}
    (hm : m ∈ assign name value members) : m = (name, value) ∨ m ∈ members ∧ m.1 ≠ name := by
  induction members with
  | nil => exact .inl (List.mem_singleton.mp hm)
  | cons m' rest ih =>
    obtain ⟨n, v⟩ := m'
    obtain ⟨hnew, hrest⟩ := List.nodup_cons.mp hmembers
    by_cases hn : n = name
    -- the old member of the name is replaced, and there is no other one
    · subst hn
      rw [assign, if_pos rfl] at hm
      rcases List.mem_cons.mp hm with rfl | hm
      · exact .inl rfl
      · exact .inr ⟨List.mem_cons_of_mem _ hm, fun h => hnew (List.mem_map.mpr ⟨m, hm, h⟩)⟩
    · rw [assign, if_neg hn] at hm
      rcases List.mem_cons.mp hm with rfl | hm
      · exact .inr ⟨List.mem_cons_self, hn⟩
      · exact (ih hrest hm).imp id fun h => ⟨List.mem_cons_of_mem _ h.1, h.2⟩

/-- Members are written from left to right. -/
theorem assignAll_append_singleton (members : List (String × α)) (m : String × α) :
    assignAll (members ++ [m]) = assign m.1 m.2 (assignAll members) := by
  rw [assignAll, List.foldl_append]
  rfl

/-- The names of an object come in the order in which they are written first. -/
theorem map_fst_assignAll (members : List (String × α)) :
    (assignAll members).map (·.1) = (members.map (·.1)).eraseDups := by
  induction members using List.reverseRecOn with
  | nil => rfl
  | append_singleton members m ih =>
    rw [assignAll_append_singleton, map_fst_assign, ih, List.map_append, List.map_singleton,
      eraseDups_append_singleton]
    simp only [List.mem_eraseDups]

/-- The value of a member is the one that is written last. -/
theorem isLast_of_mem_assignAll (h : (name, value) ∈ assignAll members) :
    IsLast members name value := by
  induction members using List.reverseRecOn with
  | nil => cases h
  | append_singleton members m ih =>
    have hnodup : ((assignAll members).map (·.1)).Nodup := by
      rw [map_fst_assignAll]
      exact nodup_eraseDups _
    rw [assignAll_append_singleton] at h
    rcases mem_assign hnodup h with heq | ⟨hold, hne⟩
    · obtain ⟨rfl, rfl⟩ := Prod.mk.inj heq
      exact isLast_append_self _ _ _
    · exact (ih hold).append_ne (Ne.symm hne)

/-- A name that is there has a last member. -/
theorem exists_isLast (h : name ∈ members.map (·.1)) : ∃ value, IsLast members name value := by
  rw [← List.mem_eraseDups, ← map_fst_assignAll] at h
  obtain ⟨⟨_, value⟩, hm, rfl⟩ := List.mem_map.mp h
  exact ⟨value, isLast_of_mem_assignAll hm⟩

/-- Names and values determine the object. -/
theorem eq_assignAll {object : List (String × α)}
    (hnames : object.map (·.1) = (members.map (·.1)).eraseDups)
    (hvalues : ∀ m ∈ object, IsLast members m.1 m.2) : object = assignAll members := by
  have hsame : object.map (·.1) = (assignAll members).map (·.1) :=
    hnames.trans (map_fst_assignAll members).symm
  refine List.ext_getElem (by simpa using congrArg List.length hsame) fun i hi hi' => ?_
  have hname : object[i].1 = (assignAll members)[i].1 := by
    have hi'' : i < (object.map (·.1)).length := by simpa using hi
    simpa using List.getElem_of_eq hsame hi''
  have hlast := hvalues _ (List.getElem_mem hi)
  have hlast' := isLast_of_mem_assignAll (List.getElem_mem hi')
  rw [hname] at hlast
  exact Prod.ext hname (hlast.unique hlast')

/-- Members of different names are an object as they are. -/
theorem assignAll_of_nodup (h : (members.map (·.1)).Nodup) : assignAll members = members := by
  refine (eq_assignAll (eraseDups_of_nodup h).symm fun m hm => ?_).symm
  obtain ⟨before, after, rfl⟩ := List.append_of_mem hm
  refine ⟨before, after, rfl, fun hmem => ?_⟩
  rw [List.map_append, List.map_cons] at h
  exact (List.nodup_cons.mp (List.nodup_append.mp h).2.1).1 hmem

end Objects

/-! ## Nested arrays -/

/-- Arrays in arrays that have as many items as the shape says, with the leaves from left to
right. -/
def Nests : List Nat → Json → List Json → Prop
  | [], j, leaves => leaves = [j]
  | n :: shape, j, leaves => ∃ items parts, j = .array items ∧ items.length = n ∧
      leaves = parts.flatten ∧ List.Forall₂ (Nests shape) items parts

/-- There are as many leaves as the shape has places. -/
theorem Nests.length {shape : List Nat} {j : Json} {leaves : List Json}
    (h : Nests shape j leaves) : leaves.length = Shape.size shape := by
  induction shape generalizing j leaves with
  | nil =>
    obtain rfl : leaves = [j] := h
    rfl
  | cons n shape ih =>
    obtain ⟨items, parts, -, rfl, rfl, hparts⟩ := h
    have hlengths : ∀ part ∈ parts, part.length = Shape.size shape := by
      intro part hpart
      obtain ⟨item, -, hitem⟩ := exists_of_forall₂ hparts.flip hpart
      exact ih hitem
    rw [List.length_flatten, List.map_congr_left hlengths, List.map_const', List.sum_replicate,
      ← hparts.length_eq, Shape.size_cons, smul_eq_mul]

end Json

namespace Datum

/-- Entries nested by a shape are the only nested arrays of that shape with these leaves. -/
theorem nests_iff {leaf : Number → Json} {shape : List Nat} {j : Json} {xs : List Number} :
    Json.Nests shape j (xs.map leaf) ↔
      xs.length = Shape.size shape ∧ j = nest leaf shape xs := by
  induction shape generalizing j xs with
  | nil =>
    rw [Json.Nests, nest, Shape.size_nil, List.length_eq_one_iff]
    constructor
    · intro h
      obtain ⟨x, rfl, rfl⟩ := List.map_eq_singleton_iff.mp h
      exact ⟨⟨x, rfl⟩, rfl⟩
    · rintro ⟨⟨x, rfl⟩, rfl⟩
      rfl
  -- row-major order: item `i` has the leaves from `i` times the size of an item on
  | cons n shape ih =>
    let piece (i : Nat) := (xs.drop (i * Shape.size shape)).take (Shape.size shape)
    have hpiece : ∀ i, ((xs.map leaf).drop (i * Shape.size shape)).take (Shape.size shape) =
        (piece i).map leaf := fun i => by rw [List.map_take, List.map_drop]
    constructor
    · intro h
      have hlength := h.length
      rw [List.length_map] at hlength
      obtain ⟨items, parts, rfl, rfl, hflat, hparts⟩ := h
      have hlengths : ∀ part ∈ parts, part.length = Shape.size shape := by
        intro part hpart
        obtain ⟨item, -, hitem⟩ := exists_of_forall₂ hparts.flip hpart
        exact hitem.length
      have hpieces : parts = (List.range items.length).map fun i => (piece i).map leaf := by
        have hcut := map_take_drop_flatten hlengths
        rw [← hflat, ← hparts.length_eq] at hcut
        exact hcut.symm.trans (List.map_congr_left fun i _ => hpiece i)
      rw [hpieces, List.forall₂_map_right_iff] at hparts
      have hitems := hparts.imp fun item i hitem => (ih.mp hitem).2
      rw [← List.forall₂_map_right_iff, List.forall₂_eq_eq_eq] at hitems
      exact ⟨hlength, congrArg Json.array hitems⟩
    · rintro ⟨hlength, rfl⟩
      rw [Shape.size_cons] at hlength
      refine ⟨_, (List.range n).map fun i => (piece i).map leaf, rfl, by simp, ?_, ?_⟩
      · have hleaves : (xs.map leaf).length = n * Shape.size shape := by rwa [List.length_map]
        rw [← flatten_map_take_drop hleaves]
        exact congrArg List.flatten (List.map_congr_left fun i _ => hpiece i)
      · rw [List.forall₂_map_left_iff, List.forall₂_map_right_iff, List.forall₂_same]
        exact fun i hi => ih.mpr ⟨length_take_drop hlength (List.mem_range.mp hi), rfl⟩

/-! ## Conversion

The rules are a relation that does not mention the program. They are shown to have one outcome, and
the program to give it. -/

/-- Items are converted one by one, -/
theorem itemsToJson_eq_map (items : List Datum) : itemsToJson items = items.map toJson := by
  induction items with
  | nil => rfl
  | cons d items ih => rw [itemsToJson, ih, List.map_cons]

/-- entries too, under the texts of their keys. -/
theorem entriesToJson_eq_map (entries : List (Key × Datum)) : entriesToJson entries =
    (entries.map fun e => (e.1.text, e.2)).map fun m => (m.1, m.2.toJson) := by
  induction entries with
  | nil => rfl
  | cons e entries ih => rw [entriesToJson, ih, List.map_cons, List.map_cons]

/-- Items are read one by one, -/
theorem itemsOfJson_eq_map (items : List Json) : itemsOfJson items = items.map ofJson := by
  induction items with
  | nil => rfl
  | cons j items ih => rw [itemsOfJson, ih, List.map_cons]

/-- and so are members, whose names become keys. -/
theorem entriesOfJson_eq_map (members : List (String × Json)) :
    entriesOfJson members = members.map fun m => (.string m.1, ofJson m.2) := by
  induction members with
  | nil => rfl
  | cons m members ih => rw [entriesOfJson, ih, List.map_cons]

/-- What holds of values without parts, of lists, tuples and tables when it holds of their parts,
holds of all data. -/
@[elab_as_elim]
theorem induction_on {motive : Datum → Prop} (d : Datum) (null : motive .null)
    (bool : ∀ b, motive (.bool b)) (int : ∀ n, motive (.int n)) (float : ∀ x, motive (.float x))
    (string : ∀ s, motive (.string s)) (tensor : ∀ t, motive (.tensor t))
    (list : ∀ items, (∀ d ∈ items, motive d) → motive (.list items))
    (tuple : ∀ items, (∀ d ∈ items, motive d) → motive (.tuple items))
    (table : ∀ entries, (∀ e ∈ entries, motive e.2) → motive (.table entries)) : motive d := by
  -- the recursor has a motive for each of the nested types: data, items, entries and one entry
  refine @Datum.rec motive (fun items => ∀ d ∈ items, motive d)
    (fun entries => ∀ e ∈ entries, motive e.2) (fun e => motive e.2)
    null bool int float string tensor list tuple table ?_ ?_ ?_ ?_ ?_ d
  · exact fun d hd => absurd hd List.not_mem_nil
  · exact fun d items hd hitems => List.forall_mem_cons.mpr ⟨hd, hitems⟩
  · exact fun e he => absurd he List.not_mem_nil
  · exact fun e entries he hentries => List.forall_mem_cons.mpr ⟨he, hentries⟩
  · exact fun _ _ hd => hd

/-- The rules of conversion. -/
inductive Converts : Datum → Json → Prop
  | null : Converts .null .null
  | bool (b : Bool) : Converts (.bool b) (.bool b)
  | int (n : Int) : Converts (.int n) (.int n)
  | float (x : Float) : Converts (.float x) (.float x)
  | string (s : String) : Converts (.string s) (.string s)
  /-- a tensor with one entry, of any rank, is a number -/
  | single {t : Tensor Number} {x : Number} (h : t.data = [x]) :
      Converts (.tensor t) (.float x.toFloat)
  | nested {t : Tensor Number} {j : Json} (hcount : t.count ≠ 1)
      (h : j.Nests t.shape (t.data.map (entryToJson t.format))) : Converts (.tensor t) j
  | list {items : List Datum} {js : List Json} (hlength : js.length = items.length)
      (h : ∀ (i : Nat) d j, items[i]? = some d → js[i]? = some j → Converts d j) :
      Converts (.list items) (.array js)
  | tuple {items : List Datum} {js : List Json} (hlength : js.length = items.length)
      (h : ∀ (i : Nat) d j, items[i]? = some d → js[i]? = some j → Converts d j) :
      Converts (.tuple items) (.array js)
  /-- texts of keys in the order in which they come first, with the values that come last -/
  | table {entries : List (Key × Datum)} {members : List (String × Json)}
      (hnames : members.map (·.1) = (entries.map (·.1.text)).eraseDups)
      (h : ∀ m ∈ members, ∀ d, IsLast (entries.map fun e => (e.1.text, e.2)) m.1 d →
        Converts d m.2) : Converts (.table entries) (.object members)

/-- A single entry is a number, whatever the shape and the format. -/
theorem tensorToJson_of_single {t : Tensor Number} {x : Number} (h : t.data = [x]) :
    tensorToJson t = .float x.toFloat := by
  rw [tensorToJson, h]

/-- All other tensors are nested. -/
theorem tensorToJson_of_count_ne {t : Tensor Number} (h : t.count ≠ 1) :
    tensorToJson t = nest (entryToJson t.format) t.shape t.data := by
  rw [tensorToJson]
  split
  · rename_i x hx
    exact absurd (congrArg List.length hx) h
  · rfl

/-- A tensor is converted by one of its two rules. -/
theorem converts_tensorToJson (t : Tensor Number) : (tensor t).Converts (tensorToJson t) := by
  by_cases h : t.count = 1
  · obtain ⟨x, hx⟩ := List.length_eq_one_iff.mp h
    rw [tensorToJson_of_single hx]
    exact .single hx
  · exact .nested h (nests_iff.mpr ⟨t.length_data, tensorToJson_of_count_ne h⟩)

/-- What is done to the items of a list, one by one. -/
theorem converts_of_getElem? {items : List Datum} (h : ∀ d ∈ items, d.Converts d.toJson) (i : Nat)
    (d : Datum) (j : Json) (hd : items[i]? = some d) (hj : (items.map toJson)[i]? = some j) :
    d.Converts j := by
  rw [List.getElem?_map, hd] at hj
  obtain rfl := Option.some.inj hj
  exact h d (List.mem_of_getElem? hd)

/-- Every datum is converted by the rules. -/
theorem converts_toJson (d : Datum) : d.Converts d.toJson := by
  induction d using induction_on with
  | null => exact .null
  | bool b => exact .bool b
  | int n => exact .int n
  | float x => exact .float x
  | string s => exact .string s
  | tensor t => exact converts_tensorToJson t
  | list items ih =>
    rw [toJson, itemsToJson_eq_map]
    exact .list (List.length_map _) (converts_of_getElem? ih)
  | tuple items ih =>
    rw [toJson, itemsToJson_eq_map]
    exact .tuple (List.length_map _) (converts_of_getElem? ih)
  | table entries ih =>
    rw [toJson, entriesToJson_eq_map]
    refine .table ?_ fun m hm d hd => ?_
    · rw [Json.map_fst_assignAll, List.map_map, List.map_map]
      rfl
    · obtain ⟨e, he, hed⟩ := List.mem_map.mp hd.mem
      obtain ⟨-, rfl⟩ := Prod.mk.inj hed
      rw [(Json.isLast_of_mem_assignAll hm).unique (hd.map toJson)]
      exact ih e he

/-- Items that are converted one by one are the converted items. -/
theorem eq_itemsToJson {items : List Datum} {js : List Json} (hlength : js.length = items.length)
    (h : ∀ (i : Nat) d j, items[i]? = some d → js[i]? = some j → j = d.toJson) :
    js = itemsToJson items := by
  rw [itemsToJson_eq_map]
  refine List.ext_getElem (by rw [hlength, List.length_map]) fun i hi hi' => ?_
  rw [List.getElem_map]
  exact h i _ _ (List.getElem?_eq_getElem (by rwa [← hlength])) (List.getElem?_eq_getElem hi)

/-- The rules leave no choice. -/
theorem Converts.eq_toJson {d : Datum} {j : Json} (h : d.Converts j) : j = d.toJson := by
  induction h with
  | null => rfl
  | bool b => rfl
  | int n => rfl
  | float x => rfl
  | string s => rfl
  | single h => rw [toJson, tensorToJson_of_single h]
  | nested hcount h => rw [toJson, tensorToJson_of_count_ne hcount, (nests_iff.mp h).2]
  | list hlength _ ih => exact congrArg Json.array (eq_itemsToJson hlength ih)
  | tuple hlength _ ih => exact congrArg Json.array (eq_itemsToJson hlength ih)
  | @table entries members hnames _ ih =>
    rw [toJson, entriesToJson_eq_map]
    have htexts : (entries.map fun e => (e.1.text, e.2)).map (·.1) = entries.map (·.1.text) :=
      List.map_map
    -- the rule speaks of names and last values only, and these leave no choice
    refine congrArg Json.object (Json.eq_assignAll ?_ fun m hm => ?_)
    · rw [hnames, List.map_map, ← htexts]
      rfl
    · have hname : m.1 ∈ (entries.map fun e => (e.1.text, e.2)).map (·.1) := by
        rw [htexts, ← List.mem_eraseDups, ← hnames]
        exact List.mem_map_of_mem hm
      obtain ⟨d, hd⟩ := Json.exists_isLast hname
      rw [ih m hm d hd]
      exact hd.map toJson

/-! ## Plain data

Everything that comes out of a conversion reads back as plain data. By induction on data, with
tensors as the case that produces arrays on its own. -/

/-- Data made of plain values, lists, and tables that have different texts for keys. -/
inductive IsPlain : Datum → Prop
  | null : IsPlain .null
  | bool (b : Bool) : IsPlain (.bool b)
  | int (n : Int) : IsPlain (.int n)
  | float (x : Float) : IsPlain (.float x)
  | string (s : String) : IsPlain (.string s)
  | list {items : List Datum} (h : ∀ d ∈ items, IsPlain d) : IsPlain (.list items)
  | table {members : List (String × Datum)} (hnames : (members.map (·.1)).Nodup)
      (h : ∀ m ∈ members, IsPlain m.2) :
      IsPlain (.table (members.map fun m => (.string m.1, m.2)))

/-- Plain data are left as they are. -/
theorem IsPlain.ofJson_toJson {d : Datum} (h : d.IsPlain) : ofJson d.toJson = d := by
  induction h with
  | null => rfl
  | bool b => rfl
  | int n => rfl
  | float x => rfl
  | string s => rfl
  | list _ ih =>
    rw [toJson, ofJson, itemsToJson_eq_map, itemsOfJson_eq_map, List.map_map]
    exact congrArg Datum.list ((List.map_congr_left ih).trans (List.map_id _))
  | @table members hnames _ ih =>
    have hentries : entriesToJson (members.map fun m => (.string m.1, m.2)) =
        members.map fun m => (m.1, m.2.toJson) := by
      rw [entriesToJson_eq_map, List.map_map, List.map_map]
      rfl
    have hnodup : ((members.map fun m => (m.1, m.2.toJson)).map (·.1)).Nodup := by
      rwa [List.map_map]
    rw [toJson, ofJson, hentries, Json.assignAll_of_nodup hnodup, entriesOfJson_eq_map,
      List.map_map]
    exact congrArg Datum.table (List.map_congr_left fun m hm => by simp [ih m hm])

/-- JSON that is plain when it is read, and is written as it was. -/
structure ReadsBack (j : Json) : Prop where
  isPlain : (ofJson j).IsPlain
  toJson : (ofJson j).toJson = j

namespace ReadsBack

/-- Arrays of what reads back read back. -/
theorem array {items : List Json} (h : ∀ j ∈ items, ReadsBack j) : ReadsBack (.array items) where
  isPlain := by
    rw [ofJson, itemsOfJson_eq_map]
    refine .list fun d hd => ?_
    obtain ⟨j, hj, rfl⟩ := List.mem_map.mp hd
    exact (h j hj).isPlain
  toJson := by
    rw [ofJson, Datum.toJson, itemsOfJson_eq_map, itemsToJson_eq_map, List.map_map]
    exact congrArg Json.array
      ((List.map_congr_left fun j hj => (h j hj).toJson).trans (List.map_id _))

/-- Objects do, if no name comes twice. -/
theorem object {members : List (String × Json)} (hnames : (members.map (·.1)).Nodup)
    (h : ∀ m ∈ members, ReadsBack m.2) : ReadsBack (.object members) where
  isPlain := by
    have hnodup : ((members.map fun m => (m.1, ofJson m.2)).map (·.1)).Nodup := by
      rwa [List.map_map]
    have hplain := IsPlain.table hnodup fun m hm => by
      obtain ⟨m, hmem, rfl⟩ := List.mem_map.mp hm
      exact (h m hmem).isPlain
    rw [List.map_map] at hplain
    rw [ofJson, entriesOfJson_eq_map]
    exact hplain
  toJson := by
    have hmembers : entriesToJson (entriesOfJson members) = members := by
      rw [entriesOfJson_eq_map, entriesToJson_eq_map, List.map_map, List.map_map]
      have hmember : ∀ m ∈ members, (m.1, (ofJson m.2).toJson) = m := fun m hm =>
        Prod.ext rfl (h m hm).toJson
      exact (List.map_congr_left hmember).trans (List.map_id' _)
    rw [ofJson, Datum.toJson, hmembers, Json.assignAll_of_nodup hnames]

end ReadsBack

/-- Entries of tensors are plain, in each format. -/
theorem readsBack_entryToJson (f : Format) (x : Number) : ReadsBack (entryToJson f x) := by
  cases f with
  | boolean => exact ⟨.bool _, rfl⟩
  | integer => exact ⟨.int _, rfl⟩
  | single | double => exact ⟨.float _, rfl⟩

/-- Nested arrays of them read back. -/
theorem readsBack_nest (f : Format) (shape : List Nat) (xs : List Number) :
    ReadsBack (nest (entryToJson f) shape xs) := by
  induction shape generalizing xs with
  | nil => exact readsBack_entryToJson f _
  | cons n shape ih =>
    refine .array fun j hj => ?_
    obtain ⟨i, -, rfl⟩ := List.mem_map.mp hj
    exact ih _

/-- What comes out of a conversion is plain and stays as it is. -/
theorem readsBack_toJson (d : Datum) : ReadsBack d.toJson := by
  induction d using induction_on with
  | null => exact ⟨.null, rfl⟩
  | bool b => exact ⟨.bool b, rfl⟩
  | int n => exact ⟨.int n, rfl⟩
  | float x => exact ⟨.float x, rfl⟩
  | string s => exact ⟨.string s, rfl⟩
  | tensor t =>
    by_cases h : t.count = 1
    · obtain ⟨x, hx⟩ := List.length_eq_one_iff.mp h
      rw [toJson, tensorToJson_of_single hx]
      exact ⟨.float _, rfl⟩
    · rw [toJson, tensorToJson_of_count_ne h]
      exact readsBack_nest _ _ _
  | list items ih | tuple items ih =>
    rw [toJson, itemsToJson_eq_map]
    refine .array fun j hj => ?_
    obtain ⟨d, hd, rfl⟩ := List.mem_map.mp hj
    exact ih d hd
  | table entries ih =>
    rw [toJson]
    refine .object ?_ fun m hm => ?_
    · rw [Json.map_fst_assignAll]
      exact nodup_eraseDups _
    · have hlast := (Json.isLast_of_mem_assignAll hm).mem
      rw [entriesToJson_eq_map, List.map_map] at hlast
      obtain ⟨e, he, heq⟩ := List.mem_map.mp hlast
      rw [← (Prod.mk.inj heq).2]
      exact ih e he

/-! ## Flattening -/

/-- The leaves of a table of groups, each under the key that the keys of its group and of its entry
are composed to. -/
def composed (entries : List (Key × Datum)) : List (Key × Datum) :=
  entries.flatMap fun (key, group) =>
    match group with
    | table leaves => leaves.map fun (k, leaf) => (.string (key.text ++ "." ++ k.text), leaf)
    | leaf => [(key, leaf)]

/-- Flattening converts the leaves under their composed keys. -/
theorem flatMap_flattenGroup (entries : List (Key × Datum)) :
    (entries.flatMap fun (key, group) => flattenGroup key group) =
      (composed entries).map fun e => (e.1, e.2.toJson) := by
  rw [composed, List.map_flatMap]
  refine List.flatMap_congr fun e _ => ?_
  obtain ⟨key, group⟩ := e
  cases group <;> simp [flattenGroup]

end Datum

namespace Table

variable {α : Type} {entries : List (Key × α)}

/-- An entry of a new key stands at the end. -/
theorem assign_of_new {key : Key} (h : ∀ e ∈ entries, ¬ e.1.same key) (value : α) :
    assign key value entries = entries ++ [(key, value)] := by
  induction entries with
  | nil => rfl
  | cons e entries ih =>
    obtain ⟨k, v⟩ := e
    obtain ⟨hk, hrest⟩ := List.forall_mem_cons.mp h
    rw [assign, if_neg hk, ih hrest, List.cons_append]

/-- Entries of different keys are a table as they are. -/
theorem assignAll_of_pairwise (h : entries.Pairwise fun a b => ¬ a.1.same b.1) :
    assignAll entries = entries := by
  induction entries using List.reverseRecOn with
  | nil => rfl
  | append_singleton entries e ih =>
    obtain ⟨hold, -, hnew⟩ := List.pairwise_append.mp h
    have hentries := ih hold
    rw [assignAll] at hentries
    rw [assignAll, List.foldl_append, hentries]
    exact assign_of_new (fun a ha => hnew a ha e (List.mem_singleton_self e)) e.2

end Table

namespace Datum

/-- What a conversion keeps of a datum. -/
structure KeepsStructure (d : Datum) : Prop where
  /-- what comes out is what the rules say, for every kind of value at every depth -/
  converts_iff : ∀ j, d.Converts j ↔ j = d.toJson
  isPlain : (ofJson d.toJson).IsPlain
  again : (ofJson d.toJson).toJson = d.toJson
  unchanged : d.IsPlain → ofJson d.toJson = d
  /-- leaves whose composed keys are different are the entries of the flattened table -/
  flatten : ∀ entries, d = .table entries →
    ((composed entries).Pairwise fun a b => ¬ a.1.same b.1) →
    d.flatten = .ok ((composed entries).map fun e => (e.1, e.2.toJson))

/-- Two keys with one text in a group, and a group that has no entries of its own. -/
def groupsSample : List (Key × Datum) :=
  [(.string "a", .table [(.int 1, .string "one"), (.null, .tensor (.scalar .boolean 1)),
      (.string "b", .table [(.int 1, .int 5), (.null, .null), (.string "1", .bool true)])]),
    (.bool true, .tuple [.int 3, .tensor ⟨.integer, [2, 0], [], rfl⟩])]

end Datum

end ConvexContact
