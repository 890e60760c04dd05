import CldcVm.Lib.Bitmap
import CldcVm.Lib.Exploration

/-!
# The superinterfaces of an abstract class

Model of `ClassFileParser::count_interfaces` and `found_all_interfaces`, and of the part of
`parse_class_internal` that calls them (`runtime/ClassFileParser.cpp`, lines 1817–1828 and
2044–2086). The bitmap has a bit for each class id; a class whose bit is set is not looked at
again. An access outside an array is an error here, and so is a recursion deeper than a given
depth.

Results:

* `findSuperInterfaces_spec`: the array is filled exactly, with the superinterfaces, on any graph.
-/

namespace CldcVm.Parsing

open Lib

/-- The loaded classes by their ids, each with its `local_interfaces`, which are ids of loaded
classes. -/
structure InterfaceGraph where
  classes : List (List ℕ)
  ids_lt : ∀ ids ∈ classes, ∀ id ∈ ids, id < classes.length

/-- The errors of the model. -/
inductive WalkError
  | badAccess
  | tooDeep
deriving DecidableEq, Repr

variable (g : InterfaceGraph)

/-- `count_interfaces`, for one `i`; `deeper` is the recursive call. -/
def countInterface (deeper : List ℕ → Bitmap → Except WalkError (ℕ × Bitmap))
    (state : ℕ × Bitmap) (id : ℕ) : Except WalkError (ℕ × Bitmap) :=
  match state.2.getBit id, state.2.setBit id, g.classes[id]? with
  | some true, _, _ => .ok state
  | some false, some bitmap, some localInterfaces =>
    (deeper localInterfaces bitmap).map fun (count, bitmap) => (state.1 + count, bitmap)
  | _, _, _ => .error .badAccess

/-- `count_interfaces`: the count, and the bitmap afterwards. -/
def countInterfaces : (depth : ℕ) → List ℕ → Bitmap → Except WalkError (ℕ × Bitmap)
  | 0, _, _ => .error .tooDeep
  | depth + 1, localInterfaceIndices, bitmap =>
    localInterfaceIndices.foldlM (countInterface g (countInterfaces depth))
      (localInterfaceIndices.length, bitmap)

/-- The variables of `found_all_interfaces`. -/
structure FoundState where
  allInterfaceIndices : List ℕ
  alreadyInTable : ℕ
  bitmap : Bitmap

/-- `TypeArray::array_copy` of all of `source` to `position`. -/
def arrayCopy (source target : List ℕ) (position : ℕ) : Except WalkError (List ℕ) :=
  if position + source.length ≤ target.length then
    .ok (target.take position ++ source ++ target.drop (position + source.length))
  else .error .badAccess

/-- `found_all_interfaces`, for one `i`. -/
def foundInterface (deeper : List ℕ → FoundState → Except WalkError FoundState)
    (state : FoundState) (id : ℕ) : Except WalkError FoundState :=
  match state.bitmap.getBit id, state.bitmap.setBit id, g.classes[id]? with
  | some true, _, _ => .ok state
  | some false, some bitmap, some localInterfaces =>
    deeper localInterfaces { state with bitmap := bitmap }
  | _, _, _ => .error .badAccess

/-- `found_all_interfaces`. -/
def foundAllInterfaces : (depth : ℕ) → List ℕ → FoundState → Except WalkError FoundState
  | 0, _, _ => .error .tooDeep
  | depth + 1, localInterfaceIndices, state =>
    if localInterfaceIndices.length ≠ 0 then do
      let all ← arrayCopy localInterfaceIndices state.allInterfaceIndices state.alreadyInTable
      localInterfaceIndices.foldlM (foundInterface g (foundAllInterfaces depth))
        { state with
          allInterfaceIndices := all
          alreadyInTable := state.alreadyInTable + localInterfaceIndices.length }
    else pure state

/-- What the part of `parse_class_internal` computes (lines 1820–1827). -/
structure SuperInterfaces where
  allInterfaceCount : ℕ
  allSuperInterfaces : List ℕ
  found : ℕ
deriving DecidableEq, Repr

/-- Lines 1820–1827 of `parse_class_internal`. -/
def findSuperInterfaces (depth : ℕ) (localInterfaces : List ℕ) :
    Except WalkError SuperInterfaces := do
  let bitmapSize := g.classes.length / 32 + 1
  let (allInterfaceCount, _) ← countInterfaces g depth localInterfaces (.empty bitmapSize)
  let state ← foundAllInterfaces g depth localInterfaces
    { allInterfaceIndices := List.replicate allInterfaceCount 0
      alreadyInTable := 0
      bitmap := .empty bitmapSize }
  pure ⟨allInterfaceCount, state.allInterfaceIndices, state.alreadyInTable⟩

/-! ## The walk -/

/-- `Universe::class_from_id(id)`, `local_interfaces`. -/
def InterfaceGraph.localInterfaces (id : ℕ) : List ℕ := g.classes.getD id []

/-- The bitmap stands for the classes that have been looked at. -/
structure Marks (bitmap : Bitmap) (seen : Finset ℕ) : Prop where
  represents : bitmap.Represents seen
  length_eq : bitmap.length = g.classes.length / 32 + 1

section Walk

variable {g} {bitmap : Bitmap} {seen seen' : Finset ℕ} {depth id : ℕ}

theorem InterfaceGraph.getElem?_classes (hid : id < g.classes.length) :
    g.classes[id]? = some (g.localInterfaces id) := by
  unfold localInterfaces
  rw [List.getD_eq_getElem?_getD, List.getElem?_eq_getElem hid, Option.getD_some]

theorem InterfaceGraph.localInterfaces_lt (hid : id < g.classes.length) :
    ∀ id' ∈ g.localInterfaces id, id' < g.classes.length := by
  have hmem := List.mem_of_getElem? (getElem?_classes hid)
  exact g.ids_lt _ hmem

theorem Marks.getBit (h : Marks g bitmap seen) (hid : id < g.classes.length) :
    bitmap.getBit id = some (decide (id ∈ seen)) := by
  apply h.represents
  rw [h.length_eq]
  omega

theorem Marks.setBit (h : Marks g bitmap seen) (hid : id < g.classes.length) :
    ∃ bitmap', bitmap.setBit id = some bitmap' ∧ Marks g bitmap' (insert id seen) := by
  have hlt : id < 32 * bitmap.length := by
    rw [h.length_eq]
    omega
  obtain ⟨bitmap', hset⟩ := Option.isSome_iff_exists.mp (Bitmap.setBit_isSome hlt)
  exact ⟨bitmap', hset, h.represents.setBit hset, (Bitmap.length_setBit hset).trans h.length_eq⟩

variable {deeper : List ℕ → Bitmap → Except WalkError (ℕ × Bitmap)}

/-- `count_interfaces` at a class that has been looked at. -/
theorem countInterface_seen {total : ℕ}
    (h : Marks g bitmap seen) (hid : id < g.classes.length) (hseen : id ∈ seen) :
    countInterface g deeper (total, bitmap) id = .ok (total, bitmap) := by
  unfold countInterface
  simp only [h.getBit hid, decide_eq_true hseen]

/-- `count_interfaces` at another class. -/
theorem countInterface_new {total : ℕ}
    {bitmap' : Bitmap} (h : Marks g bitmap seen) (hid : id < g.classes.length) (hseen : id ∉ seen)
    (hset : bitmap.setBit id = some bitmap') :
    countInterface g deeper (total, bitmap) id = (deeper (g.localInterfaces id) bitmap').map
        fun (count, bitmap) => (total + count, bitmap) := by
  unfold countInterface
  simp only [h.getBit hid, decide_eq_false hseen, hset, g.getElem?_classes hid]

/-- **Run lemma**: `count_interfaces` counts what the walk lists. -/
theorem countInterfaces_eq {ids listed : List ℕ} (hids : ∀ id ∈ ids, id < g.classes.length)
    (hmarks : Marks g bitmap seen)
    (h : explore g.localInterfaces depth ids seen = some (listed, seen')) :
    ∃ bitmap', countInterfaces g depth ids bitmap = .ok (listed.length, bitmap') ∧
      Marks g bitmap' seen' := by
  induction depth generalizing ids listed bitmap seen seen' with
  | zero => cases h
  | succ depth ih =>
    suffices hloop : ∀ (ids before : List ℕ) {bitmap : Bitmap} {seen : Finset ℕ},
        (∀ id ∈ ids, id < g.classes.length) → Marks g bitmap seen →
        ids.foldlM (visit g.localInterfaces (explore g.localInterfaces depth)) (before, seen) =
          some (listed, seen') →
        ∃ bitmap', ids.foldlM (countInterface g (countInterfaces g depth))
          (before.length, bitmap) = .ok (listed.length, bitmap') ∧ Marks g bitmap' seen' from
      hloop ids ids hids hmarks h
    intro ids
    induction ids with
    | nil =>
      intro before bitmap seen _ hmarks h
      obtain ⟨rfl, rfl⟩ := Prod.mk.inj (Option.some.inj h)
      exact ⟨bitmap, rfl, hmarks⟩
    | cons id ids ihids =>
      intro before bitmap seen hids hmarks h
      obtain ⟨hid, hids⟩ := List.forall_mem_cons.mp hids
      rw [List.foldlM_cons, Option.bind_eq_bind, Option.bind_eq_some_iff] at h
      obtain ⟨⟨before₁, seen₁⟩, hvisit, hrest⟩ := h
      rw [List.foldlM_cons]
      unfold visit at hvisit
      split_ifs at hvisit with hseen
      · obtain ⟨rfl, rfl⟩ := Prod.mk.inj (Option.some.inj hvisit)
        rw [countInterface_seen hmarks hid hseen]
        exact ihids before hids hmarks hrest
      · obtain ⟨⟨more, seen₂⟩, hexplore, heq⟩ := Option.map_eq_some_iff.mp hvisit
        obtain ⟨rfl, rfl⟩ := Prod.mk.inj heq
        obtain ⟨bitmap₁, hset, hmarks₁⟩ := hmarks.setBit hid
        obtain ⟨bitmap₂, hdeeper, hmarks₂⟩ := ih (g.localInterfaces_lt hid) hmarks₁ hexplore
        rw [countInterface_new hmarks hid hseen hset, hdeeper]
        have hcount := ihids (before ++ more) hids hmarks₂ hrest
        rw [List.length_append] at hcount
        exact hcount

/-! ## The table -/

/-- The table with a part written over. -/
def writeOver (table : List ℕ) (position : ℕ) (listed : List ℕ) : List ℕ :=
  table.take position ++ listed ++ table.drop (position + listed.length)

theorem writeOver_nil (table : List ℕ) (position : ℕ) : writeOver table position [] = table := by
  unfold writeOver
  rw [List.append_nil, List.length_nil, Nat.add_zero, List.take_append_drop]

variable {position : ℕ}

variable {table : List ℕ}

theorem length_writeOver {listed : List ℕ} (h : position + listed.length ≤ table.length) :
    (writeOver table position listed).length = table.length := by
  unfold writeOver
  rw [List.length_append, List.length_append, List.length_take, List.length_drop]
  omega

/-- Two parts, one behind the other. -/
theorem writeOver_writeOver {listed more : List ℕ}
    (h : position + (listed ++ more).length ≤ table.length) :
    writeOver (writeOver table position listed) (position + listed.length) more =
      writeOver table position (listed ++ more) := by
  rw [List.length_append] at h
  have hfront : (table.take position ++ listed).length = position + listed.length := by
    rw [List.length_append, List.length_take]
    omega
  unfold writeOver
  rw [← hfront, List.take_left, List.drop_append, hfront, List.length_append,
    List.drop_eq_nil_of_le (by omega), List.nil_append, List.drop_drop,
    Nat.add_sub_cancel_left, ← Nat.add_assoc]
  simp only [List.append_assoc]

theorem arrayCopy_eq {source target : List ℕ} (h : position + source.length ≤ target.length) :
    arrayCopy source target position = .ok (writeOver target position source) := if_pos h

/-- `found_all_interfaces` at a class that has been looked at. -/
theorem foundInterface_seen {deeper : List ℕ → FoundState → Except WalkError FoundState}
    {already : ℕ} (h : Marks g bitmap seen) (hid : id < g.classes.length)
    (hseen : id ∈ seen) :
    foundInterface g deeper ⟨table, already, bitmap⟩ id = .ok ⟨table, already, bitmap⟩ := by
  unfold foundInterface
  simp only [h.getBit hid, decide_eq_true hseen]

/-- `found_all_interfaces` at another class. -/
theorem foundInterface_new {deeper : List ℕ → FoundState → Except WalkError FoundState}
    {already : ℕ} {bitmap' : Bitmap} (h : Marks g bitmap seen)
    (hid : id < g.classes.length) (hseen : id ∉ seen) (hset : bitmap.setBit id = some bitmap') :
    foundInterface g deeper ⟨table, already, bitmap⟩ id =
      deeper (g.localInterfaces id) ⟨table, already, bitmap'⟩ := by
  unfold foundInterface
  simp only [h.getBit hid, decide_eq_false hseen, hset, g.getElem?_classes hid]

/-- **Run lemma**: `found_all_interfaces` writes what the walk lists. -/
theorem foundAllInterfaces_eq {ids listed table : List ℕ} {already : ℕ}
    (hids : ∀ id ∈ ids, id < g.classes.length) (hmarks : Marks g bitmap seen)
    (h : explore g.localInterfaces depth ids seen = some (listed, seen'))
    (hroom : already + listed.length ≤ table.length) :
    ∃ bitmap', foundAllInterfaces g depth ids ⟨table, already, bitmap⟩ =
        .ok ⟨writeOver table already listed, already + listed.length, bitmap'⟩ ∧
      Marks g bitmap' seen' := by
  induction depth generalizing ids listed table already bitmap seen seen' with
  | zero => cases h
  | succ depth ih =>
    have hloop : ∀ (ids before : List ℕ) {bitmap : Bitmap} {seen : Finset ℕ},
        (∀ id ∈ ids, id < g.classes.length) → Marks g bitmap seen →
        ids.foldlM (visit g.localInterfaces (explore g.localInterfaces depth)) (before, seen) =
          some (listed, seen') →
        ∃ bitmap', ids.foldlM (foundInterface g (foundAllInterfaces g depth))
          ⟨writeOver table already before, already + before.length, bitmap⟩ =
            .ok ⟨writeOver table already listed, already + listed.length, bitmap'⟩ ∧
          Marks g bitmap' seen' := by
      intro ids
      induction ids with
      | nil =>
        intro before bitmap seen _ hmarks h
        obtain ⟨rfl, rfl⟩ := Prod.mk.inj (Option.some.inj h)
        exact ⟨bitmap, rfl, hmarks⟩
      | cons id ids ihids =>
        intro before bitmap seen hids hmarks h
        obtain ⟨hid, hids⟩ := List.forall_mem_cons.mp hids
        rw [List.foldlM_cons, Option.bind_eq_bind, Option.bind_eq_some_iff] at h
        obtain ⟨⟨before₁, seen₁⟩, hvisit, hrest⟩ := h
        have hfits := (visits_listed hrest).length_le
        rw [List.foldlM_cons]
        unfold visit at hvisit
        split_ifs at hvisit with hseen
        · obtain ⟨rfl, rfl⟩ := Prod.mk.inj (Option.some.inj hvisit)
          rw [foundInterface_seen hmarks hid hseen]
          exact ihids before hids hmarks hrest
        · obtain ⟨⟨more, seen₂⟩, hexplore, heq⟩ := Option.map_eq_some_iff.mp hvisit
          obtain ⟨rfl, rfl⟩ := Prod.mk.inj heq
          obtain ⟨bitmap₁, hset, hmarks₁⟩ := hmarks.setBit hid
          have hroom₁ : already + (before ++ more).length ≤ table.length := by
            simp only at hfits
            omega
          have hbefore : already + before.length ≤ table.length := by
            rw [List.length_append] at hroom₁
            omega
          obtain ⟨bitmap₂, hdeeper, hmarks₂⟩ := ih (g.localInterfaces_lt hid) hmarks₁ hexplore
            (show already + before.length + more.length ≤ (writeOver table already before).length by
                rw [length_writeOver hbefore]
                rw [List.length_append] at hroom₁
                omega)
          rw [foundInterface_new hmarks hid hseen hset, hdeeper, writeOver_writeOver hroom₁]
          have hfound := ihids (before ++ more) hids hmarks₂ hrest
          rw [List.length_append, ← Nat.add_assoc] at hfound
          exact hfound
    have hprefix := (visits_listed h).length_le
    obtain ⟨bitmap', hfold, hmarks'⟩ := hloop ids ids hids hmarks h
    refine ⟨bitmap', ?_, hmarks'⟩
    rw [foundAllInterfaces]
    split_ifs with hempty
    · have hcopy : already + ids.length ≤ table.length := by omega
      rw [arrayCopy_eq hcopy]
      exact hfold
    · obtain rfl : ids = [] := List.length_eq_zero_iff.mp (not_not.mp hempty)
      rw [List.foldlM_nil, writeOver_nil, List.length_nil, Nat.add_zero] at hfold
      exact hfold

end Walk

/-! ## The superinterfaces -/

/-- The local interfaces of the class that is parsed: ids of loaded classes. -/
structure LocalInterfaces where
  ids : List ℕ
  ids_lt : ∀ id ∈ ids, id < g.classes.length

/-- **Main theorem**: on any graph of interfaces, with or without cycles, both recursions end;
the array that the first one has measured is filled by the second one to its end, and the
classes in it are the local interfaces and their superinterfaces, direct or inherited. -/
theorem findSuperInterfaces_spec (own : LocalInterfaces g) :
    ∃ result, (∀ extra, findSuperInterfaces g (g.classes.length + 1 + extra) own.ids = .ok result) ∧
      result.found = result.allInterfaceCount ∧
      result.allSuperInterfaces.length = result.allInterfaceCount ∧
      ∀ id, id ∈ result.allSuperInterfaces ↔ ReachedFrom g.localInterfaces own.ids id := by
  have hclosed : ∀ x ∈ Finset.range g.classes.length, ∀ y ∈ g.localInterfaces x,
      y ∈ Finset.range g.classes.length := by
    intro x hx y hy
    exact Finset.mem_range.mpr (g.localInterfaces_lt (Finset.mem_range.mp hx) y hy)
  have hdepth : (Finset.range g.classes.length \ ∅).card < g.classes.length + 1 := by
    rw [Finset.sdiff_empty, Finset.card_range]
    omega
  obtain ⟨⟨listed, seen⟩, hexplore⟩ := Option.isSome_iff_exists.mp
    (explore_isSome hclosed (fun x hx => Finset.mem_range.mpr (own.ids_lt x hx)) hdepth)
  have hany : ∀ extra, explore g.localInterfaces (g.classes.length + 1 + extra) own.ids ∅ =
      some (listed, seen) := by
    intro extra
    induction extra with
    | zero => exact hexplore
    | succ extra ih => exact explore_mono ih
  have hmarks : Marks g (.empty (g.classes.length / 32 + 1)) ∅ :=
    ⟨Bitmap.represents_empty _, List.length_replicate⟩
  refine ⟨⟨listed.length, listed, listed.length⟩, fun extra => ?_, rfl, rfl,
    mem_explore_iff hexplore⟩
  obtain ⟨bitmap₁, hcount, -⟩ := countInterfaces_eq own.ids_lt hmarks (hany extra)
  obtain ⟨bitmap₂, hfound, -⟩ := @foundAllInterfaces_eq g _ _ _ _ own.ids listed
    (List.replicate listed.length 0) 0 own.ids_lt hmarks (hany extra) (by simp)
  have hall : writeOver (List.replicate listed.length 0) 0 listed = listed := by
    simp [writeOver]
  rw [hall, Nat.zero_add] at hfound
  unfold findSuperInterfaces
  simp only [hcount, hfound, bind, Except.bind, pure, Except.pure]

end CldcVm.Parsing
