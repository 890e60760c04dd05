import CldcVm.CodeCache.Cache
import CldcVm.Lib.Compaction

/-!
# Removing entries from the cache

The loop that `evict_zero_weight` and `cleanup_unmarked` share is a compaction of the array of
the entries: the entries that are kept lie one after the other in their order, each knows its
new index, and exactly the methods of the other ones are freed.

Main results:
* `removeEntries_entries`, `removeEntries_freed`: what is left and what is freed.
* `removeEntries_patchedMethod`: the patched method is looked at only if an entry is removed.
-/

namespace CldcVm.CodeCache

open Lib

/-- One entry of the cache. -/
structure Entry where
  weight : Byte
  sensor : Byte
  method : ℕ
deriving DecidableEq

namespace Cache

def entry (c : Cache) (i : ℕ) : Entry := ⟨c.weights i, c.sensor i, c.map i⟩

/-- The entries from index 0 to `upb`. -/
def entries (c : Cache) : List Entry := (List.range c.count).map c.entry

/-- The compiled methods of the map. -/
def methods (c : Cache) : List ℕ := (List.range c.count).map c.map

/-- Every compiled method of the map knows its index. -/
def Indexed (c : Cache) : Prop := ∀ i < c.count, c.cacheIndex (c.map i) = i

end Cache

variable {area : Area} {c : Cache} {es : List Entry} {left src next : ℕ}

@[simp] theorem length_entries : c.entries.length = c.count := by simp [Cache.entries]

theorem methods_eq : c.methods = c.entries.map Entry.method := by
  rw [Cache.methods, Cache.entries, List.map_map]
  rfl

theorem holds_entries : Holds c.entry 0 c.entries := by
  intro i e he
  simp only [Cache.entries, List.getElem?_map] at he
  obtain ⟨k, hk, rfl⟩ := Option.map_eq_some_iff.mp he
  obtain ⟨hlt, hval⟩ := List.getElem?_eq_some_iff.mp hk
  rw [List.getElem_range] at hval
  rw [Nat.zero_add, hval]

theorem entries_of_holds {c : Cache} (h : Holds c.entry 0 es) (hcount : c.count = es.length) :
    c.entries = es := by
  rw [Cache.entries, hcount]
  simpa only [Nat.zero_add] using h.map_range

/-! ## The loop -/

theorem entry_moveEntry : (moveEntry src next c).entry = Function.update c.entry next (c.entry src) := by
  funext i
  by_cases hi : i = next
  · simp [Cache.entry, moveEntry, hi]
  · simp [Cache.entry, moveEntry, hi]

variable {keep : Cache → ℕ → Bool} {K : Entry → Bool} {patch : Cache → Option ℕ}

theorem compactEntries_eq (hkeep : ∀ c i, keep c i = K (c.entry i)) :
    (compactEntries area keep left src next c).1 = (compact K left src next c.entry).1 ∧
      (compactEntries area keep left src next c).2.entry = (compact K left src next c.entry).2 := by
  induction left generalizing src next c with
  | zero => exact ⟨rfl, rfl⟩
  | succ left ih =>
    rw [compactEntries, compact, hkeep]
    by_cases hK : K (c.entry src) = true
    · rw [if_pos hK, if_pos hK, ← entry_moveEntry]
      exact ih
    · rw [if_neg hK, if_neg hK]
      exact ih (c := dropEntry area src c)

theorem skipKept_eq (hkeep : ∀ c i, keep c i = K (c.entry i)) :
    skipKept keep c left src = skip K c.entry left src := by
  induction left generalizing src with
  | zero => rfl
  | succ left ih => rw [skipKept, skip, hkeep, ih]

theorem compactEntries_freed (hkeep : ∀ c i, keep c i = K (c.entry i)) (h : Holds c.entry src es)
    (hle : next ≤ src) : (compactEntries area keep es.length src next c).2.freed =
        c.freed ++ (es.filter (!K ·)).map Entry.method ∧
      (compactEntries area keep es.length src next c).2.size =
        c.size - ((es.filter (!K ·)).map fun e => (area.objectSize e.method : ℤ)).sum := by
  induction es generalizing src next c with
  | nil => simp [compactEntries]
  | cons e es ih =>
    obtain ⟨he, htail⟩ := holds_cons.mp h
    have hmethod : c.map src = e.method := congrArg Entry.method he
    rw [List.length_cons, compactEntries, hkeep, he]
    by_cases hK : K e = true
    · rw [if_pos hK, List.filter_cons_of_neg (by simp [hK])]
      have htail' : Holds (moveEntry src next c).entry (src + 1) es := by
        rw [entry_moveEntry]
        exact htail.update_below (by omega)
      exact ih htail' (by omega : next + 1 ≤ src + 1)
    · rw [if_neg hK, List.filter_cons_of_pos (by simp [hK])]
      obtain ⟨hfreed, hsize⟩ :=
        ih (c := dropEntry area src c) htail (by omega : next ≤ src + 1)
      rw [hfreed, hsize]
      constructor
      · simp [dropEntry, hmethod]
      · simp only [dropEntry, hmethod, List.map_cons, List.sum_cons]
        omega

theorem compactEntries_frame : (compactEntries area keep left src next c).2.upb = c.upb ∧
      (compactEntries area keep left src next c).2.lastOld = c.lastOld ∧
      (compactEntries area keep left src next c).2.patchedMethod = c.patchedMethod := by
  induction left generalizing src next c with
  | zero => exact ⟨rfl, rfl, rfl⟩
  | succ left ih =>
    rw [compactEntries]
    split
    · exact ih (c := moveEntry src next c)
    · exact ih (c := dropEntry area src c)

/-! ## The removal -/

/-- A removal either finds nothing to remove, or it runs the loop from the first entry that is
not kept. -/
theorem removeEntries_cases (hkeep : ∀ c i, keep c i = K (c.entry i)) :
    ((∀ e ∈ c.entries, K e = true) ∧ removeEntries area keep patch c = c) ∨
      ∃ src ≤ c.count, (∀ e ∈ c.entries.take src, K e = true) ∧ (∃ e ∈ c.entries, K e = false) ∧
        removeEntries area keep patch c =
          let r := compactEntries area keep (c.entries.drop src).length src src
            { c with patchedMethod := patch c }
          computeLastOld (computeThreshold c) { r.2 with upb := (r.1 : ℤ) - 1 } := by
  have hnone := @skip_none_iff _ K _ _ _ (holds_entries (c := c))
  rw [length_entries, ← skipKept_eq hkeep] at hnone
  rw [removeEntries]
  match hskip : skipKept keep c c.count 0 with
  | none => exact .inl ⟨hnone.mp hskip, rfl⟩
  | some src =>
    right
    have hfound := hskip
    rw [skipKept_eq hkeep, ← length_entries] at hfound
    obtain ⟨-, hlt, hbefore, hnot⟩ := skip_some holds_entries hfound
    rw [length_entries, Nat.zero_add] at hlt
    refine ⟨src, hlt.le, hbefore, ⟨c.entry src, ?_, hnot⟩, ?_⟩
    · exact List.mem_map_of_mem (List.mem_range.mpr hlt)
    · rw [List.length_drop, length_entries]

/-- The part of the entries from `src` on, for the loop. -/
theorem holds_drop {src : ℕ} (hsrc : src ≤ c.count) : Holds c.entry src (c.entries.drop src) := by
  have hall := holds_entries (c := c)
  rw [← List.take_append_drop src c.entries, holds_append, List.length_take, length_entries,
    min_eq_left hsrc, Nat.zero_add] at hall
  exact hall.2

theorem filter_of_prefix {src : ℕ} (h : ∀ e ∈ es.take src, K e = true) :
    es.filter K = es.take src ++ (es.drop src).filter K := by
  conv_lhs => rw [← List.take_append_drop src es]
  rw [List.filter_append, List.filter_eq_self.mpr h]

theorem filter_not_of_prefix {src : ℕ} (h : ∀ e ∈ es.take src, K e = true) :
    es.filter (!K ·) = (es.drop src).filter (!K ·) := by
  conv_lhs => rw [← List.take_append_drop src es]
  have hnil : (es.take src).filter (!K ·) = [] := by
    apply List.filter_eq_nil_iff.mpr
    intro e he
    simp [h e he]
  rw [List.filter_append, hnil, List.nil_append]

/-- **Spec lemma.** The entries that are left are those that are kept, in their order. -/
theorem removeEntries_entries (hkeep : ∀ c i, keep c i = K (c.entry i)) :
    (removeEntries area keep patch c).entries = c.entries.filter K := by
  obtain ⟨hall, heq⟩ | ⟨src, hsrc, hbefore, -, heq⟩ :=
    @removeEntries_cases area c keep K patch hkeep
  · rw [heq, List.filter_eq_self.mpr hall]
  · set c₁ : Cache := { c with patchedMethod := patch c } with hc₁
    obtain ⟨hnext, hentry⟩ :=
      @compactEntries_eq area c₁ (c.entries.drop src).length src src keep K hkeep
    obtain ⟨hlen, hholds, hlow⟩ := @compact_spec _ K _ _ _ _ (holds_drop hsrc) (le_refl src)
    rw [heq]
    apply entries_of_holds
    · show Holds (compactEntries area keep (c.entries.drop src).length src src c₁).2.entry 0 _
      rw [hentry, filter_of_prefix hbefore, holds_append, List.length_take, length_entries,
        min_eq_left hsrc, Nat.zero_add]
      refine ⟨?_, hholds⟩
      have hprefix : Holds c.entry 0 (c.entries.take src) :=
        (holds_append.mp (by rw [List.take_append_drop]; exact holds_entries)).1
      refine hprefix.congr fun i hi => ?_
      rw [List.length_take, length_entries, min_eq_left hsrc] at hi
      exact hlow (0 + i) (by omega)
    · show ((((compactEntries area keep (c.entries.drop src).length src src c₁).1 : ℤ) - 1) +
        1).toNat = _
      rw [hnext, show c₁.entry = c.entry from rfl, hlen, filter_of_prefix hbefore,
        List.length_append, List.length_take, length_entries, min_eq_left hsrc]
      omega

/-- **Spec lemma.** Exactly the methods of the other entries are freed. -/
theorem removeEntries_freed (hkeep : ∀ c i, keep c i = K (c.entry i)) :
    (removeEntries area keep patch c).freed =
      c.freed ++ (c.entries.filter (!K ·)).map Entry.method := by
  obtain ⟨hall, heq⟩ | ⟨src, hsrc, hbefore, -, heq⟩ :=
    @removeEntries_cases area c keep K patch hkeep
  · rw [heq, List.filter_eq_nil_iff.mpr (fun e he => by simp [hall e he])]
    simp
  · rw [heq, filter_not_of_prefix hbefore]
    exact (compactEntries_freed (c := { c with patchedMethod := patch c }) hkeep (holds_drop hsrc)
      (le_refl src)).1

theorem removeEntries_patchedMethod (hkeep : ∀ c i, keep c i = K (c.entry i)) :
    ((∀ e ∈ c.entries, K e = true) ∧
        (removeEntries area keep patch c).patchedMethod = c.patchedMethod) ∨
      ((∃ e ∈ c.entries, K e = false) ∧
        (removeEntries area keep patch c).patchedMethod = patch c) := by
  obtain ⟨hall, heq⟩ | ⟨src, -, -, hsome, heq⟩ :=
    @removeEntries_cases area c keep K patch hkeep
  · exact .inl ⟨hall, by rw [heq]⟩
  · refine .inr ⟨hsome, ?_⟩
    rw [heq]
    exact compactEntries_frame.2.2

end CldcVm.CodeCache
