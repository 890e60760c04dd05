import CldcVm.CodeCache.Removal

/-!
# Removing the compiled methods of dead Java methods

`cleanup_unmarked` removes the compiled methods whose Java method is not marked. Before it
does, it looks at the recorded patched method, as `evict_zero_weight` does, but with the test
the other way around: it forgets a patched method that stays, and keeps one that goes.

Main results:
* `cleanupUnmarked_consistent_iff`: the recorded patched method is consistent afterwards just
  if it was null or marked.
-/

namespace CldcVm.CodeCache

open Lib

/-- The recorded patched method is null or in the map. -/
def Cache.PatchedInMap (c : Cache) : Prop := ∀ p ∈ c.patchedMethod, p ∈ c.methods

instance (c : Cache) : Decidable c.PatchedInMap :=
  inferInstanceAs (Decidable (∀ p ∈ c.patchedMethod, p ∈ c.methods))

variable (area : Area) (marked : ℕ → Bool) (c : Cache)

/-- What `cleanup_unmarked` is for: the unmarked methods are removed and no others, and the
recorded patched method is null or still in the map. -/
def Cleaned (c c' : Cache) : Prop :=
  c'.PatchedInMap ∧ c'.methods = c.methods.filter marked ∧
    c'.freed = c.freed ++ c.methods.filter (!marked ·)

instance (c c' : Cache) : Decidable (Cleaned marked c c') :=
  inferInstanceAs (Decidable (_ ∧ _ ∧ _))

/-- The test of `cleanup_unmarked` on an entry. -/
def Entry.isMarked (e : Entry) : Bool := marked e.method

theorem keepMarked (c : Cache) (i : ℕ) : marked (c.map i) = (c.entry i).isMarked marked := rfl

theorem map_filter_method (p : Entry → Bool) (q : ℕ → Bool) (h : ∀ e, p e = q e.method)
    (es : List Entry) : (es.filter p).map Entry.method = (es.map Entry.method).filter q := by
  rw [List.filter_map, show q ∘ Entry.method = p from (funext h).symm]

theorem cleanupUnmarked_methods :
    (cleanupUnmarked area marked c).methods = c.methods.filter marked := by
  rw [methods_eq, methods_eq, cleanupUnmarked,
    removeEntries_entries (K := Entry.isMarked marked) (keepMarked marked)]
  exact map_filter_method _ _ (fun _ => rfl) _

theorem cleanupUnmarked_freed :
    (cleanupUnmarked area marked c).freed = c.freed ++ c.methods.filter (!marked ·) := by
  rw [methods_eq, cleanupUnmarked,
    removeEntries_freed (K := Entry.isMarked marked) (keepMarked marked)]
  rw [map_filter_method (fun e => !e.isMarked marked) (!marked ·) (fun _ => rfl)]

theorem cleanupUnmarked_patchedMethod : ((∀ p ∈ c.methods, marked p = true) ∧
        (cleanupUnmarked area marked c).patchedMethod = c.patchedMethod) ∨
      ((∃ p ∈ c.methods, marked p = false) ∧
        (cleanupUnmarked area marked c).patchedMethod = patchUnmarked marked c) := by
  have hcases := @removeEntries_patchedMethod area c _ (Entry.isMarked marked)
    (patchUnmarked marked) (keepMarked marked)
  simpa [methods_eq, cleanupUnmarked, Entry.isMarked] using hcases

/-- **Main theorem.** `cleanup_unmarked` does what it is for just if the recorded patched
method was null or is marked. -/
theorem cleanupUnmarked_consistent_iff (hpatched : c.PatchedInMap) :
    Cleaned marked c (cleanupUnmarked area marked c) ↔
      ∀ p ∈ c.patchedMethod, marked p = true := by
  have hmethods := cleanupUnmarked_methods area marked c
  obtain ⟨hall, hkeep⟩ | ⟨hsome, hpatch⟩ := cleanupUnmarked_patchedMethod area marked c
  · -- Nothing is removed: the patched method is in the map, and all of the map is marked.
    constructor
    · exact fun _ p hp => hall p (hpatched p hp)
    · intro hmarked
      refine ⟨?_, hmethods, cleanupUnmarked_freed area marked c⟩
      intro p hp
      rw [hkeep] at hp
      rw [hmethods]
      exact List.mem_filter.mpr ⟨hpatched p hp, hmarked p hp⟩
  · constructor
    · -- An unmarked patched method is still recorded after it has been removed.
      rintro ⟨hafter, -, -⟩ p hp
      by_contra hunmarked
      have hstays : p ∈ (cleanupUnmarked area marked c).patchedMethod := by
        rw [hpatch, patchUnmarked, Option.mem_def.mp hp]
        simp [hunmarked]
      have hmem := hafter p hstays
      rw [hmethods] at hmem
      exact hunmarked (List.mem_filter.mp hmem).2
    · intro hmarked
      refine ⟨?_, hmethods, cleanupUnmarked_freed area marked c⟩
      intro p hp
      rw [hpatch, patchUnmarked] at hp
      match hold : c.patchedMethod with
      | none =>
        rw [hold] at hp
        simp at hp
      | some q =>
        rw [hold] at hp
        simp [hmarked q (by simp [hold])] at hp

/-- A cache of one method, at the address 4096, that is recorded as the patched method. -/
def patchedCache : Cache :=
  { Cache.insert ⟨4096, 8192, fun _ => 64⟩ 4096 (init fun _ => 0) with patchedMethod := some 4096 }

/-- The consistency where the patched method is marked. -/
theorem cleanupUnmarked_consistent_patchedCache :
    Cleaned (· == 4096) patchedCache
      (cleanupUnmarked ⟨4096, 8192, fun _ => 64⟩ (· == 4096) patchedCache) ↔
        ∀ p ∈ patchedCache.patchedMethod, (p == 4096) = true :=
  cleanupUnmarked_consistent_iff _ _ patchedCache (by decide)

/-- The patched method is unmarked, it is removed and still recorded. -/
theorem not_cleaned_patchedCache :
    patchedCache.PatchedInMap ∧
      (cleanupUnmarked ⟨4096, 8192, fun _ => 64⟩ (fun _ => false) patchedCache).methods = [] ∧
      (cleanupUnmarked ⟨4096, 8192, fun _ => 64⟩ (fun _ => false) patchedCache).patchedMethod =
        some 4096 ∧
      ¬Cleaned (fun _ => false) patchedCache
        (cleanupUnmarked ⟨4096, 8192, fun _ => 64⟩ (fun _ => false) patchedCache) := by
  decide

/-! ## The same test in the eviction -/

/-- The test of `evict_zero_weight` on an entry. -/
def Entry.isWeighted (e : Entry) : Bool := e.weight != 0

theorem keepWeighted (c : Cache) (i : ℕ) : (c.weights i != 0) = (c.entry i).isWeighted := rfl

end CldcVm.CodeCache
