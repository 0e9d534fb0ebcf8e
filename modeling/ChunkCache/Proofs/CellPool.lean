import Mathlib.Logic.Function.Basic
import ChunkCache.CellPool
import ChunkCache.Proofs.Chain

namespace ChunkCache.CellPool

variable {n : Nat} {pool : CellPool n} {cell : Fin n → Option (Fin n)} {i k j : Fin n}
variable {p : Payload}

/-- The occupied cells are those of the owners, each with a single owner, and the list of vacant
cells holds all others once. No payload waits for its listener to be told anything. -/
structure Houses (pool : CellPool n) (cell : Fin n → Option (Fin n)) : Prop where
  injective : ∀ {i j k}, cell i = some k → cell j = some k → i = j
  filled_iff : ∀ k, (pool.get? k).isSome = true ↔ ∃ i, cell i = some k
  vacant_iff : ∀ k, k ∈ pool.vacant ↔ pool.get? k = none
  nodup : pool.vacant.Nodup
  quiet : ∀ {k p}, pool.get? k = some p → p.tracker.notices = 0

theorem get?_set {q : Option Payload} :
    (pool.set k q).get? j = if k = j then q else pool.get? j := by
  change (pool.cells.set k q k.isLt)[j] = if k = j then q else pool.cells[j]
  simp only [Fin.getElem_fin, Vector.getElem_set, Fin.ext_iff]

theorem lookup_of_get? (h : pool.get? k = some p) : pool.lookup k.val = .ok (k, p) := by
  simp [lookup, h]

theorem get?_empty : (empty n).get? k = none := by
  change (Vector.replicate n (none : Option Payload))[k] = none
  simp

theorem houses_empty : (empty n).Houses fun _ => none where
  injective h := by cases h
  filled_iff k := by simp [get?_empty]
  vacant_iff k := ⟨fun _ => get?_empty, fun _ => List.mem_finRange k⟩
  nodup := List.nodup_finRange n
  quiet h := by simp [get?_empty] at h

/-- An owner that moves changes nothing for a cell that it neither leaves nor takes. -/
theorem owned_update {new : Option (Fin n)} (hold : cell i ≠ some k) (hnew : new ≠ some k) :
    (∃ j, Function.update cell i new j = some k) ↔ ∃ j, cell j = some k := by
  constructor
  · rintro ⟨j, hj⟩
    rcases eq_or_ne j i with rfl | hij
    · rw [Function.update_self] at hj
      exact absurd hj hnew
    · rw [Function.update_of_ne hij] at hj
      exact ⟨j, hj⟩
  · rintro ⟨j, hj⟩
    have hij : j ≠ i := by
      rintro rfl
      exact hold hj
    exact ⟨j, (Function.update_of_ne hij ..).trans hj⟩

namespace Houses

theorem get?_of_cell (h : pool.Houses cell) (hi : cell i = some k) :
    ∃ p, pool.get? k = some p :=
  Option.isSome_iff_exists.1 ((h.filled_iff k).2 ⟨i, hi⟩)

/-- The payload of an owner can be replaced. -/
theorem exchange (h : pool.Houses cell) (hi : cell i = some k) (hp : p.tracker.notices = 0) :
    (∃ old, pool.exchange k.val p = .ok (old, pool.set k (some p))) ∧
      (pool.set k (some p)).Houses cell := by
  obtain ⟨old, hold⟩ := h.get?_of_cell hi
  refine ⟨⟨old, ?_⟩, ?_⟩
  · rw [CellPool.exchange, lookup_of_get? hold]
    rfl
  · constructor
    · exact h.injective
    · intro j
      rw [get?_set, ← h.filled_iff j]
      split
      · rename_i hkj
        simp [← hkj, hold]
      · rfl
    · intro j
      rw [get?_set]
      split
      · rename_i hkj
        subst hkj
        change k ∈ pool.vacant ↔ some p = none
        rw [h.vacant_iff k, hold]
        simp
      · exact h.vacant_iff j
    · exact h.nodup
    · intro j q hq
      rw [get?_set] at hq
      split at hq
      · cases hq
        exact hp
      · exact h.quiet hq

/-- While an owner has no cell, the owners cannot occupy all of them. -/
theorem exists_vacant (h : pool.Houses cell) (hi : cell i = none) :
    ∃ k vacant, pool.vacant = k :: vacant := by
  cases hvacant : pool.vacant with
  | cons k vacant => exact ⟨k, vacant, rfl⟩
  | nil =>
      have hfilled : ∀ k, ∃ j, cell j = some k := by
        intro k
        rw [← h.filled_iff k, Option.isSome_iff_ne_none, Ne, ← h.vacant_iff k, hvacant]
        exact List.not_mem_nil
      choose owner howner using hfilled
      have hinjective : ∀ k k', owner k = owner k' → k = k' := by
        intro k k' hkk
        have hk := howner k
        rw [hkk, howner k'] at hk
        exact (Option.some.inj hk).symm
      have hout : i ∉ (List.finRange n).map owner := by
        intro hmem
        obtain ⟨k, -, rfl⟩ := List.mem_map.1 hmem
        rw [howner k] at hi
        cases hi
      have hnodup : (i :: (List.finRange n).map owner).Nodup :=
        List.nodup_cons.2 ⟨hout, (List.nodup_finRange n).map hinjective⟩
      have hlength := length_le_of_nodup hnodup
      rw [List.length_cons, List.length_map, List.length_finRange] at hlength
      omega

/-- As many cells are occupied as there are owners with a cell. -/
theorem occupied_eq (h : pool.Houses cell) :
    pool.occupied = (List.finRange n).countP fun i => (cell i).isSome := by
  have hcells : ((List.finRange n).filterMap cell ++ pool.vacant).Nodup := by
    refine List.nodup_append'.2 ⟨?_, h.nodup, fun k hk hvacant => ?_⟩
    · exact (List.nodup_finRange n).filterMap fun i j k hi hj => h.injective hi hj
    · obtain ⟨i, -, hi⟩ := List.mem_filterMap.1 hk
      obtain ⟨p, hp⟩ := h.get?_of_cell hi
      rw [(h.vacant_iff k).1 hvacant] at hp
      cases hp
  have hall : ∀ k, k ∈ (List.finRange n).filterMap cell ++ pool.vacant ↔ true = true := by
    refine fun k => iff_of_true (List.mem_append.2 ?_) rfl
    cases hk : pool.get? k with
    | none => exact .inr ((h.vacant_iff k).2 hk)
    | some p =>
        obtain ⟨i, hi⟩ := (h.filled_iff k).1 (Option.isSome_iff_exists.2 ⟨p, hk⟩)
        exact .inl (List.mem_filterMap.2 ⟨i, List.mem_finRange i, hi⟩)
  have hlength := length_eq_countP hcells hall
  rw [List.length_append, List.length_filterMap_eq_countP, List.countP_true,
    List.length_finRange] at hlength
  rw [occupied]
  omega

/-- An owner without a cell can move into a vacant one. -/
theorem place (h : pool.Houses cell) (hi : cell i = none) (hp : p.tracker.notices = 0) :
    ∃ k pool', pool.place p = .ok (k, pool') ∧ pool'.get? k = some p ∧
      (∀ j, j ≠ k → pool'.get? j = pool.get? j) ∧ pool.get? k = none ∧
      pool'.Houses (Function.update cell i (some k)) := by
  obtain ⟨k, vacant, hvacant⟩ := h.exists_vacant hi
  have hnone : pool.get? k = none := (h.vacant_iff k).1 (by simp [hvacant])
  have hfree : ∀ j, cell j ≠ some k := by
    intro j hj
    obtain ⟨q, hq⟩ := h.get?_of_cell hj
    rw [hnone] at hq
    cases hq
  have hnodup := h.nodup
  rw [hvacant, List.nodup_cons] at hnodup
  have hget : ∀ j, ({ pool.set k (some p) with vacant } : CellPool n).get? j =
      if k = j then some p else pool.get? j := fun j => get?_set
  refine ⟨k, { pool.set k (some p) with vacant }, ?_, ?_, ?_, hnone, ?_⟩
  · simp [CellPool.place, hvacant]
  · rw [hget, if_pos rfl]
  · intro j hj
    rw [hget, if_neg (Ne.symm hj)]
  · constructor
    · intro j j' k' hj hj'
      rw [Function.update_apply] at hj hj'
      split at hj <;> split at hj'
      · simp_all
      · cases hj
        exact absurd hj' (hfree j')
      · cases hj'
        exact absurd hj (hfree j)
      · exact h.injective hj hj'
    · intro j
      rw [hget]
      split
      · rename_i hkj
        subst hkj
        simpa using ⟨i, by simp⟩
      · rename_i hkj
        rw [h.filled_iff j, owned_update]
        · simp [hi]
        · simpa using hkj
    · intro j
      rw [hget]
      split
      · rename_i hkj
        subst hkj
        simpa using hnodup.1
      · rename_i hkj
        rw [← h.vacant_iff j, hvacant]
        simp [Ne.symm hkj]
    · exact hnodup.2
    · intro j q hq
      rw [hget] at hq
      split at hq
      · cases hq
        exact hp
      · exact h.quiet hq

/-- An owner can move out of its cell. -/
theorem vacate (h : pool.Houses cell) (hi : cell i = some k) :
    ∃ old pool', pool.vacate k.val = .ok (old, pool') ∧
      (∀ j, j ≠ k → pool'.get? j = pool.get? j) ∧
      pool'.Houses (Function.update cell i none) := by
  obtain ⟨old, hold⟩ := h.get?_of_cell hi
  have hget : ∀ j, ({ pool.set k none with vacant := k :: pool.vacant } : CellPool n).get? j =
      if k = j then none else pool.get? j := fun j => get?_set
  refine ⟨old, { pool.set k none with vacant := k :: pool.vacant }, ?_, ?_, ?_⟩
  · rw [CellPool.vacate, lookup_of_get? hold]
    rfl
  · intro j hj
    rw [hget, if_neg (Ne.symm hj)]
  · constructor
    · intro j j' k' hj hj'
      rw [Function.update_apply] at hj hj'
      split at hj <;> split at hj'
      · cases hj
      · cases hj
      · cases hj'
      · exact h.injective hj hj'
    · intro j
      rw [hget]
      split
      · rename_i hkj
        subst hkj
        simp only [Option.isSome_none, Bool.false_eq_true, false_iff, not_exists]
        intro i' hi'
        rw [Function.update_apply] at hi'
        split at hi'
        · cases hi'
        · exact absurd (h.injective hi' hi) ‹_›
      · rename_i hkj
        rw [h.filled_iff j, owned_update]
        · simpa [hi] using hkj
        · simp
    · intro j
      rw [hget]
      split
      · simp_all
      · rename_i hkj
        rw [← h.vacant_iff j]
        simp [Ne.symm hkj]
    · refine List.nodup_cons.2 ⟨?_, h.nodup⟩
      rw [h.vacant_iff k, hold]
      simp
    · intro j q hq
      rw [hget] at hq
      split at hq
      · cases hq
      · exact h.quiet hq

end Houses

end ChunkCache.CellPool
