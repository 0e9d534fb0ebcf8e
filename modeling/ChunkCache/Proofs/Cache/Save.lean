import ChunkCache.Cache.Save
import ChunkCache.Proofs.Cache.Access

namespace ChunkCache.Cache

open Function

variable {sizing : Sizing} {c : Cache sizing} {v : View sizing.capacity}
variable {i : Fin sizing.capacity} {l : List (Fin sizing.capacity)}

theorem drain_eq (h : c.pending.Holds l) : ∃ pending, pending.Holds [] ∧
    c.drain l.length = (l.reverse, { c with pending }) := by
  induction hn : l.length generalizing c l with
  | zero =>
      obtain rfl := List.eq_nil_of_length_eq_zero hn
      exact ⟨c.pending, h, rfl⟩
  | succ n ih =>
      cases hpop : c.pending.popBack with
      | none =>
          rw [h.popBack_eq_none.1 hpop] at hn
          cases hn
      | some popped =>
          obtain ⟨i, pending⟩ := popped
          obtain ⟨xs, rfl, hpending⟩ := h.popBack hpop
          have hxs : xs.length = n := by simpa using hn
          obtain ⟨pending', hempty, hdrain⟩ := ih (c := { c with pending }) hpending hxs
          refine ⟨pending', hempty, ?_⟩
          rw [drain, hpop]
          simp only [hdrain, List.reverse_append, List.reverse_singleton, List.singleton_append]

namespace Shows

theorem record (h : c.Shows v) (i : Fin sizing.capacity) :
    (c.record i).1 = v.record i ∧ (c.record i).2.Shows (v.clean i) := by
  unfold Cache.record
  rw [h.tenant]
  cases hi : v.tenant i with
  | none =>
      have hpayload : v.payload i = none := by
        have hcell := h.cell_isSome i
        rw [hi, Option.isSome_none, Option.isSome_eq_false_iff, Option.isNone_iff_eq_none] at hcell
        rw [← h.payload i, hcell]
        rfl
      refine ⟨by simp [View.record, hi], ?_⟩
      have hclean : v.clean i = v := by
        rw [View.clean, hpayload, Option.map_none, ← hpayload, update_eq_self]
      rw [hclean]
      exact h
  | some a =>
      have hcurrent : v.Current ⟨i.val, a⟩ i := ⟨rfl, hi⟩
      have haccess := h.access ⟨i.val, a⟩ fun p => .ok p.save
      simp only
      generalize c.access ⟨i.val, a⟩ (fun p => .ok p.save) = outcome at haccess ⊢
      cases haccess with
      | stale e ht => exact absurd hcurrent (ht i)
      | refused i' p e hi' hp hact => cases hact
      | done i' p p' answer c' v' hi' hp hact hrun hshows =>
          obtain rfl : i' = i := Fin.ext hi'.1
          cases hact
          have hquiet := h.quiet hp
          have hnotices : ¬0 < (p.mapTracker Tracker.clear).tracker.notices := by
            simp [Tracker.clear, hquiet]
          rw [rewriting, if_neg hnotices] at hrun
          obtain ⟨-, rfl⟩ := hrun
          refine ⟨by simp [View.record, hi, hp], ?_⟩
          have hclean : v.clean i' = v.write i' p.saved := by
            rw [View.clean, hp, Option.map_some]
            rfl
          rw [hclean]
          exact hshows

theorem recordAll (h : c.Shows v) (l : List (Fin sizing.capacity)) :
    (c.recordAll l).1 = l.filterMap v.record ∧
      (c.recordAll l).2.Shows (l.foldl View.clean v) := by
  induction l generalizing c v with
  | nil => exact ⟨rfl, h⟩
  | cons i l ih =>
      obtain ⟨hfirst, hshows⟩ := h.record i
      obtain ⟨hrest, hshows'⟩ := ih hshows
      refine ⟨?_, hshows'⟩
      rw [Cache.recordAll]
      simp only [hfirst, hrest, List.filterMap_cons]
      have hrecord : (v.clean i).record = v.record := funext fun j => View.record_clean
      rw [hrecord]
      cases v.record i <;> rfl

theorem releaseAll (h : c.Shows v) (l : List (Fin sizing.capacity)) :
    (c.releaseAll l).Shows (l.foldl View.release v) := by
  induction l generalizing c v with
  | nil => exact h
  | cons i l ih => exact ih h.release

/-- A save writes the records of the queued slots in one batch, and none if there are none. -/
theorem save_eq (h : c.Shows v) (s : RecordStore) : ∃ c', c'.Shows v.save ∧ c.save s =
    if v.records.isEmpty then (⟨0, none, true⟩, c', s)
    else
      (⟨v.records.length, some (RecordStore.batchOf v.records),
        (s.write (RecordStore.batchOf v.records)).1⟩, c',
        (s.write (RecordStore.batchOf v.records)).2) := by
  obtain ⟨pending, hpending, hdrain⟩ := drain_eq h.pending
  have hdrained : ({ c with pending } : Cache sizing).Shows { v with pending := [] } :=
    h.congr (.setQueues _ _) rfl rfl rfl rfl h.mark h.idle hpending
      ⟨h.tidy.distinct, h.tidy.nonneg, h.tidy.mem_idle, h.tidy.idle, List.nodup_nil⟩
  obtain ⟨hrecords, hrecorded⟩ := hdrained.recordAll v.pending.reverse
  have hreleased := hrecorded.releaseAll v.pending.reverse
  have hrecords' : ({ c with pending } : Cache sizing).recordAll v.pending.reverse =
      (v.records, (({ c with pending } : Cache sizing).recordAll v.pending.reverse).2) :=
    Prod.ext hrecords rfl
  refine ⟨_, hreleased, ?_⟩
  unfold Cache.save
  rw [h.pending.size_eq, hdrain]
  simp only
  rw [hrecords']

theorem save (h : c.Shows v) (s : RecordStore) : (c.save s).2.1.Shows v.save ∧
    (c.save s).2.2 =
      if v.records.isEmpty then s else (s.write (RecordStore.batchOf v.records)).2 := by
  obtain ⟨c', hshows, hsave⟩ := h.save_eq s
  rw [hsave]
  split
  · exact ⟨hshows, rfl⟩
  · exact ⟨hshows, rfl⟩

theorem pendingCount_eq (h : c.Shows v) : c.pendingCount = v.pending.length := h.pending.size_eq

/-- Nothing is queued after a save. -/
theorem pendingCount_save (h : c.Shows v) (s : RecordStore) : (c.save s).2.1.pendingCount = 0 := by
  rw [(h.save s).1.pendingCount_eq, View.pending_save]
  rfl

end Shows

end ChunkCache.Cache
