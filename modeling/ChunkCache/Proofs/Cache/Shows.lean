import ChunkCache.Proofs.Cache.Index
import ChunkCache.Proofs.CellPool
import ChunkCache.Proofs.View

/-!
The relation between a cache and its contents. It holds of every cache that can come about: the
index is exact, the payloads are housed, the queues are lists, and the contents are tidy. The
elementary operations of a cache have the effects of the same names.
-/

namespace ChunkCache.Cache

open Function

variable {sizing : Sizing} {c c' : Cache sizing} {v v' : View sizing.capacity}
variable {i j k : Fin sizing.capacity} {a : Address} {p : Payload}

/-- The contents of a well-formed cache. -/
structure Shows (c : Cache sizing) (v : View sizing.capacity) : Prop where
  indexed : Indexed c
  housed : c.pool.Houses c.cell?
  tenant : c.tenant? = v.tenant
  mark : c.mark = v.mark
  cell_isSome : ∀ i, (c.cell? i).isSome = (v.tenant i).isSome
  payload : ∀ i, (c.cell? i).bind c.pool.get? = v.payload i
  idle : c.idle.Holds v.idle
  pending : c.pending.Holds v.pending
  hash : c.hash = v.hash
  tidy : v.Tidy

namespace Shows

theorem emptyWith (hash : Address → UInt64) :
    (emptyWith sizing hash).Shows (View.empty sizing.capacity hash) where
  indexed := .emptyWith hash
  housed := by
    have hcell : (Cache.emptyWith sizing hash).cell? = fun _ => none := by
      funext i
      simp [cell?, slots_emptyWith]
    rw [hcell]
    exact CellPool.houses_empty
  tenant := by
    funext i
    simp [tenant?, slots_emptyWith, View.empty]
  mark := by
    funext i
    simp [Cache.mark, slots_emptyWith, View.empty]
  cell_isSome i := by simp [cell?, slots_emptyWith, View.empty]
  payload i := by simp [cell?, slots_emptyWith, View.empty]
  idle := SlotQueue.holds_full
  pending := SlotQueue.holds_empty
  hash := rfl
  tidy := .empty

/-- A cache has only one view. -/
theorem unique (h : c.Shows v) (h' : c.Shows v') : v = v' := by
  have htenant : v.tenant = v'.tenant := h.tenant.symm.trans h'.tenant
  have hmark : v.mark = v'.mark := h.mark.symm.trans h'.mark
  have hpayload : v.payload = v'.payload :=
    funext fun i => (h.payload i).symm.trans (h'.payload i)
  have hidle : v.idle = v'.idle := h.idle.toList_eq.symm.trans h'.idle.toList_eq
  have hpending : v.pending = v'.pending := h.pending.toList_eq.symm.trans h'.pending.toList_eq
  have hhash : v.hash = v'.hash := h.hash.symm.trans h'.hash
  cases v
  cases v'
  simp only [View.mk.injEq]
  exact ⟨htenant, hmark, hpayload, hidle, hpending, hhash⟩

/-- Marks and queues may change without the rest. -/
theorem congr (h : c.Shows v) (hlayout : SameLayout c c') (hpool : c'.pool = c.pool)
    (htenant : v'.tenant = v.tenant) (hpayload : v'.payload = v.payload)
    (hhash : v'.hash = v.hash) (hmark : c'.mark = v'.mark) (hidle : c'.idle.Holds v'.idle)
    (hpending : c'.pending.Holds v'.pending) (htidy : v'.Tidy) : c'.Shows v' where
  indexed := h.indexed.congr hlayout
  housed := by
    rw [hpool, hlayout.cell]
    exact h.housed
  tenant := by rw [hlayout.tenant, htenant, h.tenant]
  mark := hmark
  cell_isSome := by
    rw [hlayout.cell, htenant]
    exact h.cell_isSome
  payload := by
    rw [hlayout.cell, hpool, hpayload]
    exact h.payload
  idle := hidle
  pending := hpending
  hash := by rw [hlayout.hash, hhash, h.hash]
  tidy := htidy

theorem contains_pending (h : c.Shows v) : c.pending.contains i = decide (i ∈ v.pending) :=
  Bool.eq_iff_iff.2 (by rw [h.pending.contains_iff, decide_eq_true_eq])

theorem retain (h : c.Shows v) : (c.retain i).Shows (v.retain i) := by
  refine h.congr sameLayout_retain pool_retain rfl rfl rfl ?_ ?_ ?_ h.tidy.retain
  · funext j
    rw [mark_retain, h.mark]
    rcases eq_or_ne j i with rfl | hij
    · simp [View.retain]
    · simp [View.retain, hij, Ne.symm hij]
  · rw [idle_retain, h.mark]
    simp only [View.retain]
    split
    · exact h.idle.erase_list
    · exact h.idle
  · rw [pending_retain]
    exact h.pending

theorem release (h : c.Shows v) : (c.release i).2.Shows (v.release i) := by
  have hmark : c.mark i = v.mark i := congrFun h.mark i
  by_cases hi : v.mark i ≤ 0
  · rw [release_of_nonpos (hmark ▸ hi), View.release, if_pos hi]
    exact h
  · have hpos : 0 < c.mark i := by omega
    have hv : v.release i = { v with
        mark := update v.mark i (v.mark i - 1)
        idle := if v.mark i = 1 then i :: v.idle else v.idle } := if_neg hi
    refine h.congr sameLayout_release pool_release ?_ ?_ ?_ ?_ ?_ ?_ h.tidy.release
    · rw [hv]
    · rw [hv]
    · rw [hv]
    · funext j
      rw [mark_release hpos, h.mark, hv]
      rcases eq_or_ne j i with rfl | hij
      · simp
      · simp [hij, Ne.symm hij]
    · rw [idle_release hpos, hmark, hv]
      simp only
      split
      · refine h.idle.pushFront ?_
        rw [h.tidy.mem_idle]
        omega
      · exact h.idle
    · rw [pending_release, hv]
      exact h.pending

theorem queueForSave (h : c.Shows v) : (c.queueForSave i).Shows (v.queue i) := by
  unfold View.queue
  split
  · rename_i hi
    rw [queueForSave_of_pending ((h.pending.contains_iff i).2 hi)]
    exact h
  · rename_i hi
    rw [queueForSave_of_not_pending (h.pending.not_contains hi)]
    refine Shows.retain (h.congr (.setQueues _ _) rfl rfl rfl rfl ?_ ?_ ?_ ?_)
    · exact h.mark
    · exact h.idle
    · exact h.pending.pushFront hi
    · exact ⟨h.tidy.distinct, h.tidy.nonneg, h.tidy.mem_idle, h.tidy.idle,
        List.nodup_cons.2 ⟨hi, h.tidy.pending⟩⟩

/-- Slots that hold a chunk have a cell with a payload. -/
theorem payload_of_tenant (h : c.Shows v) (hi : v.tenant i = some a) :
    ∃ k p, c.cell? i = some k ∧ c.pool.get? k = some p ∧ v.payload i = some p := by
  have hcell := h.cell_isSome i
  rw [hi, Option.isSome_some] at hcell
  obtain ⟨k, hk⟩ := Option.isSome_iff_exists.1 hcell
  obtain ⟨p, hp⟩ := h.housed.get?_of_cell hk
  refine ⟨k, p, hk, hp, ?_⟩
  rw [← h.payload i, hk]
  exact hp

theorem quiet (h : c.Shows v) (hi : v.payload i = some p) : p.tracker.notices = 0 := by
  rw [← h.payload i, Option.bind_eq_some_iff] at hi
  obtain ⟨k, -, hp⟩ := hi
  exact h.housed.quiet hp

theorem write (h : c.Shows v) (hi : c.cell? i = some k) (hp : p.tracker.notices = 0) :
    ({ c with pool := c.pool.set k (some p) } : Cache sizing).Shows (v.write i p) where
  indexed := ⟨h.indexed.chains, h.indexed.distinct⟩
  housed := (h.housed.exchange hi hp).2
  tenant := h.tenant
  mark := h.mark
  cell_isSome := h.cell_isSome
  payload j := by
    change (c.cell? j).bind (c.pool.set k (some p)).get? = update v.payload i (some p) j
    rcases eq_or_ne j i with rfl | hij
    · rw [hi, update_self, Option.bind_some, CellPool.get?_set, if_pos rfl]
    · rw [update_of_ne hij, ← h.payload j]
      cases hj : c.cell? j with
      | none => rfl
      | some k' =>
          rw [Option.bind_some, Option.bind_some, CellPool.get?_set, if_neg]
          rintro rfl
          exact hij (h.housed.injective hj hi)
  idle := h.idle
  pending := h.pending
  hash := h.hash
  tidy := h.tidy.write

end Shows

end ChunkCache.Cache
