import ChunkCache.Proofs.Cache.Room
import ChunkCache.Proofs.Cache.Rule
import ChunkCache.Proofs.Operation

namespace ChunkCache

/-- A cached payload of `a` has the kind of `a`. -/
def Rule.kind (a : Address) : Rule where
  Holds b p _ := b = a → p.kind = a.kind
  queue _ h := h
  save h hb := by
    rw [Payload.saved, Payload.forgetNotices, Payload.kind_mapTracker, Payload.kind_mapTracker,
      h hb]
  create hmake hb := by
    rw [Payload.admitted, Payload.forgetNotices, Payload.listen, Payload.kind_mapTracker,
      Payload.kind_mapTracker, Payload.kind_ofAddress hmake, hb]
  load h _ hload hb := by
    rw [Payload.forgetNotices, Payload.kind_mapTracker, Payload.kind_load hload, h hb]
  fork hkind _ hb := by
    rw [← hb, hkind]
    rfl

/-- The call does not assign a payload of another kind to `a`. -/
def Call.KeepsKind (a : Address) : Call → Prop
  | .holdOrPut b p => b = a → p.kind = a.kind
  | .access t act => t.address = a → ∀ p p', p.kind = a.kind → act p = .ok p' → p'.kind = a.kind
  | _ => True

theorem Call.KeepsKind.allowed {a : Address} {call : Call} (h : call.KeepsKind a) :
    (Rule.kind a).Allows call := by
  cases call with
  | holdOrPut b p =>
      intro hb
      rw [Payload.admitted, Payload.forgetNotices, Payload.listen, Payload.kind_mapTracker,
        Payload.kind_mapTracker, h hb]
  | access t act =>
      intro p p' q hp _ hact ht
      rw [Payload.forgetNotices, Payload.kind_mapTracker]
      exact h ht p p' (hp ht) hact
  | forkFrom origin source t b fresh =>
      intro m hkind _ hb
      rw [← hb, hkind]
      rfl
  | _ => trivial

namespace Cache

variable {sizing : Sizing} {c : Cache sizing} {v : View sizing.capacity}
variable {i : Fin sizing.capacity} {a : Address} {p : Payload} {t : Handle}

namespace Shows

theorem occupied_eq_size (h : c.Shows v) : c.pool.occupied = c.size := by
  rw [h.housed.occupied_eq, size_eq]
  simp only [h.cell_isSome, h.tenant]

theorem isSome_cell? (h : c.Shows v) (i : Fin sizing.capacity) :
    (c.cell? i).isSome = (c.tenant? i).isSome := by
  rw [h.cell_isSome, h.tenant]

theorem mem_vacant_iff (h : c.Shows v) {k : Fin sizing.capacity} :
    k ∈ c.pool.vacant ↔ ∀ i, c.cell? i ≠ some k := by
  rw [h.housed.vacant_iff, ← Option.not_isSome_iff_eq_none, h.housed.filled_iff, not_exists]

/-- Whatever slot is reclaimed, its new payload finds a cell. -/
theorem storePayload_evict (h : c.Shows v) (idle : SlotQueue sizing.capacity)
    (i : Fin sizing.capacity) (p : Payload) :
    ∃ k pool, (({ c with idle } : Cache sizing).evict i).storePayload i p.admitted =
      .ok (k, pool) := by
  obtain ⟨slots, buckets, hframe⟩ := evict_frame (c := { c with idle }) (i := i)
  have hhoused : (({ c with idle } : Cache sizing).evict i).pool.Houses
      (({ c with idle } : Cache sizing).evict i).cell? := by
    rw [cell?_evict, hframe]
    exact h.housed
  obtain ⟨k, pool, hstore, -⟩ := storePayload (i := i) hhoused p.notices_admitted
  exact ⟨k, pool, hstore⟩

theorem fst_occupy (h : c.Shows v) (idle : SlotQueue sizing.capacity) (i : Fin sizing.capacity)
    (a : Address) (p : Payload) : (({ c with idle } : Cache sizing).occupy i a p).1 = .ok i := by
  obtain ⟨k, pool, hstore⟩ := h.storePayload_evict idle i p
  change Cache.storePayload _ i ((p.listen true).forgetNotices) = _ at hstore
  simp only [Cache.occupy, hstore]

/-- A discard succeeds exactly if it can claim the slot of its handle. -/
theorem discard_eq_ok_iff (h : c.Shows v) : (c.discard t).1 = .ok () ↔
    ∃ i : Fin sizing.capacity, i.val = t.slot ∧ c.tenant? i = some t.address ∧
      c.mark i = if c.pending.contains i then 2 else 1 := by
  have hclaim : ∀ i : Fin sizing.capacity, (i.val = t.slot ∧ c.tenant? i = some t.address ∧
      c.mark i = if c.pending.contains i then 2 else 1) ↔
        v.Current t i ∧ v.mark i = if i ∈ v.pending then 2 else 1 := by
    intro i
    rw [View.Current, h.tenant, h.mark, h.contains_pending, and_assoc]
    simp only [decide_eq_true_eq]
  simp only [hclaim]
  have hdiscard := h.discard t
  generalize c.discard t = o at hdiscard ⊢
  cases hdiscard with
  | done i c' hi hmark hshows => exact iff_of_true rfl ⟨i, hi, hmark⟩
  | stale e ht => exact iff_of_false nofun fun ⟨i, hi, _⟩ => ht i hi
  | referenced i e c' hi hmark hshows =>
      refine iff_of_false nofun ?_
      rintro ⟨j, hj, hjmark⟩
      obtain rfl : j = i := Fin.ext (hj.1.trans hi.1.symm)
      exact hmark hjmark

end Shows

end Cache

namespace Books

open Cache

/-- After any calls a slot has a cell exactly if it holds a chunk, and no two slots share one. The
occupied cells are those of the slots, as many as there are chunks, and the list of vacant cells has
every other cell once. A chunk has the kind of its address unless a caller assigned a payload of
another kind to it. Hence a slot that is reclaimed finds a cell for its new payload, a discard fails
only before it has claimed its slot, and a current handle reaches the payload in the cell of its own
slot. -/
theorem cells_owned (sizing : Sizing) (hash : Address → UInt64) (calls : List Call) :
    let c := ((opened sizing hash).run calls).cache
    (∀ i, (c.cell? i).isSome = (c.tenant? i).isSome) ∧
    (∀ i j k, c.cell? i = some k → c.cell? j = some k → i = j) ∧
    (∀ k, (c.pool.get? k).isSome = true ↔ ∃ i, c.cell? i = some k) ∧
    c.pool.occupied = c.size ∧
    c.pool.vacant.Nodup ∧ (∀ k, k ∈ c.pool.vacant ↔ ∀ i, c.cell? i ≠ some k) ∧
    (∀ i c', c.reclaim c.idle.size = (some i, c') → ∀ a p,
      (∃ k pool, (c'.evict i).storePayload i (p.listen true).forgetNotices = .ok (k, pool)) ∧
      (c'.occupy i a p).1 = .ok i) ∧
    (∀ t, (c.discard t).1 = .ok () ↔
      ∃ i : Fin sizing.capacity, i.val = t.slot ∧ c.tenant? i = some t.address ∧
        c.mark i = if c.pending.contains i then 2 else 1) ∧
    ∀ i a, c.tenant? i = some a → ∃ k p, c.cell? i = some k ∧ c.pool.get? k = some p ∧
      c.payload ⟨i.val, a⟩ = .ok (i, k, p) ∧
      ((∀ call ∈ calls, call.KeepsKind a) → p.kind = a.kind) := by
  intro c
  obtain ⟨v, h, -⟩ := shows_run (b := opened sizing hash) (.emptyWith hash) calls
  refine ⟨h.isSome_cell?, fun i j k => h.housed.injective, h.housed.filled_iff, h.occupied_eq_size,
    h.housed.nodup, fun k => h.mem_vacant_iff, fun i c' hreclaim a p => ?_,
    fun t => h.discard_eq_ok_iff, fun i a hi => ?_⟩
  · rcases h.reclaim with ⟨-, hnone⟩ | ⟨j, idle, -, -, hsome⟩
    · rw [hreclaim] at hnone
      cases hnone
    · rw [hreclaim] at hsome
      cases hsome
      exact ⟨h.storePayload_evict idle i p, h.fst_occupy idle i a p⟩
  · have hcurrent : v.Current ⟨i.val, a⟩ i := ⟨rfl, by rw [← h.tenant, hi]⟩
    obtain ⟨k, p, hk, hp, hpayload⟩ := h.payload_of_tenant hcurrent.2
    obtain ⟨k', p', hread, hk', hpayload'⟩ := h.payload_eq hcurrent
    obtain rfl := Option.some.inj (hk.symm.trans hk')
    obtain rfl := Option.some.inj (hpayload.symm.trans hpayload')
    refine ⟨k, p, hk, hp, hread, fun hcalls => ?_⟩
    have hobeys := obeys_run (obeys_opened sizing hash (Rule.kind a))
      fun call hcall => (hcalls call hcall).allowed
    obtain ⟨w, hw, hrule⟩ := hobeys
    obtain rfl := h.unique hw
    exact (hrule.holds hcurrent.2 hpayload).2 rfl

/-- The cell of a discarded chunk is found again by the next one, and the chunk in the other slot is
reached. -/
theorem cells_owned_discarded :
    let calls := releasedOnce ++
      [.holdOrCreate second 0, .discard ⟨1, second⟩, .holdCached first]
    let c := ((opened ⟨2, 1⟩ fun _ => 0).run calls).cache
    (∀ call ∈ calls, call.KeepsKind first) ∧ c.tenant? 0 = some first ∧
      (∃ k p, c.payload ⟨0, first⟩ = .ok (0, k, p) ∧ p.kind = .timeline) ∧
      (∃ c', c.reclaim c.idle.size = (some 1, c') ∧
        (c'.occupy 1 second (.timeline .empty)).1 = .ok 1) ∧
      c.pool.occupied = 1 ∧ (c.discard ⟨0, first⟩).1 = .ok () := by
  intro calls c
  have hcalls : ∀ call ∈ calls, call.KeepsKind first := by
    simp only [calls, releasedOnce, List.cons_append, List.nil_append, List.forall_mem_cons]
    refine ⟨trivial, fun _ p p' hp hact => ?_, trivial, trivial, trivial, trivial,
      List.forall_mem_nil _⟩
    cases p with
    | timeline t =>
        cases hact
        rfl
    | _ => cases hp
  have hfirst : c.tenant? 0 = some first := by decide +kernel
  have hreclaim : c.reclaim c.idle.size = (some 1, (c.reclaim c.idle.size).2) :=
    Prod.ext (by decide +kernel) rfl
  obtain ⟨-, -, -, hsize, -, -, hreclaimed, hdiscard, hreached⟩ :=
    cells_owned ⟨2, 1⟩ (fun _ => 0) calls
  obtain ⟨k, p, -, -, hpayload, hkind⟩ := hreached 0 first hfirst
  exact ⟨hcalls, hfirst, ⟨k, p, hpayload, hkind hcalls⟩,
    ⟨_, hreclaim, (hreclaimed 1 _ hreclaim second (.timeline .empty)).2⟩,
    hsize.trans (by decide +kernel),
    (hdiscard ⟨0, first⟩).2 ⟨0, rfl, hfirst, by decide +kernel⟩⟩

end Books

end ChunkCache
