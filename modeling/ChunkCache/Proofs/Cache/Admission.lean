import ChunkCache.Proofs.Cache.Shows

namespace ChunkCache.Cache

open Function

variable {sizing : Sizing} {c c' : Cache sizing} {v v' : View sizing.capacity}
variable {i j k : Fin sizing.capacity} {a : Address} {p : Payload}

section Evict

theorem tenant?_evict : (c.evict i).tenant? = update c.tenant? i none := by
  funext j
  unfold evict
  rw [update_apply]
  cases hi : c.tenant? i with
  | none =>
      by_cases hij : j = i
      · rw [if_pos hij, hij]
        exact hi
      · rw [if_neg hij]
  | some a =>
      change (c.dismiss i a).tenant? j = _
      rw [tenant?_dismiss]
      exact if_congr eq_comm rfl rfl

theorem cell?_evict : (c.evict i).cell? = c.cell? := by
  funext j
  unfold evict
  split
  · rfl
  · exact cell?_dismiss

theorem mark_evict : (c.evict i).mark = c.mark := by
  funext j
  unfold evict
  split
  · rfl
  · exact mark_dismiss

theorem evict_frame : ∃ slots buckets, c.evict i = { c with slots, buckets } := by
  unfold evict
  split
  · exact ⟨_, _, rfl⟩
  · exact dismiss_frame

theorem Indexed.evict (h : Indexed c) : Indexed (c.evict i) := by
  unfold Cache.evict
  split
  · exact h
  · exact h.dismiss ‹_›

end Evict

namespace Shows

/-- The slot at the end of the idle slots is reclaimed, if there is one. -/
theorem reclaim (h : c.Shows v) : (v.idle = [] ∧ c.reclaim c.idle.size = (none, c)) ∨
    ∃ i idle, v.idle.getLast? = some i ∧ idle.Holds (v.idle.erase i) ∧
      c.reclaim c.idle.size = (some i, { c with idle }) := by
  have hsize := h.idle.size_eq
  cases hpop : c.idle.popBack with
  | none =>
      have hnil := h.idle.popBack_eq_none.1 hpop
      refine .inl ⟨hnil, ?_⟩
      rw [hsize, hnil]
      rfl
  | some popped =>
      obtain ⟨i, idle⟩ := popped
      obtain ⟨xs, hxs, hidle⟩ := h.idle.popBack hpop
      refine .inr ⟨i, idle, ?_, ?_, ?_⟩
      · rw [hxs, List.getLast?_concat]
      · have hnodup := h.idle.nodup
        rw [hxs, List.nodup_append] at hnodup
        rw [hxs, List.erase_append_right, List.erase_cons_head, List.append_nil]
        · exact hidle
        · intro hi
          exact hnodup.2.2 i hi i (by simp) rfl
      · have hmark : c.mark i = 0 := by
          rw [h.mark, ← h.tidy.mem_idle, hxs]
          simp
        have hsize' : c.idle.size = xs.length + 1 := by
          rw [hsize, hxs]
          simp
        rw [hsize', Cache.reclaim, hpop]
        exact if_pos hmark

/-- There is always a cell for the payload of a slot, its own one or a vacant one. -/
theorem storePayload (h : c.pool.Houses c.cell?) (hp : p.tracker.notices = 0) :
    ∃ k pool, c.storePayload i p = .ok (k, pool) ∧ pool.get? k = some p ∧
      (∀ j k', j ≠ i → c.cell? j = some k' → k' ≠ k ∧ pool.get? k' = c.pool.get? k') ∧
      pool.Houses (update c.cell? i (some k)) := by
  cases hi : c.cell? i with
  | none =>
      have hcell : (c.slots.get i).cell = none := hi
      obtain ⟨k, pool, hplace, hk, hother, hnone, hhoused⟩ := h.place hi hp
      rw [Cache.storePayload, hcell]
      refine ⟨k, pool, hplace, hk, fun j k' _ hj => ?_, hhoused⟩
      have hne : k' ≠ k := by
        rintro rfl
        obtain ⟨q, hq⟩ := h.get?_of_cell hj
        rw [hnone] at hq
        cases hq
      exact ⟨hne, hother k' hne⟩
  | some k =>
      have hcell : (c.slots.get i).cell = some k := hi
      obtain ⟨⟨old, hexchange⟩, hhoused⟩ := h.exchange hi hp
      rw [Cache.storePayload, hcell]
      refine ⟨k, c.pool.set k (some p), ?_, ?_, fun j k' hij hj => ?_, ?_⟩
      · simp only [hexchange]
        rfl
      · rw [CellPool.get?_set, if_pos rfl]
      · have hne : k' ≠ k := by
          rintro rfl
          exact hij (h.injective hj hi)
        refine ⟨hne, ?_⟩
        rw [CellPool.get?_set, if_neg (Ne.symm hne)]
      · rw [← hi, update_eq_self]
        exact hhoused

/-- A slot without a chunk takes one in, once the pool has its payload. -/
theorem settle {d : Cache sizing} {pool : CellPool sizing.capacity} (h : c.Shows v)
    (hbuckets : 0 < sizing.buckets) (ha : ∀ j, v.tenant j ≠ some a) (hindexed : Indexed d)
    (htenant : d.tenant? = update v.tenant i none) (hcell : d.cell? = c.cell?)
    (hmark : d.mark = v.mark) (hidle : d.idle.Holds (v.idle.erase i))
    (hpending : d.pending.Holds v.pending) (hhash : d.hash = v.hash) (hk : pool.get? k = some p)
    (hother : ∀ j k', j ≠ i → c.cell? j = some k' → k' ≠ k ∧ pool.get? k' = c.pool.get? k')
    (hhoused : pool.Houses (update c.cell? i (some k))) :
    (({ d with pool }.settle i k a).setSlot i fun s => { s with mark := 1 }).Shows
      (v.occupy i a p) := by
  have hcell' : (({ d with pool }.settle i k a).setSlot i fun s => { s with mark := 1 }).cell? =
      update c.cell? i (some k) := by
    funext j
    rw [(SameLayout.setMark fun _ => 1).cell, cell?_settle, update_apply, ← hcell]
    exact if_congr eq_comm rfl rfl
  constructor
  · have hindexed' : Indexed { d with pool } := ⟨hindexed.chains, hindexed.distinct⟩
    refine (hindexed'.settle hbuckets ?_ ?_).congr (SameLayout.setMark fun _ => 1)
    · change d.tenant? i = none
      rw [htenant, update_self]
    · intro j
      change d.tenant? j ≠ some a
      rw [htenant, update_apply]
      split
      · simp
      · exact ha j
  · rw [hcell']
    exact hhoused
  · funext j
    rw [(SameLayout.setMark fun _ => 1).tenant, tenant?_settle]
    change (if i = j then some a else d.tenant? j) = update v.tenant i (some a) j
    rw [htenant]
    by_cases hij : j = i
    · simp [hij]
    · simp [hij, Ne.symm hij]
  · funext j
    rw [mark_setSlot]
    change _ = update v.mark i 1 j
    by_cases hij : j = i
    · simp [hij]
    · rw [if_neg (Ne.symm hij), update_of_ne hij, ← hmark]
      exact mark_settle
  · intro j
    rw [hcell']
    change _ = (update v.tenant i (some a) j).isSome
    by_cases hij : j = i
    · simp [hij]
    · rw [update_of_ne hij, update_of_ne hij]
      exact h.cell_isSome j
  · intro j
    rw [hcell']
    change (update c.cell? i (some k) j).bind pool.get? = update v.payload i (some p) j
    rcases eq_or_ne j i with rfl | hij
    · rw [update_self, update_self, Option.bind_some, hk]
    · rw [update_of_ne hij, update_of_ne hij, ← h.payload j]
      cases hj : c.cell? j with
      | none => rfl
      | some k' => exact (hother j k' hij hj).2
  · exact hidle
  · exact hpending
  · exact hhash
  · exact h.tidy.occupy ha

/-- The reclaimed slot takes the chunk in, whatever it held before. -/
theorem occupy {idle : SlotQueue sizing.capacity} (h : c.Shows v) (hbuckets : 0 < sizing.buckets)
    (ha : ∀ j, v.tenant j ≠ some a) (hidle : idle.Holds (v.idle.erase i)) :
    ∃ c', c'.Shows (v.occupy i a p.admitted) ∧ ({ c with idle } : Cache sizing).occupy i a p =
      (.ok i, if p.isDirty then c'.queueForSave i else c') := by
  obtain ⟨slots, buckets, hframe⟩ := evict_frame (c := { c with idle }) (i := i)
  obtain ⟨d, hd⟩ : ∃ d, d = ({ c with idle } : Cache sizing).evict i := ⟨_, rfl⟩
  have htenant : d.tenant? = update v.tenant i none := by
    rw [hd, tenant?_evict]
    exact congrArg (update · i none) h.tenant
  have hcell : d.cell? = c.cell? := by
    rw [hd, cell?_evict]
    rfl
  have hmark : d.mark = v.mark := by
    rw [hd, mark_evict]
    exact h.mark
  have hindexed : Indexed d := by
    rw [hd]
    exact Indexed.evict ⟨h.indexed.chains, h.indexed.distinct⟩
  have hpool : d.pool = c.pool := by rw [hd, hframe]
  have hidle' : d.idle.Holds (v.idle.erase i) := by
    rw [hd, hframe]
    exact hidle
  have hpending : d.pending.Holds v.pending := by
    rw [hd, hframe]
    exact h.pending
  have hhash : d.hash = v.hash := by
    rw [hd, hframe]
    exact h.hash
  have hhouses : d.pool.Houses d.cell? := by
    rw [hpool, hcell]
    exact h.housed
  obtain ⟨k, pool, hstore, hk, hother, hhoused⟩ :=
    storePayload (i := i) hhouses p.notices_admitted
  rw [hcell, hpool] at hother
  rw [hcell] at hhoused
  refine ⟨_, h.settle hbuckets ha hindexed htenant hcell hmark hidle' hpending hhash hk hother
    hhoused, ?_⟩
  simp only [Cache.occupy]
  rw [← hd]
  change d.storePayload i ((p.listen true).forgetNotices) = _ at hstore
  simp only [hstore]
  change (_, if p.admitted.isDirty = true then _ else _) = _
  rw [Payload.isDirty_admitted]

end Shows

/-- What happens when a payload is brought in as the chunk of `a`. -/
def admission (i : Fin sizing.capacity) (a : Address) (p : Payload) :
    List (Effect sizing.capacity) :=
  .occupy i a p.admitted :: if p.isDirty then [.queue i] else []

/-- What happens when slot `i` comes to hold the chunk of `a` for one more reference. -/
inductive Holding (v : View sizing.capacity) (a : Address) (make : Except Error Payload)
    (i : Fin sizing.capacity) : List (Effect sizing.capacity) → Prop
  | cached (hi : v.tenant i = some a) : Holding v a make i [.retain i a]
  | brought (p : Payload) (ha : ∀ j, v.tenant j ≠ some a) (hmake : make = .ok p) :
      Holding v a make i (admission i a p)

inductive NotHolding (v : View sizing.capacity) (a : Address) (make : Except Error Payload) :
    Failure → Prop
  | noBuckets (hbuckets : sizing.buckets = 0) : NotHolding v a make (.aborted .noBuckets)
  | refused (e : Error) (ha : ∀ j, v.tenant j ≠ some a) (hmake : make = .error e) :
      NotHolding v a make (.refused e)
  | full (p : Payload) (ha : ∀ j, v.tenant j ≠ some a) (hmake : make = .ok p)
      (hidle : v.idle = []) : NotHolding v a make (.refused (.cacheFull sizing.capacity 0))

/-- The ways in which holding the chunk of `a` can end. -/
inductive Held (c : Cache sizing) (v : View sizing.capacity) (a : Address)
    (make : Except Error Payload) : Outcome (Fin sizing.capacity) sizing → Prop
  | ok (i : Fin sizing.capacity) (es : List (Effect sizing.capacity)) (c' : Cache sizing)
      (v' : View sizing.capacity) (hes : Holding v a make i es) (hrun : v.Run es v')
      (hshows : c'.Shows v') : Held c v a make (.ok i, c')
  | error (f : Failure) (hf : NotHolding v a make f) : Held c v a make (.error f, c)

inductive Looked (c : Cache sizing) (v : View sizing.capacity) (a : Address) :
    Outcome (Option Handle) sizing → Prop
  | cached (i : Fin sizing.capacity) (hi : v.tenant i = some a) :
      Looked c v a (.ok (some ⟨i.val, a⟩), c.retain i)
  | missing (ha : ∀ j, v.tenant j ≠ some a) : Looked c v a (.ok none, c)
  | noBuckets (hbuckets : sizing.buckets = 0) : Looked c v a (.error (.aborted .noBuckets), c)

namespace Shows

theorem find_eq_some_iff (h : c.Shows v) : c.find a = some i ↔ v.tenant i = some a := by
  rw [h.indexed.find_eq_some_iff, h.tenant]

theorem find_eq_none_iff (h : c.Shows v) : c.find a = none ↔ ∀ j, v.tenant j ≠ some a := by
  rw [h.indexed.find_eq_none_iff, h.tenant]

theorem available_eq_zero (h : c.Shows v) (hidle : v.idle = []) : c.available = 0 := by
  rw [available, List.countP_eq_zero]
  intro s hs
  obtain ⟨n, hn, rfl⟩ := List.getElem_of_mem hs
  have hmark : c.mark ⟨n, by simpa using hn⟩ ≠ 0 := by
    rw [h.mark, ne_eq, ← h.tidy.mem_idle, hidle]
    exact List.not_mem_nil
  change ¬decide ((c.slots.toList[n]).mark = 0) = true
  rw [decide_eq_true_eq]
  exact hmark

theorem bringIn (h : c.Shows v) (hbuckets : 0 < sizing.buckets) (ha : ∀ j, v.tenant j ≠ some a) :
    Held c v a (.ok p) (c.bringIn a p) := by
  unfold Cache.bringIn
  rcases h.reclaim with ⟨hidle, hreclaim⟩ | ⟨i, idle, hi, hidle, hreclaim⟩
  · rw [hreclaim]
    simp only [h.available_eq_zero hidle]
    exact .error _ (.full p ha rfl hidle)
  · rw [hreclaim]
    obtain ⟨c', hshows, hoccupy⟩ := h.occupy (p := p) hbuckets ha hidle
    simp only [hoccupy]
    have hallows : v.Allows (.occupy i a p.admitted) := ⟨hi, ha⟩
    have hes : Holding v a (.ok p) i (admission i a p) := .brought p ha rfl
    by_cases hdirty : p.isDirty = true
    · rw [if_pos hdirty]
      rw [admission, if_pos hdirty] at hes
      exact .ok i _ _ _ hes ⟨hallows, trivial, rfl⟩ hshows.queueForSave
    · rw [if_neg hdirty]
      rw [admission, if_neg hdirty] at hes
      exact .ok i _ _ _ hes (.single hallows) hshows

/-- An operation on `a` is refused in a cache without buckets, and looks up `a` in others. -/
theorem lookup {α : Type} {act : Cache sizing → Outcome α sizing}
    {motive : Outcome α sizing → Prop} (h : c.Shows v) (a : Address)
    (noBuckets : sizing.buckets = 0 → motive (.error (.aborted .noBuckets), c))
    (cached : ∀ i, v.tenant i = some a → c.find a = some i → motive (act c))
    (uncached : 0 < sizing.buckets → (∀ j, v.tenant j ≠ some a) → c.find a = none →
      motive (act c)) : motive (c.withBuckets act) := by
  unfold withBuckets checkBuckets
  split
  · rename_i hcheck
    split at hcheck
    · cases hcheck
    cases hfind : c.find a with
    | some i => exact cached i (h.find_eq_some_iff.1 hfind) hfind
    | none => exact uncached (Nat.pos_of_ne_zero ‹_›) (h.find_eq_none_iff.1 hfind) hfind
  · rename_i f hcheck
    split at hcheck
    · cases hcheck
      exact noBuckets ‹_›
    · cases hcheck

theorem holdCached (h : c.Shows v) (a : Address) : Looked c v a (c.holdCached a) := by
  refine h.lookup a .noBuckets (fun i hi hfind => ?_) (fun hbuckets ha hfind => ?_)
  · simp only [retainCached, hfind, Option.map_some]
    exact .cached i hi
  · simp only [retainCached, hfind, Option.map_none]
    exact .missing ha

theorem hold (h : c.Shows v) (make : Except Error Payload) : Held c v a make (c.hold a make) := by
  refine h.lookup a (fun hbuckets => ?_) (fun i hi hfind => ?_) (fun hbuckets ha hfind => ?_)
  · exact .error _ (.noBuckets hbuckets)
  · simp only [retainCached, hfind, Option.map_some]
    exact .ok i _ _ _ (.cached hi) (.single hi) h.retain
  · simp only [retainCached, hfind, Option.map_none]
    cases make with
    | error e => exact .error _ (.refused e ha rfl)
    | ok p => exact h.bringIn hbuckets ha

end Shows

end ChunkCache.Cache
