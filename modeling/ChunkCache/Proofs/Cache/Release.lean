import ChunkCache.Proofs.Cache.Admission

namespace ChunkCache.Cache

open Function

variable {sizing : Sizing} {c c' : Cache sizing} {v v' : View sizing.capacity}
variable {i j k : Fin sizing.capacity} {a : Address} {t : Handle}

/-- The ways in which a release can end, where `asked` says which slot is to be released. -/
inductive Released (c : Cache sizing) (asked : Fin sizing.capacity → Prop) :
    Outcome (Option Int) sizing → Prop
  | released (i : Fin sizing.capacity) (hi : asked i) :
      Released c asked (.ok (some (c.release i).1), (c.release i).2)
  | absent (hi : ∀ i, ¬asked i) : Released c asked (.ok none, c)
  | aborted (f : Violation) (hi : ∀ i, ¬asked i) : Released c asked (.error (.aborted f), c)

/-- The ways in which a discard can end. -/
inductive Discarded (c : Cache sizing) (v : View sizing.capacity) (t : Handle) :
    Outcome Unit sizing → Prop
  | done (i : Fin sizing.capacity) (c' : Cache sizing) (hi : v.Current t i)
      (hmark : v.mark i = if i ∈ v.pending then 2 else 1) (hshows : c'.Shows (v.vacate i)) :
      Discarded c v t (.ok (), c')
  | referenced (i : Fin sizing.capacity) (e : Error) (c' : Cache sizing) (hi : v.Current t i)
      (hmark : v.mark i ≠ if i ∈ v.pending then 2 else 1)
      (hshows : c'.Shows (if i ∈ v.pending then v.requeue i else v)) :
      Discarded c v t (.error (.refused e), c')
  | stale (e : Error) (ht : ∀ i, ¬v.Current t i) : Discarded c v t (.error (.refused e), c)

/-- Without buckets there are no chunks. -/
theorem Indexed.tenant?_eq_none (h : Indexed c) (hbuckets : sizing.buckets = 0) :
    c.tenant? i = none := by
  cases hi : c.tenant? i with
  | none => rfl
  | some a =>
      obtain ⟨l, hchain, hlists⟩ := h.chains (c.bucketOf a)
      cases l with
      | nil => exact absurd ((hlists i).2 ⟨a, hi, rfl⟩) List.not_mem_nil
      | cons j l =>
          have hlt := lt_of_chainStart hchain.1
          omega

theorem requestSaveAt_cases (c : Cache sizing) (number : Nat) :
    (∃ i, c.requestSaveAt number = (.ok (), c.queueForSave i)) ∨
      (c.requestSaveAt number).2 = c := by
  unfold Cache.requestSaveAt
  cases slotAt sizing number with
  | error e => exact .inr rfl
  | ok i => exact .inl ⟨i, rfl⟩

namespace Shows

theorem releaseOf (h : c.Shows v) (a : Address) :
    Released c (fun i => v.tenant i = some a) (c.releaseOf a) := by
  refine h.lookup a (fun hbuckets => ?_) (fun i hi hfind => ?_) (fun hbuckets ha hfind => ?_)
  · refine .aborted _ fun i hi => ?_
    rw [← h.tenant, h.indexed.tenant?_eq_none hbuckets] at hi
    cases hi
  · simp only [hfind]
    exact .released i hi
  · simp only [hfind]
    exact .absent ha

/-- The current slot of a handle is the one that its number names. -/
theorem currentSlot (h : c.Shows v) (t : Handle) :
    (∃ i, v.Current t i ∧ c.currentSlot t = .ok (some i)) ∨
      (∀ i, ¬v.Current t i) ∧
        (c.currentSlot t = .ok none ∨ c.currentSlot t = .error (.aborted .slotOutOfRange)) := by
  unfold Cache.currentSlot
  split
  · rename_i hslot
    split
    · rename_i htenant
      rw [h.tenant] at htenant
      exact .inl ⟨⟨t.slot, hslot⟩, ⟨rfl, htenant⟩, rfl⟩
    · rename_i htenant
      refine .inr ⟨fun i hi => htenant ?_, .inl rfl⟩
      obtain rfl : i = ⟨t.slot, hslot⟩ := Fin.ext hi.1
      rw [h.tenant]
      exact hi.2
  · rename_i hslot
    refine .inr ⟨fun i hi => hslot ?_, .inr rfl⟩
    rw [← hi.1]
    exact i.isLt

theorem releaseHandle (h : c.Shows v) (t : Handle) :
    Released c (v.Current t) (c.releaseHandle t) := by
  unfold Cache.releaseHandle
  rcases h.currentSlot t with ⟨i, hi, hslot⟩ | ⟨ht, hslot | hslot⟩
  · rw [hslot]
    exact .released i hi
  · rw [hslot]
    exact .absent ht
  · rw [hslot]
    exact .aborted _ ht

/-- A request to save touches the current slot of the handle, if there is one. -/
theorem requestSave (h : c.Shows v) (t : Handle) :
    (∃ i, v.Current t i ∧ c.requestSave t = (.ok (), c.queueForSave i)) ∨
      (∀ i, ¬v.Current t i) ∧ (c.requestSave t).2 = c := by
  unfold Cache.requestSave
  rcases h.currentSlot t with ⟨i, hi, hslot⟩ | ⟨ht, hslot | hslot⟩
  · rw [hslot]
    exact .inl ⟨i, hi, rfl⟩
  · rw [hslot]
    exact .inr ⟨ht, rfl⟩
  · rw [hslot]
    exact .inr ⟨ht, rfl⟩

/-- A slot whose chunk left the index gives up its cell and becomes idle. -/
theorem vacate {d e : Cache sizing} {pool : CellPool sizing.capacity} (h : c.Shows v)
    (hmark : v.mark i ≠ 0) (hindexed : Indexed d) (htenant : d.tenant? = update v.tenant i none)
    (hcell : d.cell? = c.cell?) (hdmark : d.mark = v.mark) (hdhash : d.hash = v.hash)
    (hk : c.cell? i = some k)
    (hother : ∀ j, j ≠ k → pool.get? j = c.pool.get? j)
    (hhoused : pool.Houses (update c.cell? i none))
    (hslots : ∀ j : Fin sizing.capacity, e.slots.get j =
      if i = j then { d.slots.get i with cell := none, mark := 0 } else d.slots.get j)
    (hbuckets : e.buckets = d.buckets) (hhash : e.hash = d.hash) (hpool : e.pool = pool)
    (hidle : e.idle.Holds (v.idle ++ [i])) (hpending : e.pending.Holds (v.pending.erase i)) :
    e.Shows (v.vacate i) := by
  have htenant' : e.tenant? = d.tenant? := by
    funext j
    rw [tenant?, hslots]
    split <;> simp_all [tenant?]
  have hcell' : e.cell? = update c.cell? i none := by
    funext j
    rw [update_apply, ← hcell, cell?, hslots]
    by_cases hij : j = i
    · simp [hij]
    · rw [if_neg (Ne.symm hij), if_neg hij]
      rfl
  constructor
  · refine hindexed.of_links htenant' ?_ hbuckets hhash
    funext j
    rw [next?, hslots]
    split <;> simp_all [next?]
  · rw [hpool, hcell']
    exact hhoused
  · rw [htenant']
    exact htenant
  · funext j
    change _ = update v.mark i 0 j
    rw [update_apply, ← hdmark, Cache.mark, hslots]
    by_cases hij : j = i
    · simp [hij]
    · rw [if_neg (Ne.symm hij), if_neg hij]
      rfl
  · intro j
    rw [hcell']
    change _ = (update v.tenant i none j).isSome
    by_cases hij : j = i
    · simp [hij]
    · rw [update_of_ne hij, update_of_ne hij]
      exact h.cell_isSome j
  · intro j
    rw [hcell', hpool]
    change (update c.cell? i none j).bind pool.get? = update v.payload i none j
    by_cases hij : j = i
    · simp [hij]
    · rw [update_of_ne hij, update_of_ne hij, ← h.payload j]
      cases hj : c.cell? j with
      | none => rfl
      | some k' =>
          refine hother k' ?_
          rintro rfl
          exact hij (h.housed.injective hj hk)
  · exact hidle
  · exact hpending
  · exact hhash.trans hdhash
  · exact h.tidy.vacate hmark

/-- The slot, its cell and its place in the index are given up together. -/
theorem clear {pending : SlotQueue sizing.capacity} (h : c.Shows v) (hi : v.tenant i = some a)
    (hmark : v.mark i ≠ 0) (hpending : pending.Holds (v.pending.erase i)) :
    ∃ c', ({ c with pending } : Cache sizing).clear i a = (.ok (), c') ∧
      c'.Shows (v.vacate i) := by
  obtain ⟨d, hd⟩ : ∃ d, d = ({ c with pending } : Cache sizing).dismiss i a := ⟨_, rfl⟩
  obtain ⟨slots, buckets, hframe⟩ := dismiss_frame (c := { c with pending }) (i := i) (a := a)
  have hindexed : Indexed d := by
    have hindexed : Indexed { c with pending } := ⟨h.indexed.chains, h.indexed.distinct⟩
    rw [hd]
    refine hindexed.dismiss ?_
    rw [← hi, ← h.tenant]
    rfl
  have htenant : d.tenant? = update v.tenant i none := by
    funext j
    rw [hd, tenant?_dismiss, update_apply, ← h.tenant]
    exact if_congr eq_comm rfl rfl
  have hcell : d.cell? = c.cell? := by
    funext j
    rw [hd, cell?_dismiss]
    rfl
  have hdmark : d.mark = v.mark := by
    funext j
    rw [hd, mark_dismiss, ← h.mark]
    rfl
  have hpool : d.pool = c.pool := by rw [hd, hframe]
  have hhash : d.hash = v.hash := by
    rw [hd, hframe]
    exact h.hash
  obtain ⟨k, p, hk, -, -⟩ := h.payload_of_tenant hi
  obtain ⟨old, pool, hvacate, hother, hhoused⟩ := h.housed.vacate hk
  have hvacated : vacateCell d.pool (d.slots.get i).cell = (.ok (), pool) := by
    have hslot : (d.slots.get i).cell = some k := (congrFun hcell i).trans hk
    rw [hslot, vacateCell, hpool, hvacate]
  have hclear : ({ c with pending } : Cache sizing).clear i a =
      (.ok (), { ({ d with pool }.setSlot i fun s => { s with cell := none, mark := 0 }) with
        idle := (d.idle.pushBack i).2 }) := by
    simp only [Cache.clear]
    rw [← hd, hvacated]
    rfl
  refine ⟨_, hclear, h.vacate hmark hindexed htenant hcell hdmark hhash hk hother hhoused
    (fun j => slots_setSlot (c := { d with pool })
      (f := fun s => { s with cell := none, mark := 0 })) rfl rfl rfl ?_ ?_⟩
  · change (d.idle.pushBack i).2.Holds (v.idle ++ [i])
    rw [hd, hframe]
    refine h.idle.pushBack ?_
    rw [h.tidy.mem_idle]
    exact hmark
  · change d.pending.Holds (v.pending.erase i)
    rw [hd, hframe]
    exact hpending

theorem discard (h : c.Shows v) (t : Handle) : Discarded c v t (c.discard t) := by
  have hmark : ∀ i, c.mark i = v.mark i := congrFun h.mark
  unfold Cache.discard slotAt
  split
  · rename_i e hslot
    split at hslot
    · cases hslot
    rename_i hout
    cases hslot
    refine .stale _ fun i hi => hout ?_
    rw [← hi.1]
    exact i.isLt
  rename_i i hslot
  split at hslot
  · cases hslot
    rename_i hlt
    split
    · rename_i htenant
      rw [h.tenant] at htenant
      have hi : v.Current t ⟨t.slot, hlt⟩ := ⟨rfl, htenant⟩
      have hqueued : (c.pending.erase ⟨t.slot, hlt⟩).1 = decide (⟨t.slot, hlt⟩ ∈ v.pending) := by
        rw [SlotQueue.fst_erase, h.contains_pending]
      have herase := h.pending.erase_list (i := ⟨t.slot, hlt⟩)
      generalize c.pending.erase ⟨t.slot, hlt⟩ = erased at hqueued herase ⊢
      obtain ⟨queued, pending⟩ := erased
      generalize (⟨t.slot, hlt⟩ : Fin sizing.capacity) = i at *
      subst hqueued
      simp only [decide_eq_true_eq, hmark] at herase ⊢
      by_cases hexpected : v.mark i = if i ∈ v.pending then 2 else 1
      · rw [if_pos hexpected]
        have hne : v.mark i ≠ 0 := by
          rw [hexpected]
          split <;> omega
        obtain ⟨c', hclear, hshows⟩ := h.clear htenant hne herase
        rw [hclear]
        exact .done i c' hi hexpected hshows
      · rw [if_neg hexpected]
        refine .referenced i _ _ hi hexpected ?_
        split
        · refine h.congr (.setQueues _ _) rfl rfl rfl rfl h.mark h.idle ?_ h.tidy.requeue
          refine herase.pushFront ?_
          simp [h.tidy.pending.mem_erase_iff]
        · rename_i hout
          rw [List.erase_of_not_mem hout] at herase
          exact h.congr (.setQueues _ _) rfl rfl rfl rfl h.mark h.idle herase h.tidy
    · rename_i htenant
      refine .stale _ fun i hi => htenant ?_
      obtain rfl : i = ⟨t.slot, hlt⟩ := Fin.ext hi.1
      rw [h.tenant]
      exact hi.2
  · cases hslot

end Shows

end ChunkCache.Cache
