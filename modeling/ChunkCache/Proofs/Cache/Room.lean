import ChunkCache.Proofs.Cache.References
import ChunkCache.Proofs.Content

namespace ChunkCache

namespace Cache

variable {sizing : Sizing} {c : Cache sizing} {v : View sizing.capacity}
variable {i : Fin sizing.capacity} {a : Address} {fresh : Stamp}

theorem countP_slots (c : Cache sizing) (p : Slot sizing.capacity → Bool) :
    c.slots.toList.countP p =
      (List.finRange sizing.capacity).countP fun i => p (c.slots.get i) := by
  have hslots : c.slots.toList = (List.finRange sizing.capacity).map c.slots.get := by
    apply List.ext_getElem
    · simp
    · intro n _ _
      simp [Vector.get]
  rw [hslots, List.countP_map]
  rfl

theorem available_eq (c : Cache sizing) :
    c.available = (List.finRange sizing.capacity).countP fun i => decide (c.mark i = 0) :=
  c.countP_slots _

theorem size_eq (c : Cache sizing) :
    c.size = (List.finRange sizing.capacity).countP fun i => (c.tenant? i).isSome :=
  c.countP_slots _

theorem isOk_toHandle {o : Outcome (Fin sizing.capacity) sizing} :
    (toHandle a o).1.isOk = o.1.isOk := by
  obtain ⟨answer, c⟩ := o
  cases answer <;> rfl

/-- A chunk that can be made is held unless it is missing and every slot is referenced. -/
theorem Held.isOk_iff {make : Except Error Payload} {o : Outcome (Fin sizing.capacity) sizing}
    (ho : Held c v a make o) (hbuckets : 0 < sizing.buckets) (hmake : make.isOk) :
    o.1.isOk ↔ (∃ i, v.tenant i = some a) ∨ v.idle ≠ [] := by
  cases ho with
  | ok i es c' v' hes hrun hshows =>
      refine iff_of_true rfl ?_
      cases hes with
      | cached hi => exact .inl ⟨i, hi⟩
      | brought p ha hp =>
          obtain ⟨⟨hlast, -⟩, -⟩ := hrun
          refine .inr fun hidle => ?_
          rw [hidle] at hlast
          cases hlast
  | error f hf =>
      refine iff_of_false Bool.false_ne_true ?_
      cases hf with
      | noBuckets hnone => omega
      | refused e ha he =>
          rw [he] at hmake
          cases hmake
      | full p ha hp hidle =>
          rintro (⟨i, hi⟩ | hroom)
          · exact ha i hi
          · exact hroom hidle

namespace Shows

theorem contains_idle_iff (h : c.Shows v) : c.idle.contains i = true ↔ c.mark i = 0 := by
  rw [h.idle.contains_iff, h.tidy.mem_idle, h.mark]

theorem available_eq_size (h : c.Shows v) : c.available = c.idle.size := by
  rw [available_eq, h.idle.size_eq]
  refine (length_eq_countP h.tidy.idle fun i => ?_).symm
  rw [h.tidy.mem_idle, h.mark, decide_eq_true_eq]

theorem idle_ne_nil_iff (h : c.Shows v) : v.idle ≠ [] ↔ ∃ i, c.mark i = 0 := by
  rw [ne_eq, List.eq_nil_iff_forall_not_mem, not_forall, h.mark]
  simp only [h.tidy.mem_idle, not_not]

theorem isOk_holdOrCreate_iff (h : c.Shows v) (hbuckets : 0 < sizing.buckets)
    (ha : a.Admissible) : (c.holdOrCreate a fresh).1.isOk ↔
      (∃ i, c.tenant? i = some a) ∨ ∃ i, c.mark i = 0 := by
  have hhold := h.hold (a := a) (Payload.ofAddress a fresh)
  rw [holdOrCreate, isOk_toHandle, hhold.isOk_iff hbuckets (Payload.isOk_ofAddress.2 ha),
    h.idle_ne_nil_iff, h.tenant]

/-- A cache that calls itself full has no slot left, and says so. -/
theorem holdOrCreate_full {capacity available : Nat} (h : c.Shows v)
    (hfull : (c.holdOrCreate a fresh).1 = .error (.refused (.cacheFull capacity available))) :
    capacity = sizing.capacity ∧ available = 0 ∧ c.available = 0 := by
  have hhold := h.hold (a := a) (Payload.ofAddress a fresh)
  unfold holdOrCreate at hfull
  generalize c.hold a (Payload.ofAddress a fresh) = o at hhold hfull
  cases hhold with
  | ok i es c' v' hes hrun hshows => cases hfull
  | error f hf =>
      have hcause : f = .refused (.cacheFull capacity available) := Except.error.inj hfull
      subst hcause
      cases hf with
      | refused e ha hmake => cases Payload.ofAddress_eq_error hmake
      | full p ha hmake hidle => exact ⟨rfl, rfl, h.available_eq_zero hidle⟩

end Shows

end Cache

namespace Books

/-- After any calls no mark is negative, the idle slots are those without a mark, and there are as
many of them as are available. With a bucket to look addresses up in, a chunk is created, or found,
exactly if it is cached or some slot has no mark; a cache that is full has none available. -/
theorem room_exact (sizing : Sizing) (hash : Address → UInt64) (calls : List Call) :
    let c := ((opened sizing hash).run calls).cache
    (∀ i, 0 ≤ c.mark i) ∧ (∀ i, c.idle.contains i = true ↔ c.mark i = 0) ∧
    (∀ i, i ∈ c.idle.toList ↔ c.mark i = 0) ∧ c.idle.toList.Nodup ∧
    c.available = c.idle.size ∧ c.available = c.idle.toList.length ∧
    (0 < sizing.buckets → ∀ a fresh, a.Admissible →
      ((c.holdOrCreate a fresh).1.isOk ↔ (∃ i, c.tenant? i = some a) ∨ ∃ i, c.mark i = 0)) ∧
    ∀ a fresh capacity available,
      (c.holdOrCreate a fresh).1 = .error (.refused (.cacheFull capacity available)) →
      capacity = sizing.capacity ∧ available = 0 ∧ c.available = 0 := by
  intro c
  obtain ⟨v, h, -⟩ := shows_run (b := opened sizing hash) (.emptyWith hash) calls
  have hlist : c.idle.toList = v.idle := h.idle.toList_eq
  refine ⟨fun i => ?_, fun i => h.contains_idle_iff, fun i => ?_, ?_, h.available_eq_size, ?_,
    fun hbuckets a fresh ha => h.isOk_holdOrCreate_iff hbuckets ha,
    fun a fresh capacity available => h.holdOrCreate_full⟩
  · rw [h.mark]
    exact h.tidy.nonneg i
  · rw [hlist, h.tidy.mem_idle, h.mark]
  · rw [hlist]
    exact h.tidy.idle
  · rw [hlist, ← h.idle.size_eq]
    exact h.available_eq_size

/-- The only slot keeps its mark after a refused discard, so there is room for the chunk in it and
for no other. -/
theorem room_exact_referenced :
    let calls := [.holdOrCreate first 0, .holdCached first, .discard ⟨0, first⟩]
    let c := ((opened ⟨1, 1⟩ fun _ => 0).run calls).cache
    (c.holdOrCreate first 0).1.isOk ∧ ¬(c.holdOrCreate second 0).1.isOk ∧
      (c.holdOrCreate second 0).1 = .error (.refused (.cacheFull 1 0)) ∧ c.available = 0 := by
  intro calls c
  have hroom := room_exact ⟨1, 1⟩ (fun _ => 0) calls
  obtain ⟨-, -, -, -, -, -, hiff, hfull⟩ := hroom
  have hsecond : (c.holdOrCreate second 0).1 = .error (.refused (.cacheFull 1 0)) := by
    decide +kernel
  refine ⟨?_, ?_, hsecond, (hfull second 0 1 0 hsecond).2.2⟩
  · exact (hiff (by decide) first 0 (by decide)).2 (.inl ⟨0, by decide +kernel⟩)
  · rw [hiff (by decide) second 0 (by decide)]
    decide +kernel

/-- A cache without buckets can be made, and all of its slots are idle, but nothing is looked up in
it and so nothing is created. -/
theorem no_room_without_buckets :
    let c := ((opened ⟨1, 0⟩ Address.hash).run []).cache
    Cache.create ⟨1, 0⟩ = .ok c ∧ first.Admissible ∧ c.mark 0 = 0 ∧
      ¬((c.holdOrCreate first 0).1.isOk ↔
        (∃ i, c.tenant? i = some first) ∨ ∃ i, c.mark i = 0) := by
  intro c
  refine ⟨rfl, by decide, by decide, ?_⟩
  decide +kernel

end Books

end ChunkCache
