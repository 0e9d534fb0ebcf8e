import ChunkCache.Proofs.Cache.Room
import ChunkCache.Proofs.Recency

namespace ChunkCache

open Function

namespace Cache

variable {sizing origin : Sizing} {c c' : Cache sizing} {v v' u : View sizing.capacity}
variable {i j : Fin sizing.capacity} {a : Address} {p : Payload} {t : Handle}
variable {make : Except Error Payload} {es : List (Effect sizing.capacity)} {fresh : Stamp}
variable {released vacated : List (Fin sizing.capacity)}

/-- The slot of a chunk that was released again because its record could not be loaded. -/
def unloaded {α : Type} (a : Address) : Outcome α sizing → List (Fin sizing.capacity)
  | (.ok _, _) => []
  | (.error _, c) => (c.find a).toList.filter fun i => c.mark i = 0

/-- The slots whose last mark a call gives back, the last one first: by a release, by a load that
fails, or by a save for those that it had queued. -/
def releasedBy (c : Cache sizing) : Call → List (Fin sizing.capacity)
  | .releaseOf a => (c.find a).toList.filter fun i => c.mark i = 1
  | .releaseHandle t =>
    match c.currentSlot t with
    | .ok slot => slot.toList.filter fun i => c.mark i = 1
    | .error _ => []
  | .complete a record fresh => unloaded a (c.complete a record fresh)
  | .holdOrFetch s a fresh => unloaded a (c.holdOrFetch s a fresh)
  | .save _ => c.pending.toList.filter fun i => c.mark i = 1
  | _ => []

/-- The slot that a call vacates. -/
def vacatedBy (c : Cache sizing) : Call → List (Fin sizing.capacity)
  | .discard t => if (c.discard t).1.isOk then (slotAt sizing t.slot).toOption.toList else []
  | _ => []

/-- The call does not request a save of a vacant slot. -/
def SparesVacant (c : Cache sizing) : Call → Prop
  | .requestSaveAt number => ∀ i : Fin sizing.capacity, i.val = number → (c.tenant? i).isSome
  | _ => True

instance (c : Cache sizing) : (call : Call) → Decidable (c.SparesVacant call)
  | .requestSaveAt number =>
    inferInstanceAs (Decidable (∀ i : Fin sizing.capacity, i.val = number → (c.tenant? i).isSome))
  | .holdCached _ | .holdOrCreate _ _ | .holdOrPut _ _ | .request _ _ | .complete _ _ _
  | .holdOrFetch _ _ _ | .fork _ _ _ | .forkFrom _ _ _ _ _ | .access _ _ | .load _ _ _
  | .releaseOf _ | .releaseHandle _ | .requestSave _ | .discard _ | .save _ => isTrue trivial

/-- A call leaves this cache, lets the slots `released` come to rest and vacates `vacated`. -/
def Chronicles (v : View sizing.capacity) (released vacated : List (Fin sizing.capacity))
    (c' : Cache sizing) : Prop :=
  ∃ v', c'.Shows v' ∧ v.Chronicled v' released vacated

theorem size_eq_capacity (hfull : ∀ i, (c.tenant? i).isSome) : c.size = sizing.capacity := by
  rw [size_eq, List.countP_eq_length.2 fun i _ => hfull i, List.length_finRange]

section Pieces

theorem chronicled_rewriting (ht : v.Tidy) (hi : v.tenant i = some a)
    (hrun : v.Run (rewriting i a p) v') : v.Chronicled v' [] [] ∧ v'.tenant = v.tenant := by
  have hchunk : (v.tenant i).isSome := Option.isSome_iff_exists.2 ⟨a, hi⟩
  unfold rewriting at hrun
  split at hrun
  · obtain ⟨-, -, rfl⟩ := hrun
    have hqueued := View.Chronicled.queue (v := v.write i p.forgetNotices) ht.write
      hchunk
    exact ⟨(View.Chronicled.write v i _).trans hqueued View.tenant_queue, View.tenant_queue⟩
  · obtain ⟨-, rfl⟩ := hrun
    exact ⟨.write v i _, rfl⟩

theorem Holding.chronicled (h : Holding v a make i es) (ht : v.Tidy) (hrun : v.Run es v') :
    v.Chronicled v' [] [] := by
  cases h with
  | cached hi =>
      obtain ⟨-, rfl⟩ := hrun
      exact View.Chronicled.retain ht (Option.isSome_iff_exists.2 ⟨a, hi⟩)
  | brought p ha hmake =>
      have hchunk : ((v.occupy i a p.admitted).tenant i).isSome := by
        simp [View.occupy]
      unfold admission at hrun
      split at hrun
      · obtain ⟨⟨hlast, -⟩, -, rfl⟩ := hrun
        have hqueued := View.Chronicled.queue (ht.occupy ha) hchunk
        exact (View.Chronicled.occupy ht hlast).trans hqueued View.tenant_queue
      · obtain ⟨⟨hlast, -⟩, rfl⟩ := hrun
        exact .occupy ht hlast

/-- A chunk that is held has a mark. -/
theorem Holding.mark_pos (h : Holding v a make i es) (ht : v.Tidy) (hrun : v.Run es v') :
    0 < v'.mark i := by
  have hretained : ∀ w : View sizing.capacity, 0 ≤ w.mark i → 0 < (w.retain i).mark i := by
    intro w hw
    rw [View.mark_retain, if_pos rfl]
    omega
  cases h with
  | cached hi =>
      obtain ⟨-, rfl⟩ := hrun
      exact hretained v (ht.nonneg i)
  | brought p ha hmake =>
      have hoccupied : (v.occupy i a p.admitted).mark i = 1 := update_self ..
      unfold admission at hrun
      split at hrun
      · obtain ⟨-, -, rfl⟩ := hrun
        change 0 < ((v.occupy i a p.admitted).queue i).mark i
        unfold View.queue
        split
        · omega
        · exact hretained _ (by change 0 ≤ (v.occupy i a p.admitted).mark i; omega)
      · obtain ⟨-, rfl⟩ := hrun
        change 0 < (v.occupy i a p.admitted).mark i
        omega

end Pieces

section Outcomes

variable (h : c.Shows v)

include h

theorem Shows.chronicles_self : Chronicles v [] [] c := ⟨v, h, .refl v⟩

theorem Shows.chronicles_retain (hi : v.tenant i = some a) : Chronicles v [] [] (c.retain i) :=
  ⟨_, h.retain, View.Chronicled.retain h.tidy (Option.isSome_iff_exists.2 ⟨a, hi⟩)⟩

theorem Shows.chronicles_queue (hi : (v.tenant i).isSome) : Chronicles v [] [] (c.queueForSave i) :=
  ⟨_, h.queueForSave, View.Chronicled.queue h.tidy hi⟩

theorem Held.chronicles {o : Outcome (Fin sizing.capacity) sizing} (ho : Held c v a make o) :
    Chronicles v [] [] o.2 := by
  cases ho with
  | ok i es c' v' hes hrun hshows => exact ⟨v', hshows, hes.chronicled h.tidy hrun⟩
  | error f hf => exact h.chronicles_self

theorem Looked.chronicles {o : Outcome (Option Handle) sizing} (ho : Looked c v a o) :
    Chronicles v [] [] o.2 := by
  cases ho with
  | cached i hi => exact h.chronicles_retain hi
  | missing ha => exact h.chronicles_self
  | noBuckets hbuckets => exact h.chronicles_self

theorem Accessed.chronicles {α : Type} {act : Payload → Except Error (α × Payload)}
    {o : Outcome α sizing} (ho : Accessed c v t act o) : Chronicles v [] [] o.2 := by
  cases ho with
  | refused i p e hi hp he => exact h.chronicles_self
  | stale e ht => exact h.chronicles_self
  | done i p p' answer c' v' hi hp hdone hrun hshows =>
      exact ⟨v', hshows, (chronicled_rewriting h.tidy hi.2 hrun).1⟩

theorem Forked.chronicles {source : Cache origin} {o : Outcome Handle sizing}
    (ho : Forked c v source t a fresh o) : Chronicles v [] [] o.2 := by
  cases ho with
  | failed f hf => exact h.chronicles_self
  | done i es m c' u v' hkind hm hes hheld hrun hshows =>
      obtain ⟨hwritten, htenant⟩ :=
        chronicled_rewriting (h.tidy.run hheld) (hes.tenant hheld) hrun
      exact ⟨v', hshows, (hes.chronicled h.tidy hheld).trans hwritten htenant⟩

/-- Without the chunk there is nothing to release. -/
theorem Shows.unloaded_of_absent {α : Type} (ha : ∀ j, v.tenant j ≠ some a)
    (answer : Except Failure α) : unloaded a (answer, c) = [] := by
  cases answer with
  | ok answer => rfl
  | error f =>
      rw [unloaded, h.find_eq_none_iff.2 ha]
      rfl

theorem Shows.absent_of_noBuckets (hbuckets : sizing.buckets = 0) (j : Fin sizing.capacity) :
    v.tenant j ≠ some a := by
  rw [← h.tenant, h.indexed.tenant?_eq_none hbuckets]
  exact nofun

theorem NotHolding.absent {f : Failure} (hf : NotHolding v a make f) (j : Fin sizing.capacity) :
    v.tenant j ≠ some a := by
  cases hf with
  | noBuckets hbuckets => exact h.absent_of_noBuckets hbuckets j
  | refused e ha hmake => exact ha j
  | full p ha hmake hidle => exact ha j

theorem Completed.chronicles {record : Bytes} {o : Outcome Handle sizing}
    (ho : Completed c v a record fresh o) : Chronicles v (unloaded a o) [] o.2 := by
  cases ho with
  | failed f hf =>
      rw [h.unloaded_of_absent (hf.absent h)]
      exact h.chronicles_self
  | done i es p p' c' u v' hes hheld hp hload hrun hshows =>
      obtain ⟨hwritten, htenant⟩ :=
        chronicled_rewriting (h.tidy.run hheld) (hes.tenant hheld) hrun
      exact ⟨v', hshows, (hes.chronicled h.tidy hheld).trans hwritten htenant⟩
  | undone i es p e c' u hes hheld hp hload hshows =>
      have hi : u.tenant i = some a := hes.tenant hheld
      have hpos : 0 < u.mark i := hes.mark_pos h.tidy hheld
      have hfind : c'.find a = some i := hshows.find_eq_some_iff.2 (by rw [View.tenant_release, hi])
      have hmark : c'.mark i = u.mark i - 1 := by
        rw [hshows.mark, View.mark_release, if_pos ⟨rfl, hpos⟩]
      have hunloaded : unloaded a ((.error (.refused e), c') : Outcome Handle sizing) =
          if u.mark i = 1 then [i] else [] := by
        rw [unloaded, hfind, Option.toList_some, List.filter_singleton, hmark]
        by_cases hone : u.mark i = 1
        · simp [hone]
        · simp [hone, show u.mark i - 1 ≠ 0 by omega]
      rw [hunloaded]
      refine ⟨_, hshows, (hes.chronicled h.tidy hheld).trans ?_ View.tenant_release⟩
      exact View.Chronicled.release (Option.isSome_iff_exists.2 ⟨a, hi⟩)

theorem Fetched.chronicles {s : RecordStore} {o : Outcome (Option Handle) sizing}
    (ho : Fetched c v s a fresh o) : Chronicles v (unloaded a o) [] o.2 := by
  cases ho with
  | cached i hi => exact h.chronicles_retain hi
  | missing ha hread => exact h.chronicles_self
  | unread e ha hread =>
      rw [h.unloaded_of_absent ha]
      exact h.chronicles_self
  | noBuckets hbuckets =>
      rw [h.unloaded_of_absent (h.absent_of_noBuckets hbuckets)]
      exact h.chronicles_self
  | completed record ha hread hcomplete =>
      have hchronicles := hcomplete.chronicles h
      generalize c.complete a record fresh = o at hchronicles ⊢
      obtain ⟨answer, c'⟩ := o
      cases answer with
      | ok t => exact hchronicles
      | error f => exact hchronicles

theorem Shows.chronicles_release (hi : v.tenant i = some a) :
    Chronicles v ([i].filter fun i => c.mark i = 1) [] (c.release i).2 := by
  refine ⟨_, h.release, ?_⟩
  have hreleased := View.Chronicled.release (v := v) (Option.isSome_iff_exists.2 ⟨a, hi⟩)
  rw [List.filter_singleton, h.mark]
  by_cases hone : v.mark i = 1
  · simpa [hone] using hreleased
  · simpa [hone] using hreleased

theorem Shows.chronicles_releaseOf (a : Address) :
    Chronicles v (c.releasedBy (.releaseOf a)) [] (c.releaseOf a).2 := by
  have hreleased := h.releaseOf a
  have hnone : (∀ i, v.tenant i ≠ some a) → c.releasedBy (.releaseOf a) = [] := by
    intro ha
    rw [releasedBy, h.find_eq_none_iff.2 ha]
    rfl
  generalize c.releaseOf a = o at hreleased ⊢
  cases hreleased with
  | absent hi =>
      rw [hnone hi]
      exact h.chronicles_self
  | aborted f hi =>
      rw [hnone hi]
      exact h.chronicles_self
  | released i hi =>
      rw [releasedBy, h.find_eq_some_iff.2 hi]
      exact h.chronicles_release hi

theorem Shows.chronicles_releaseHandle (t : Handle) :
    Chronicles v (c.releasedBy (.releaseHandle t)) [] (c.releaseHandle t).2 := by
  rw [Cache.releaseHandle, releasedBy]
  rcases h.currentSlot t with ⟨i, hi, hslot⟩ | ⟨ht, hslot | hslot⟩
  · rw [hslot]
    exact h.chronicles_release hi.2
  · rw [hslot]
    exact h.chronicles_self
  · rw [hslot]
    exact h.chronicles_self

theorem Shows.chronicles_requestSave (t : Handle) : Chronicles v [] [] (c.requestSave t).2 := by
  rcases h.requestSave t with ⟨i, hi, heq⟩ | ⟨ht, heq⟩
  · rw [heq]
    exact h.chronicles_queue (Option.isSome_iff_exists.2 ⟨_, hi.2⟩)
  · rw [heq]
    exact h.chronicles_self

theorem Shows.chronicles_requestSaveAt {number : Nat}
    (hspares : c.SparesVacant (.requestSaveAt number)) :
    Chronicles v [] [] (c.requestSaveAt number).2 := by
  unfold Cache.requestSaveAt slotAt
  split
  · exact h.chronicles_self
  · rename_i i hslot
    split at hslot
    · cases hslot
      refine h.chronicles_queue ?_
      rw [← h.tenant]
      exact hspares _ rfl
    · cases hslot

theorem Shows.chronicles_discard (t : Handle) :
    Chronicles v [] (c.vacatedBy (.discard t)) (c.discard t).2 := by
  have hdiscard := h.discard t
  rw [vacatedBy]
  generalize c.discard t = o at hdiscard ⊢
  cases hdiscard with
  | stale e ht => exact h.chronicles_self
  | referenced i e c' hi hmark hshows =>
      refine ⟨_, hshows, ?_⟩
      split
      · exact .requeue ‹_›
      · exact .refl v
  | done i c' hi hmark hshows =>
      have hslot : slotAt sizing t.slot = .ok i := by
        rw [← hi.1, slotAt, dif_pos i.isLt]
      have hchunk : (v.tenant i).isSome := Option.isSome_iff_exists.2 ⟨_, hi.2⟩
      have hne : v.mark i ≠ 0 := by
        rw [hmark]
        split <;> omega
      rw [hslot]
      exact ⟨_, hshows, .vacate h.tidy hchunk hne⟩

theorem Shows.chronicles_save (s : RecordStore) :
    Chronicles v (c.releasedBy (.save s)) [] (c.save s).2.1 := by
  rw [releasedBy, h.pending.toList_eq, h.mark]
  exact ⟨_, (h.save s).1, .save h.tidy⟩

/-- What a call does to the slots is what the diary notes of it. -/
theorem Shows.chronicles {call : Call} (hcall : c.SparesVacant call) :
    Chronicles v (c.releasedBy call) (c.vacatedBy call) (c.perform call).2 := by
  cases call with
  | holdCached a =>
      rw [Cache.perform, snd_grantIf]
      exact (h.holdCached a).chronicles h
  | holdOrCreate a fresh =>
      rw [Cache.perform, snd_grant]
      exact (h.hold _).chronicles h
  | holdOrPut a p =>
      rw [Cache.perform, snd_grant]
      exact (h.hold (.ok p)).chronicles h
  | request s a =>
      have hrequest := h.request s a
      rw [Cache.perform]
      generalize c.request s a = o at hrequest ⊢
      cases hrequest with
      | cached i hi => exact h.chronicles_retain hi
      | stored record ha hread => exact h.chronicles_self
      | unread e ha hread => exact h.chronicles_self
      | noBuckets hbuckets => exact h.chronicles_self
  | complete a record fresh =>
      rw [Cache.perform, snd_grant]
      exact (h.complete a record fresh).chronicles h
  | holdOrFetch s a fresh =>
      rw [Cache.perform, snd_grantIf]
      exact (h.holdOrFetch s a fresh).chronicles h
  | fork t a fresh =>
      rw [Cache.perform, snd_grant]
      exact (h.fork c t a fresh).chronicles h
  | forkFrom origin source t a fresh =>
      rw [Cache.perform, snd_grant]
      exact (h.fork source t a fresh).chronicles h
  | access t act => exact (h.access t _).chronicles h
  | load t buffer fresh => exact (h.load t buffer fresh).chronicles h
  | releaseOf a =>
      rw [Cache.perform, snd_giveBack]
      exact h.chronicles_releaseOf a
  | releaseHandle t =>
      rw [Cache.perform, snd_giveBack]
      exact h.chronicles_releaseHandle t
  | requestSave t => exact h.chronicles_requestSave t
  | requestSaveAt number => exact h.chronicles_requestSaveAt hcall
  | discard t =>
      have hdiscard := h.chronicles_discard t
      rw [Cache.perform]
      generalize c.vacatedBy (.discard t) = vacated at hdiscard ⊢
      generalize c.discard t = o at hdiscard ⊢
      rcases o with ⟨_ | _, c'⟩ <;> exact hdiscard
  | save s => exact h.chronicles_save s

/-- A chunk that a call brings in takes the slot at the end of the idle ones. -/
theorem Shows.filled {call : Call} (ha : ∀ j, c.tenant? j ≠ some a)
    (hi : (c.perform call).2.tenant? i = some a) : v.idle.getLast? = some i ∧
      ∀ j, j ≠ i → (c.perform call).2.tenant? j = c.tenant? j := by
  by_cases hspares : c.SparesVacant call
  · obtain ⟨v', hshows, hchronicled⟩ := h.chronicles hspares
    rw [hshows.tenant] at hi ⊢
    rw [h.tenant] at ha ⊢
    exact hchronicled.filled ha hi
  · cases call with
    | requestSaveAt number =>
        rw [Cache.perform] at hi
        rcases requestSaveAt_cases c number with ⟨j, heq⟩ | heq
        · rw [heq, h.queueForSave.tenant, View.tenant_queue, ← h.tenant] at hi
          exact absurd hi (ha i)
        · rw [heq] at hi
          exact absurd hi (ha i)
    | _ => exact absurd trivial hspares

end Outcomes

end Cache

/-- A cache, the references to its chunks and the histories of its slots: those whose last marks
were given back and those that became vacant, the last one first. The slots of a new cache count as
vacated, the first one last. -/
structure Diary (sizing : Sizing) extends Books sizing where
  released : List (Fin sizing.capacity)
  vacated : List (Fin sizing.capacity)

namespace Diary

variable {sizing : Sizing} {d : Diary sizing} {call : Call} {calls : List Call}

def opened (sizing : Sizing) (hash : Address → UInt64) : Diary sizing where
  toBooks := .opened sizing hash
  released := []
  vacated := List.finRange sizing.capacity

def after (d : Diary sizing) (call : Call) : Diary sizing where
  toBooks := d.toBooks.after call
  released := d.cache.releasedBy call ++ d.released
  vacated := d.cache.vacatedBy call ++ d.vacated

def run (d : Diary sizing) (calls : List Call) : Diary sizing := calls.foldl after d

/-- No call requests a save of a slot that is vacant at the time. -/
def SparesVacant (d : Diary sizing) : List Call → Prop
  | [] => True
  | call :: calls => d.cache.SparesVacant call ∧ (d.after call).SparesVacant calls

instance decidableSparesVacant (d : Diary sizing) :
    (calls : List Call) → Decidable (d.SparesVacant calls)
  | [] => isTrue trivial
  | call :: calls =>
    @instDecidableAnd _ _ inferInstance (decidableSparesVacant (d.after call) calls)

/-- The vacant slots, the one vacated last first. -/
def vacant (d : Diary sizing) : List (Fin sizing.capacity) :=
  d.vacated.eraseDups.filter fun i => (d.cache.tenant? i).isNone

/-- The slots whose chunks nobody holds, the one released last first. -/
def resting (d : Diary sizing) : List (Fin sizing.capacity) :=
  d.released.eraseDups.filter fun i => (d.cache.tenant? i).isSome && decide (d.cache.mark i = 0)

/-- The idle slots of the cache are in the order that the diary tells. -/
def Tells (d : Diary sizing) (v : View sizing.capacity) : Prop :=
  d.cache.Shows v ∧ v.Recent d.released d.vacated ∧ ∀ i, i ∈ d.vacated

theorem tells_opened (sizing : Sizing) (hash : Address → UInt64) :
    (opened sizing hash).Tells (View.empty sizing.capacity hash) :=
  ⟨.emptyWith hash, .empty, List.mem_finRange⟩

theorem exists_tells_after {v : View sizing.capacity} (h : d.Tells v)
    (hcall : d.cache.SparesVacant call) : ∃ v', (d.after call).Tells v' := by
  obtain ⟨hshows, hrecent, hall⟩ := h
  obtain ⟨v', hshows', hchronicled⟩ := hshows.chronicles hcall
  exact ⟨v', hshows', hchronicled.recent hrecent, fun i => List.mem_append_right _ (hall i)⟩

theorem exists_tells_run {v : View sizing.capacity} (h : d.Tells v)
    (hcalls : d.SparesVacant calls) : ∃ v', (d.run calls).Tells v' := by
  induction calls generalizing d v with
  | nil => exact ⟨v, h⟩
  | cons call calls ih =>
      obtain ⟨v', h'⟩ := exists_tells_after h hcalls.1
      exact ih h' hcalls.2

theorem idle_eq {v : View sizing.capacity} (h : d.Tells v) :
    d.cache.idle.toList.reverse = d.vacant ++ d.resting.reverse := by
  obtain ⟨hshows, hrecent, -⟩ := h
  have hvacant : d.vacant = d.vacated.eraseDups.filter v.vacant := by
    rw [vacant, hshows.tenant]
    rfl
  have hresting : d.resting = d.released.eraseDups.filter v.resting := by
    rw [resting, hshows.tenant, hshows.mark]
    rfl
  rw [hshows.idle.toList_eq, hrecent.idle, hvacant, hresting, List.reverse_append,
    List.reverse_reverse]

theorem mem_vacant_iff {v : View sizing.capacity} (h : d.Tells v) (i : Fin sizing.capacity) :
    i ∈ d.vacant ↔ d.cache.tenant? i = none := by
  rw [vacant, List.mem_filter, List.mem_eraseDups, Option.isNone_iff_eq_none]
  exact and_iff_right (h.2.2 i)

theorem mem_resting_iff {v : View sizing.capacity} (h : d.Tells v) (i : Fin sizing.capacity) :
    i ∈ d.resting ↔ (d.cache.tenant? i).isSome ∧ d.cache.mark i = 0 := by
  constructor
  · intro hi
    simpa using (List.mem_filter.1 hi).2
  · rintro ⟨hchunk, hmark⟩
    have hidle : i ∈ d.cache.idle.toList.reverse := by
      rw [List.mem_reverse, h.1.idle.toList_eq, h.1.tidy.mem_idle, ← h.1.mark]
      exact hmark
    rw [idle_eq h, List.mem_append, List.mem_reverse] at hidle
    refine hidle.resolve_left fun hvacant => ?_
    rw [(mem_vacant_iff h i).1 hvacant] at hchunk
    cases hchunk

/-- The slots that a call releases have chunks that nobody holds after it, and no other slot comes
to rest. A call vacates the slots that lose their chunks. -/
theorem notes {v : View sizing.capacity} (h : d.Tells v) (hcall : d.cache.SparesVacant call)
    (i : Fin sizing.capacity) :
    let c := d.cache
    let c' := (c.perform call).2
    (i ∈ c.releasedBy call → (c'.tenant? i).isSome ∧ c'.mark i = 0) ∧
    ((c'.tenant? i).isSome ∧ c'.mark i = 0 →
      i ∈ c.releasedBy call ∨ (c.tenant? i).isSome ∧ c.mark i = 0) ∧
    (i ∈ c.vacatedBy call ↔ c'.tenant? i = none ∧ (c.tenant? i).isSome) := by
  intro c c'
  obtain ⟨hshows, hrecent, -⟩ := h
  obtain ⟨v', hshows', hchronicled⟩ := hshows.chronicles hcall
  have hresting : ∀ w : View sizing.capacity,
      w.resting i = true ↔ (w.tenant i).isSome ∧ w.mark i = 0 := by
    intro w
    rw [View.resting, Bool.and_eq_true, decide_eq_true_eq]
  rw [hshows'.tenant, hshows'.mark, hshows.tenant, hshows.mark, ← hresting, ← hresting]
  exact ⟨hchronicled.resting hrecent i, hchronicled.released, hchronicled.mem_vacated_iff i⟩

/-- After any calls none of which requests a save of a vacant slot, the queue of idle slots has at
its back the vacant ones, the one vacated last at the very end, and before them those whose chunks
nobody holds in the order of their last releases. The slots that a call releases come to rest by it,
no others do, and those it vacates lose their chunks. A chunk that is brought in takes a slot
without a mark and leaves the others alone. It evicts another chunk only if no slot is vacant, and
this chunk was released before every other one that nobody holds; as long as the slot that was
vacated last is vacant, it takes this one. -/
theorem evicts_released_first (sizing : Sizing) (hash : Address → UInt64) (calls : List Call)
    (hcalls : (opened sizing hash).SparesVacant calls) :
    let d := (opened sizing hash).run calls
    let c := d.cache
    c.idle.toList.reverse = d.vacant ++ d.resting.reverse ∧
    (∀ i, i ∈ d.vacant ↔ c.tenant? i = none) ∧
    (∀ i, i ∈ d.resting ↔ (c.tenant? i).isSome ∧ c.mark i = 0) ∧
    (∀ call, c.SparesVacant call → ∀ i, let c' := (c.perform call).2
      (i ∈ c.releasedBy call → (c'.tenant? i).isSome ∧ c'.mark i = 0) ∧
      ((c'.tenant? i).isSome ∧ c'.mark i = 0 →
        i ∈ c.releasedBy call ∨ (c.tenant? i).isSome ∧ c.mark i = 0) ∧
      (i ∈ c.vacatedBy call ↔ c'.tenant? i = none ∧ (c.tenant? i).isSome)) ∧
    ∀ call i a, (∀ j, c.tenant? j ≠ some a) → (c.perform call).2.tenant? i = some a →
      (c.mark i = 0 ∧ ∀ j, j ≠ i → (c.perform call).2.tenant? j = c.tenant? j) ∧
      ((c.tenant? i).isSome → c.size = sizing.capacity ∧ i ∈ d.released ∧
        ∀ j, j ≠ i → c.mark j = 0 → d.released.idxOf j < d.released.idxOf i) ∧
      ∀ j, d.vacated.head? = some j → c.tenant? j = none → i = j := by
  intro d c
  obtain ⟨v, h⟩ := exists_tells_run (tells_opened sizing hash) hcalls
  refine ⟨idle_eq h, mem_vacant_iff h, mem_resting_iff h, fun call hcall => notes h hcall,
    fun call i a ha hi => ?_⟩
  obtain ⟨hshows, hrecent, hall⟩ := h
  obtain ⟨hlast, hothers⟩ := hshows.filled ha hi
  refine ⟨⟨?_, hothers⟩, fun hchunk => ?_, fun j hj hvacant => ?_⟩
  · rw [hshows.mark]
    exact hshows.tidy.mem_idle.1 (List.mem_of_getLast? hlast)
  · rw [hshows.tenant] at hchunk
    obtain ⟨hreleased, holdest⟩ := hrecent.idxOf_lt_of_getLast? hall hshows.tidy hlast hchunk
    refine ⟨Cache.size_eq_capacity fun j => ?_, hreleased, fun j hj hmark => ?_⟩
    · rw [hshows.tenant]
      exact hrecent.isSome_of_getLast? hall hlast hchunk j
    · rw [hshows.mark] at hmark
      exact holdest j hj hmark
  · rw [hshows.tenant] at hvacant
    have hend := hrecent.getLast?_of_vacated hj hvacant
    rw [hlast] at hend
    exact Option.some.inj hend

/-- The chunk in the first slot was released last once, but then the other one was held and released
again. -/
theorem evicts_released_first_returned :
    let third : Address := .timeline 0 3
    let calls := [.holdOrCreate Books.first 0, .holdOrCreate Books.second 0,
      .releaseOf Books.second, .releaseOf Books.first, .holdCached Books.second,
      .releaseHandle ⟨1, Books.second⟩]
    let d := (opened ⟨2, 1⟩ fun _ => 0).run calls
    let c := d.cache
    (opened ⟨2, 1⟩ fun _ => 0).SparesVacant calls ∧
      d.released = [1, 0, 1] ∧ c.idle.toList.reverse = [0, 1] ∧
      ((c.perform (.holdOrCreate third 0)).2.tenant? 0 = some third ∧ c.size = 2 ∧
        d.released.idxOf 1 < d.released.idxOf 0) := by
  intro third calls d c
  have hcalls : (opened ⟨2, 1⟩ fun _ => 0).SparesVacant calls := by decide +kernel
  have hthird : (c.perform (.holdOrCreate third 0)).2.tenant? 0 = some third := by decide +kernel
  obtain ⟨hidle, -, -, -, hevicts⟩ := evicts_released_first ⟨2, 1⟩ (fun _ => 0) calls hcalls
  obtain ⟨-, hevicted, -⟩ := hevicts (.holdOrCreate third 0) 0 third (by decide +kernel) hthird
  obtain ⟨hsize, -, holdest⟩ := hevicted (by decide +kernel)
  refine ⟨hcalls, by decide +kernel, hidle.trans (by decide +kernel), hthird, hsize,
    holdest 1 (by decide) (by decide +kernel)⟩

end Diary

end ChunkCache
