import ChunkCache.Proofs.Cache.Rule
import ChunkCache.Proofs.Operation

namespace ChunkCache

namespace Tracker

variable {t t' : Tracker} {queued : Prop}

/-- There is a listener, and it was told of the present changes unless the slot was queued. -/
structure Heard (t : Tracker) (queued : Prop) : Prop where
  listening : t.listening = true
  told : t.dirty = true → queued ∨ 0 < t.notices

namespace Heard

theorem of_clean (hlistening : t.listening = true) (hclean : t.dirty = false) :
    t.Heard queued where
  listening := hlistening
  told hdirty := absurd hdirty (by rw [hclean]; exact Bool.false_ne_true)

theorem clear (h : t.Heard queued) : t.clear.Heard queued := .of_clean h.listening rfl

/-- A touch of a clean payload is told, and one of a dirty payload changes nothing. -/
theorem touch (h : t.Heard queued) : t.touch.Heard queued := by
  unfold Tracker.touch
  split
  · exact h
  · refine ⟨h.listening, fun _ => .inr ?_⟩
    simp only [h.listening, if_true]
    exact Nat.succ_pos _

theorem follows (h : t.Heard queued) (hfollows : t.Follows t') : t'.Heard queued := by
  rcases hfollows with rfl | rfl
  · exact h.touch
  · exact h

end Heard

end Tracker

namespace Payload

variable {p : Payload} {queued : Prop}

theorem heard_operate (h : p.tracker.Heard queued) (ops : List Operation) :
    (p.operate ops).tracker.Heard queued := by
  induction ops generalizing p with
  | nil => exact h
  | cons op ops ih =>
      apply ih
      rcases op.follows_on p with ⟨-, hclear⟩ | hfollows
      · rw [hclear]
        exact h.clear
      · exact h.follows hfollows

/-- A notice that is forgotten has the slot queued. -/
theorem heard_forgetNotices (h : p.tracker.Heard queued) :
    p.forgetNotices.tracker.Heard (queued ∨ 0 < p.tracker.notices) := by
  rw [forgetNotices, tracker_mapTracker]
  exact ⟨h.listening, fun hdirty => .inl (h.told hdirty)⟩

end Payload

/-- Every cached chunk is listened to, and its slot is queued if the chunk is dirty. -/
def Rule.heard : Rule where
  Holds _ p queued := p.tracker.Heard queued
  queue hqueued h := ⟨h.listening, fun hdirty => (h.told hdirty).imp_left hqueued⟩
  save {a p q} h := by
    rw [Payload.saved, Payload.forgetNotices, Payload.tracker_mapTracker,
      Payload.tracker_mapTracker]
    exact .of_clean h.listening rfl
  create {a fresh p} hp := by
    rw [Payload.admitted, Payload.forgetNotices, Payload.listen, Payload.tracker_mapTracker,
      Payload.tracker_mapTracker, (Payload.ofAddress_eq hp).2.2]
    exact .of_clean rfl rfl
  load h _ hload := Payload.heard_forgetNotices (h.follows (Payload.follows_load hload))
  fork _ _ := ⟨rfl, fun _ => .inl trivial⟩

/-- What the call does to a cached payload is a series of operations. -/
def Call.Operates : Call → Prop
  | .access _ act => ∀ p p', act p = .ok p' → ∃ ops, p' = p.operate ops
  | _ => True

theorem Call.Operates.allowed {call : Call} (h : call.Operates) : Rule.heard.Allows call := by
  cases call with
  | access t act =>
      rintro p p' q hheard - hact
      obtain ⟨ops, rfl⟩ := h p p' hact
      exact Payload.heard_forgetNotices (Payload.heard_operate hheard ops)
  | holdOrPut a p =>
      change p.admitted.tracker.Heard (p.isDirty = true)
      rw [Payload.admitted, Payload.forgetNotices, Payload.listen, Payload.tracker_mapTracker,
        Payload.tracker_mapTracker]
      exact ⟨rfl, .inl⟩
  | forkFrom origin source t a fresh => exact fun m _ _ => ⟨rfl, fun _ => .inl trivial⟩
  | _ => trivial

namespace Cache

variable {sizing : Sizing} {c : Cache sizing} {i : Fin sizing.capacity} {a : Address}

theorem Obeys.queued_of_dirty (h : c.Obeys .heard) (hi : c.tenant? i = some a) :
    ∃ p, c.read ⟨i.val, a⟩ = .ok p ∧ (p.isDirty = true → c.pending.contains i = true) := by
  obtain ⟨p, hread, hquiet, hheard⟩ := h.read hi
  refine ⟨p, hread, fun hdirty => (hheard.told hdirty).resolve_right ?_⟩
  rw [hquiet]
  exact Nat.lt_irrefl 0

theorem Shows.not_pending_of_pendingCount {v : View sizing.capacity} (h : c.Shows v)
    (hcount : c.pendingCount = 0) : c.pending.contains i = false := by
  rw [h.pendingCount_eq, List.length_eq_zero_iff] at hcount
  rw [h.contains_pending, hcount]
  exact decide_eq_false List.not_mem_nil

end Cache

namespace Books

/-- After any calls, as long as cached payloads are changed by operations only, the slot of every
dirty chunk is queued. So no chunk is dirty after a save, and nothing is queued. -/
theorem dirty_queued (sizing : Sizing) (hash : Address → UInt64) (calls : List Call)
    (hcalls : ∀ call ∈ calls, call.Operates) :
    let c := ((opened sizing hash).run calls).cache
    (∀ i a, c.tenant? i = some a → ∃ p, c.read ⟨i.val, a⟩ = .ok p ∧
      (p.isDirty = true → c.pending.contains i = true)) ∧
    ∀ s, (c.save s).2.1.pendingCount = 0 ∧ ∀ i a, (c.save s).2.1.tenant? i = some a →
      ∃ p, (c.save s).2.1.read ⟨i.val, a⟩ = .ok p ∧ p.isDirty = false := by
  intro c
  have hobeys : c.Obeys .heard :=
    obeys_run (obeys_opened sizing hash _) fun call hcall => (hcalls call hcall).allowed
  refine ⟨fun i a => hobeys.queued_of_dirty, fun s => ?_⟩
  obtain ⟨v, hshows, hv⟩ := hobeys
  have hsaved := (hshows.save s).1
  have hnone := hshows.pendingCount_save s
  refine ⟨hnone, fun i a hi => ?_⟩
  obtain ⟨p, hread, hqueued⟩ :=
    Cache.Obeys.queued_of_dirty ⟨v.save, hsaved, hv.save hshows.tidy⟩ hi
  refine ⟨p, hread, Bool.eq_false_iff.2 fun hdirty => ?_⟩
  have hout := hsaved.not_pending_of_pendingCount (i := i) hnone
  rw [hqueued hdirty] at hout
  cases hout

/-- A changed timeline is put into the only slot, saved and evicted; the one that takes its place is
changed, saved by its holder and changed again, and then a discard of it is refused. -/
def recycled : List Call :=
  let change : Operation := .mutate (.insert 10) (.unknown 0)
  [ .holdOrPut first ((Payload.timeline .empty).operate [change]), .releaseOf first, .save {},
    .holdOrCreate second 0, .holdCached second,
    .access ⟨0, second⟩ fun p =>
      .ok (p.operate [change, .save, .mutate (.truncate 5) (.unknown 0)]),
    .discard ⟨0, second⟩ ]

/-- The change of a chunk in a slot that was given to it is not lost on the way. -/
theorem dirty_queued_recycled :
    let c := ((opened ⟨1, 1⟩ fun _ => 0).run recycled).cache
    (∀ call ∈ recycled, call.Operates) ∧ c.tenant? 0 = some second ∧
      ∃ p, c.read ⟨0, second⟩ = .ok p ∧ p.isDirty = true ∧ c.pending.contains 0 = true := by
  intro c
  have hcalls : ∀ call ∈ recycled, call.Operates := by
    simp only [recycled, List.forall_mem_cons]
    refine ⟨trivial, trivial, trivial, trivial, trivial, fun p p' hact => ?_, trivial,
      List.forall_mem_nil _⟩
    exact ⟨_, (Except.ok.inj hact).symm⟩
  have htenant : c.tenant? 0 = some second := by decide +kernel
  have hdirty : (c.read ⟨0, second⟩).map Payload.isDirty = .ok true := by decide +kernel
  obtain ⟨p, hp, hqueued⟩ := (dirty_queued ⟨1, 1⟩ (fun _ => 0) recycled hcalls).1 0 second htenant
  have hread : c.read ⟨0, second⟩ = .ok p := hp
  rw [hread, Except.map, Except.ok.injEq] at hdirty
  exact ⟨hcalls, htenant, p, hread, hdirty, hqueued hdirty⟩

end Books

end ChunkCache
